import Blackadder.Rendezvous.Effects

namespace Blackadder.Rendezvous

open Program HashTable Steps Option

namespace Graph

variable {g : Graph} {p f : Ptr} {k : Kind} {r : Role} {h : NodeID} {tag : Ptr → Fragment}

/-- The prefix of the request names a father scope of the item that the request is about. -/
def ItemAddressed (g : Graph) (r : Role) (h : NodeID) (id prefixID : ID) (strategy : Strategy) :
    Prop :=
  ∀ pub, g.index .item (prefixID ++ id) = some pub →
    ∃ f, g.index .scope prefixID = some f ∧
      (g.strategy f = strategy → h ∈ g.hosts r pub (prefixID ++ id) → f ∈ g.fathers pub)

/-- The request names the item `pub`, under a father of the strategy asked for. -/
def Addresses (g : Graph) (pub : Ptr) (id prefixID : ID) (strategy : Strategy) : Prop :=
  g.index .item (prefixID ++ id) = some pub ∧
    ∃ f, g.index .scope prefixID = some f ∧ g.strategy f = strategy

/-- One of several branches of a channel is deleted, while the father there has a subscriber that
reaches the item in no other way. -/
def StaleUnsubscription (g : Graph) (h : NodeID) (id prefixID : ID) (strategy : Strategy) : Prop :=
  ∃ pub f, g.index .item (prefixID ++ id) = some pub ∧ g.index .scope prefixID = some f ∧
    g.strategy f = strategy ∧ h ∈ g.hosts .subscriber pub (prefixID ++ id) ∧
    g.Channel pub ∧ (∃ x, x ∈ g.publishers pub) ∧
    f ∈ g.fathers pub ∧ (∃ f' ∈ g.fathers pub, f' ≠ f) ∧
    (∀ r t, ∀ i ∈ g.branch f t, ∀ x ∈ g.hosts r pub i,
      r = .subscriber ∧ i = prefixID ++ id ∧ x = h) ∧
    ∃ x, (∃ i, x ∈ g.hosts .subscriber f i) ∧
      (∀ f' ∈ g.fathers pub, f' ≠ f → ∀ i, x ∉ g.hosts .subscriber f' i) ∧
      ∀ i, x ∈ g.hosts .subscriber pub i → i = prefixID ++ id ∧ x = h

/-- An identifier of one fragment leaves the whole rest of the name to the prefix. -/
theorem Inv.itemAddressed (inv : g.Inv) (r : Role) (h : NodeID) (t : Fragment) (pre : ID)
    (strategy : Strategy) : g.ItemAddressed r h [t] pre strategy := by
  obtain ⟨tag, shape⟩ := inv
  intro pub hf
  obtain ⟨hl, has⟩ := shape.indexed hf
  obtain ⟨-, ⟨root, -⟩ | ⟨-, f, father, hp⟩⟩ := shape.father_of_append hl has
  · cases shape.one_kind _ _ _ hl (shape.root_scope pub root)
  · have scope := (shape.fathers_live _ _ f hl father).1
    exact ⟨f, (shape.index_iff _ _ _).mpr ⟨scope, hp⟩, fun _ _ => father⟩

/-- All identifiers of a node with one father come from that father. -/
theorem Shape.mem_branch_of_only (shape : Shape tag ∅ g) (hl : p ∈ g.node k)
    (father : f ∈ g.fathers p) (only : ∀ f', f' ∈ g.fathers p → f' = f) {id : ID}
    (has : id ∈ g.ids p) : id ∈ g.branch f (tag p) := by
  rcases shape.sound k p id hl has with ⟨root, -⟩ | ⟨-, f', father', path, hp, hs⟩
  · exact absurd father (shape.root_top p f root)
  · exact ⟨path, only f' father' ▸ hp, hs⟩

end Graph

variable {pol : Policy} {d : Set Ptr} {s s1 s2 : LocalRV} {p f : Ptr} {k : Kind} {r : Role}
  {h : NodeID} {tag : Ptr → Fragment} {short : Prop} {fault : Fault → Prop}
  {target target' : Ptr → Prop} {leaver leaver' : NodeID → Prop}

variable {id : ID}

theorem hosts_named (host : h ∈ (graph s).hosts r p id) : id ∈ (graph s).ids p := by
  obtain ⟨n, pair, hf, paired, -⟩ := host
  exact ⟨n, hf, mem_of_get paired⟩

theorem hosts_live (host : h ∈ (graph s).hosts r p id) : ∃ k, p ∈ (graph s).node k := by
  obtain ⟨n, pair, hf, -⟩ := host
  exact ⟨n.kind, n, hf, rfl⟩

/-- Only hosts in `leaver` leave nodes in `target`, and all matches are dealt with. -/
def Withdraws (pol : Policy) (target : Ptr → Prop) (leaver : NodeID → Prop)
    (s s' : LocalRV) : Prop :=
  ∀ d, Steps (pol.within target leaver) d (graph s) d (graph s')

namespace Withdraws

theorem refl (s : LocalRV) : Withdraws pol target leaver s s := fun d => .refl d _

variable (first : Withdraws pol target leaver s s1)

include first

theorem trans (second : Withdraws pol target leaver s1 s2) : Withdraws pol target leaver s s2 :=
  fun d => (first d).trans (second d)

theorem mono (targets : ∀ q, target q → target' q) (leavers : ∀ h, leaver h → leaver' h) :
    Withdraws pol target' leaver' s s1 :=
  fun d => widen (first d) targets leavers

theorem steps (hu : pol.Unbounded) (d : Set Ptr) : Steps pol d (graph s) d (graph s1) :=
  (first d).widen (fun q _ => hu.2.1 q) fun h _ => hu.2.2 h

theorem sane (sane : Sane pol (graph s)) : Sane pol (graph s1) := by
  have within : Sane (pol.within target leaver) (graph s) :=
    ⟨sane.inv, sane.unmixed, sane.childrenLive⟩
  obtain ⟨inv, unmixed, childrenLive⟩ := within.steps (first ∅)
  exact ⟨inv, unmixed, childrenLive⟩

theorem shrinks (sane : Sane pol (graph s)) : Shrinks target leaver (graph s) (graph s1) :=
  (first ∅).shrinks sane.inv

end Withdraws

variable {n : Node}

section

theorem only_father (hf : s.heap p = some n) (father : f ∈ (graph s).fathers p) :
    n.fatherScopes.size = 1 ↔ ∀ f' ∈ (graph s).fathers p, f' = f := by
  rw [size_eq_one ((mem_fathers hf).mp father)]
  simp only [mem_fathers hf]

/-- A node whose only father has no host left at any identifier can be deleted. -/
theorem Step.removeOnly (shape : Graph.Shape tag ∅ (graph s)) (ht : pol.target p)
    (hl : p ∈ (graph s).node k) (hc : ∀ q, p ∉ (graph s).fathers q)
    (father : f ∈ (graph s).fathers p) (only : ∀ f', f' ∈ (graph s).fathers p → f' = f)
    (he : ∀ r, ∀ id ∈ (graph s).branch f (tag p), ∀ h, h ∉ (graph s).hosts r p id) :
    Step pol d (graph s) d ((graph s).remove k p (some f)) := by
  have told : ∀ f', f' ∈ (graph s).fathers p → some f = some f' :=
    fun f' father' => congrArg some (only f' father').symm
  refine .remove ht hl hc (fun _ => told) (.inr told) fun r id h host => ?_
  exact he r id (shape.mem_branch_of_only hl father only (hosts_named host)) h host

variable {g : Graph}

theorem Graph.Shape.tagged (shape : Shape tag ∅ g) (hl : p ∈ g.node k) :
    ∀ id ∈ g.ids p, ∃ path, id = path ++ [tag p] := by
  intro id has
  rcases shape.sound k p id hl has with ⟨-, rfl⟩ | ⟨-, f', -, path, -, hs⟩
  · exact ⟨[], rfl⟩
  · exact ⟨path, hs⟩

/-- A branch without hosts takes no subscriber with it, unless its father does. -/
theorem Graph.subscribers_detach {t : Fragment} (hd : ∀ f ∈ g.fathers p, f ≠ p)
    (he : ∀ r, ∀ id ∈ g.branch f t, ∀ h, h ∉ g.hosts r p id)
    (elsewhere : ∀ h id, h ∈ g.hosts .subscriber f id → (∃ f' ∈ g.fathers p, f' ≠ f ∧ ∃ id', h ∈
      g.hosts .subscriber f' id') ∨ ∃ id', h ∈ g.hosts .subscriber p id') :
    (g.detach k p f t).subscribers p = g.subscribers p := by
  have own : ∀ h id, h ∈ g.hosts .subscriber p id → h ∈ (g.detach k p f t).hosts .subscriber p id :=
    fun h id host => ⟨fun hg => he _ id hg.2 h host, host⟩
  have fathers : ∀ f' ∈ g.fathers p, f' ≠ f → f' ∈ (g.detach k p f t).fathers p :=
    fun f' father other => ⟨fun hg => other hg.2, father⟩
  have hosts : ∀ f' ∈ g.fathers p, ∀ h id, h ∈ g.hosts .subscriber f' id →
      h ∈ (g.detach k p f t).hosts .subscriber f' id :=
    fun f' father h id host => ⟨fun hg => hd f' father hg.1, host⟩
  ext h
  constructor
  · rintro (⟨id, host⟩ | ⟨f', father, id, host⟩)
    · exact .inl ⟨id, host.2⟩
    · exact .inr ⟨f', father.2, id, host.2⟩
  · rintro (⟨id, host⟩ | ⟨f', father, id, host⟩)
    · exact .inl ⟨id, own h id host⟩
    · by_cases hs : f' = f
      · rcases elsewhere h id (hs ▸ host) with ⟨f2, father2, other, id', host'⟩ | ⟨id', host'⟩
        · exact .inr ⟨f2, fathers f2 father2 other, id', hosts f2 father2 h id' host'⟩
        · exact .inl ⟨id', own h id' host'⟩
      · exact .inr ⟨f', fathers f' father hs, id, hosts f' father h id host⟩

/-- If an unsubscription is not stale, the match told before the branch went is still right. -/
theorem Graph.quiet_of_not_stale {pub : Ptr} {pre : ID} {pkts : List Out}
    (shape : Shape tag ∅ g) (hl : pub ∈ g.node .item)
    (hn : ∀ r i x, x ∈ g.hosts r pub i → i ∈ g.ids pub)
    (found : g.index .item (pre ++ id) = some pub) (hf : g.index .scope pre = some f)
    (hp : h ∈ g.hosts .subscriber pub (pre ++ id)) (father : f ∈ g.fathers pub)
    (second : ∃ f' ∈ g.fathers pub, f' ≠ f) {g2 : Graph}
    (told : g2 = (g.unregister .item .subscriber pub (pre ++ id) h).send pkts)
    (he : ∀ r, ∀ i ∈ g.branch f (tag pub), ∀ x, x ∉ g2.hosts r pub i)
    (calm : ¬ g.StaleUnsubscription h id pre (g.strategy f)) :
    ¬ g2.Channel pub ∨ (∀ x, x ∉ g2.publishers pub) ∨
      (g2.detach .item pub f (tag pub)).subscribers pub = g2.subscribers pub := by
  subst told
  by_contra! loud
  obtain ⟨chan, ⟨publisher, i0, published⟩, hc⟩ := loud
  have hd : ∀ f' ∈ g.fathers pub, f' ≠ pub :=
    fun f' isFather hs => shape.toLinks.item_not_father hl (hs ▸ isFather)
  have last : ∀ r t, ∀ i ∈ g.branch f t, ∀ x ∈ g.hosts r pub i,
      r = .subscriber ∧ i = pre ++ id ∧ x = h := by
    rintro r t i ⟨path, paths, rfl⟩ x host
    obtain ⟨rfl, -⟩ := shape.father_of_append hl (hn r _ x host)
    by_contra still
    refine he r _ ⟨path, paths, rfl⟩ x ⟨?_, host⟩
    rintro ⟨isSubscriber, -, hs, isHost⟩
    exact still ⟨isSubscriber, hs, isHost⟩
  refine calm ⟨pub, f, found, hf, rfl, hp, chan, ⟨publisher, i0, published.2⟩,
    father, second, last, ?_⟩
  by_contra! none
  refine hc (subscribers_detach hd he fun x i host => ?_)
  by_contra! nowhere
  obtain ⟨i', own, still⟩ := none x ⟨i, host.2⟩ fun f' isFather other i' host' =>
    nowhere.1 f' isFather other i' ⟨fun hs => hd f' isFather hs.2.1, host'⟩
  refine nowhere.2 i' ⟨?_, own⟩
  rintro ⟨-, -, hs, isHost⟩
  exact still hs isHost

end

section

variable [IterationOrder]

/-- Root scopes read before an item lost identifiers still tell whether it is under known ones. -/
theorem getRootScopes_agrees (sane : Sane pol (graph s)) (hf : s.heap p = some n)
    (fewer : ∀ id ∈ (graph s1).ids p, id ∈ (graph s).ids p) (hn : ∃ id, id ∈ (graph s1).ids p) :
    (∃ root, root ∈ n.getRootScopes ∅) ∧ ∀ root ∈ n.getRootScopes ∅, ∃ id : ID,
      rootFragment id = root ∧ (pol.mixed ∨ (KnownRoot id ↔ (graph s1).Covered p)) := by
  obtain ⟨id1, has1⟩ := hn
  have hl : p ∈ (graph s).node n.kind := (mem_node hf).mpr rfl
  refine ⟨⟨rootFragment id1, mem_getRootScopes.mpr (.inl
    ⟨id1, (mem_ids hf).mp (fewer id1 has1), rfl⟩)⟩, fun root hm => ?_⟩
  rcases mem_getRootScopes.mp hm with ⟨id, has, rfl⟩ | he
  · refine ⟨id, rfl, sane.unmixed.imp_right fun unmixed => ?_⟩
    have hs := fun id' has' => unmixed n.kind p id id' hl ((mem_ids hf).mpr has) (fewer id' has')
    constructor
    · exact fun hk => ⟨id1, has1, (hs id1 has1).mp hk⟩
    · rintro ⟨id', has', hk⟩
      exact (hs id' has').mpr hk
  · exact absurd he (not_mem_empty root)

/-- The rendezvous after a removal, with root scopes read before it. -/
theorem rendezvousAgain_spec (sane : Sane pol (graph s)) (hl : p ∈ (graph s).node .item)
    {roots : HashSet ID} (inhabited : ∃ root, root ∈ roots)
    (agrees : ∀ root ∈ roots, ∃ id : ID, rootFragment id = root ∧
      (pol.mixed ∨ (KnownRoot id ↔ (graph s).Covered p))) (upd : Bool) :
    wp (rendezvousAgain roots p upd) (fun _ s' =>
      (∃ pkts, graph s' = (graph s).send pkts) ∧ ∀ d,
        Steps pol (d ∪ { x | x = p ∧ ¬ (graph s).Covered x }) (graph s) d (graph s')) fault s := by
  obtain ⟨tag, shape⟩ := sane.inv
  simp only [rendezvousAgain, wp_bind]
  refine firstIsKnown_spec inhabited fun root hm known test => ?_
  obtain ⟨id, rfl, agree⟩ := agrees root hm
  rw [wp_ite]
  constructor
  · refine fun hk => ⟨⟨[], (send_nil _).symm⟩, fun d => ?_⟩
    rcases agree with mixed | hs
    · refine ((refl _ _).tail (.settle {p} fun x _ => .inl mixed)).forget ?_
      rintro x ⟨hi | ⟨rfl, -⟩, hd⟩
      · exact hi
      · exact absurd rfl hd
    · refine (refl _ _).forget ?_
      rintro x (hi | ⟨rfl, ho⟩)
      · exact hi
      · exact absurd (hs.mp (test.mp hk)) ho
  · intro _
    refine wp_post (rendezvousAll_spec shape hl upd) ?_
    rintro _ s' ⟨pkts, told, hr⟩
    refine ⟨⟨pkts, hr⟩, fun d => ?_⟩
    rw [hr]
    refine (reported told).forget ?_
    rintro x ⟨hi | ⟨rfl, ho⟩, settled⟩
    · exact hi
    · exact absurd (settled rfl) ho

end

section

variable [IterationOrder]

/-- What `unpublish_info` does once the publisher is off the item. -/
theorem unpublished_spec (sane : Sane pol (graph s)) (hf : s.heap p = some n)
    (shape : Graph.Shape tag ∅ (graph s1)) (sane1 : Sane pol (graph s1)) (ht : pol.target p)
    (hl : p ∈ (graph s1).node .item) (ids : (graph s1).ids p = (graph s).ids p)
    (scope : f ∈ (graph s1).node .scope) (stray : f ∉ (graph s1).fathers p → pol.loose)
    (upd : Bool) : wp (deref p >>= fun item => checkForOtherPubSub p f >>= fun others =>
        if item.fatherScopes.size = 1 then
          if others then rendezvousAgain (n.getRootScopes ∅) p upd
          else deleteUnder .item p f
        else do
          let _ ← if others then pure () else deleteBranch .item p f
          rendezvousAgain (n.getRootScopes ∅) p upd)
      (fun _ s' => ∀ d, Steps pol (d ∪ { x | x = p ∧ ¬ (graph s1).Covered x }) (graph s1) d
        (graph s')) (Stops pol.loose short) s1 := by
  have leaf : ∀ q, p ∉ (graph s1).fathers q := fun q => shape.toLinks.item_not_father hl
  have fewer : ∀ id ∈ (graph s1).ids p, id ∈ (graph s).ids p := fun id has => ids ▸ has
  have agrees := getRootScopes_agrees sane hf fewer (shape.named _ _ hl)
  refine deref_bind hl fun item foundItem _ => ?_
  rw [wp_bind]
  refine checkForOtherPubSub_spec shape hl scope stray fun father others test => ?_
  have he : ¬ others = true → ∀ r, ∀ id ∈ (graph s1).branch f (tag p), ∀ h,
      h ∉ (graph s1).hosts r p id := fun no r id hi h host => no (test.mpr ⟨r, id, hi, h, host⟩)
  simp only [wp_ite, wp_bind]
  rw [only_father foundItem father]
  refine ⟨fun only => ⟨fun _ => ?_, fun no => ?_⟩, fun hs => ⟨fun _ => ?_, fun no => ?_⟩⟩
  · exact wp_post (rendezvousAgain_spec sane1 hl agrees.1 agrees.2 upd) fun _ s' ha => ha.2
  · refine wp_post (deleteUnder_spec hl scope) fun _ s' hr d => ?_
    have hg := Step.removeOnly (d := d ∪ { x | x = p ∧ ¬ (graph s1).Covered x }) shape ht
      hl leaf father only (he no)
    rw [hr]
    refine (((refl _ _).tail hg).tail (.settle {p} ?_)).forget ?_
    · rintro x rfl
      exact .inr (.inl fun all => all.1 rfl)
    · rintro x ⟨hi | ⟨rfl, -⟩, hd⟩
      · exact hi
      · exact absurd rfl hd
  · exact wp_post (rendezvousAgain_spec sane1 hl agrees.1 agrees.2 upd) fun _ s' ha => ha.2
  · refine wp_post (deleteBranch_spec shape hl father) fun _ s2 hr => ?_
    push Not at hs
    obtain ⟨f', father', other⟩ := hs
    have detached : ∀ d, Steps pol d (graph s1)
        (d ∪ { x | Kind.item = .item ∧ x = p ∧ ¬ (graph s1).Covered x }) (graph s2) := fun d =>
      hr ▸ (refl _ _).tail (.detach ht hl leaf father father' other (shape.tagged hl) (he no))
    have sane2 := sane1.steps (detached ∅)
    obtain ⟨tag2, shape2⟩ := sane2.inv
    have hl2 : p ∈ (graph s2).node .item := hr ▸ hl
    have fewer2 : ∀ id ∈ (graph s2).ids p, id ∈ (graph s1).ids p := by
      rw [hr]
      exact fun id has => has.2
    have agrees2 := getRootScopes_agrees sane hf (fun id has => fewer id (fewer2 id has))
      (shape2.named _ _ hl2)
    refine wp_post (rendezvousAgain_spec sane2 hl2 agrees2.1 agrees2.2 upd) ?_
    rintro _ s' ⟨-, ha⟩ d
    refine ((detached _).forget ?_).trans (ha d)
    have ho : ¬ (graph s1).Covered p → ¬ (graph s2).Covered p := by
      rintro uncovered ⟨id, has, hk⟩
      exact uncovered ⟨id, fewer2 id has, hk⟩
    rintro x ((hi | ⟨rfl, uncovered⟩) | ⟨-, rfl, uncovered⟩)
    · exact .inl hi
    · exact .inr ⟨rfl, ho uncovered⟩
    · exact .inr ⟨rfl, ho uncovered⟩

variable {id pre : ID} {strat : Strategy}

omit [IterationOrder] in
/-- A father scope is missing, or is not one of the item's, only if the request does not address the
item. -/
theorem lookup_spec (sane : Sane pol (graph s))
    (ha : pol.loose ∨ (graph s).ItemAddressed r h id pre strat)
    {body : Ptr → Ptr → RV RvReturnCode} {post : RvReturnCode → LocalRV → Prop}
    (absent : (graph s).index .item (pre ++ id) = none → post .infoDoesNotExist s)
    (mismatch : ∀ f, (graph s).index .scope pre = some f → (graph s).strategy f ≠ strat →
      post .strategyMismatch s)
    (goOn : ∀ pub f, (graph s).index .item (pre ++ id) = some pub → (graph s).index .scope
      pre = some f → (graph s).strategy f = strat → (h ∈ (graph s).hosts r pub (pre ++
      id) → f ∉ (graph s).fathers pub → pol.loose) → wp (body pub f) post (Stops pol.loose short) s)
    : wp (do
      let found ← Program.read (·.pubIndex.get (pre ++ id))
      let fatherScope ← Program.read (·.scopeIndex.get pre)
      match found with
      | none => pure .infoDoesNotExist
      | some pub =>
        let father ← Program.expect .missing fatherScope
        let fatherNode ← deref father
        if fatherNode.strategy = strat then body pub father else pure .strategyMismatch)
      post (Stops pol.loose short) s := by
  obtain ⟨tag, shape⟩ := sane.inv
  refine wp_lookup .item (pre ++ id) absent fun pub found => ?_
  rw [wp_bind]
  change wp (expect _ ((graph s).index .scope pre)) _ _ s
  cases hf : (graph s).index .scope pre with
  | none =>
    refine ha.resolve_right fun ha => ?_
    obtain ⟨f, isFather, -⟩ := ha pub found
    rw [hf] at isFather
    cases isFather
  | some f =>
    obtain ⟨scope, -⟩ := shape.indexed hf
    rw [wp_expect_some]
    refine deref_bind scope fun fatherNode hh _ => ?_
    rw [wp_ite, ← strategy_eq hh]
    refine ⟨fun hs => goOn pub f found hf hs fun hp notFather => ?_, mismatch f hf⟩
    refine ha.resolve_right fun ha => ?_
    obtain ⟨f', isFather, father⟩ := ha pub found
    obtain rfl := some_inj.mp (hf.symm.trans isFather)
    exact notFather (father hs hp)

/-- Only the publisher at that identifier goes, if the father has the strategy asked for. -/
theorem unpublishInfo_spec (sane : Sane pol (graph s))
    (ha : pol.loose ∨ (graph s).ItemAddressed .publisher h id pre strat)
    (upd : Bool) : wp (unpublishInfo h id pre strat upd) (fun _ s' =>
        Withdraws pol (fun q => (graph s).index .item (pre ++ id) = some q) (· = h) s s' ∧
        ∀ pub, (graph s).Addresses pub id pre strat →
          h ∉ (graph s').hosts .publisher pub (pre ++ id)) (Stops pol.loose short) s := by
  obtain ⟨tag, shape⟩ := sane.inv
  refine lookup_spec sane ha ?_ ?_ ?_
  · exact fun absent => ⟨.refl s, fun pub names => by cases absent.symm.trans names.1⟩
  · rintro f father hd
    refine ⟨.refl s, fun pub ⟨_, f', hf', hs⟩ => ?_⟩
    obtain rfl := some_inj.mp (father.symm.trans hf')
    exact absurd hs hd
  · intro pub f found hf _ stray
    obtain ⟨hl, has⟩ := shape.indexed found
    obtain ⟨scope, -⟩ := shape.indexed hf
    have owner : ∀ {pub'}, (graph s).Addresses pub' id pre strat → pub' = pub :=
      fun names => some_inj.mp (names.1.symm.trans found)
    rw [found]
    refine deref_bind hl fun item hh _ => unregister_spec hl has ?_ ?_
    · exact fun absent => ⟨.refl s, fun pub' names => owner names ▸ absent⟩
    intro hp s1 hr
    let within := pol.within (fun q => some pub = some q) (· = h)
    have left : ∀ d, Steps within d (graph s)
        (d ∪ { x ∈ (graph s).affected .item .publisher pub | ¬ (graph s).Covered x })
        (graph s1) := fun d =>
      hr ▸ (refl _ _).tail (.unregister rfl rfl hl hp)
    have sane' : Sane within (graph s) := ⟨sane.inv, sane.unmixed, sane.childrenLive⟩
    have sane1 := sane'.steps (left ∅)
    have shape1 := shape.hosted hr
    have ids1 : (graph s1).ids pub = (graph s).ids pub := by rw [hr]; rfl
    refine wp_post (unpublished_spec sane' hh shape1 sane1 rfl (hr ▸ hl)
      ids1 (hr ▸ scope) (hr ▸ stray hp) upd) ?_
    intro _ s' goOn
    have withdraws : Withdraws pol (fun q => some pub = some q) (· = h) s s' := by
      refine fun d => ((left d).forget ?_).trans (goOn d)
      rintro x (hi | ⟨⟨-, ⟨-, rfl⟩ | ⟨isMember, -⟩⟩, uncovered⟩)
      · exact .inl hi
      · refine .inr ⟨rfl, ?_⟩
        rw [Graph.Covered, ids1]
        exact uncovered
      · cases isMember
    refine ⟨withdraws, fun pub' names stored => ?_⟩
    obtain rfl := owner names
    have still := ((goOn ∅).shrinks sane1.inv).fewerHosts _ _ _ _ stored
    rw [hr] at still
    exact still.1 ⟨rfl, rfl, rfl, rfl⟩

/-- The subscribers told before a branch goes are the ones that remain unless its father has
subscribers. -/
theorem unsubscribeInfo_spec (sane : Sane pol (graph s))
    (ha : pol.loose ∨ (graph s).ItemAddressed .subscriber h id pre strat)
    (hq : pol.stale ∨ ¬ (graph s).StaleUnsubscription h id pre strat) (upd : Bool) :
    wp (unsubscribeInfo h id pre strat upd) (fun _ s' =>
        Withdraws pol (fun q => (graph s).index .item (pre ++ id) = some q) (· = h) s s')
      (Stops pol.loose short) s := by
  obtain ⟨tag, shape⟩ := sane.inv
  refine lookup_spec sane ha (fun _ => .refl s) (fun _ _ _ => .refl s) ?_
  intro pub f found hf sameStrategy stray
  obtain ⟨hl, has⟩ := shape.indexed found
  obtain ⟨scope, -⟩ := shape.indexed hf
  rw [found]
  refine unregister_spec hl has (fun _ => .refl s) fun hp s1 hr => ?_
  let within := pol.within (fun q => some pub = some q) (· = h)
  have left : ∀ d, Steps within d (graph s)
      (d ∪ { x ∈ (graph s).affected .item .subscriber pub | ¬ (graph s).Covered x })
      (graph s1) := fun d =>
    hr ▸ (refl _ _).tail (.unregister rfl rfl hl hp)
  have sane1 : Sane within (graph s1) :=
    Sane.steps ⟨sane.inv, sane.unmixed, sane.childrenLive⟩ (left ∅)
  have shape1 := shape.hosted hr
  have hl1 : pub ∈ (graph s1).node .item := hr ▸ hl
  refine deref_bind hl1 fun item hh _ => ?_
  have hs : ∀ id ∈ (graph s1).ids pub, id ∈ (graph s1).ids pub := fun _ has => has
  have agrees := getRootScopes_agrees sane1 hh hs (shape1.named _ _ hl1)
  refine wp_seq (rendezvousAgain_spec sane1 hl1 agrees.1 agrees.2 upd) ?_
  rintro _ s2 ⟨⟨pkts, told⟩, again⟩
  have before : ∀ d, Steps within d (graph s) d (graph s2) := by
    refine fun d => ((left d).forget ?_).trans (again d)
    rintro x (hi | ⟨⟨-, ⟨-, rfl⟩ | ⟨isMember, -⟩⟩, uncovered⟩)
    · exact .inl hi
    · refine .inr ⟨rfl, ?_⟩
      rw [hr]
      exact uncovered
    · cases isMember
  have shape2 := shape1.hosted told
  have hl2 : pub ∈ (graph s2).node .item := told ▸ hl1
  have scope2 : f ∈ (graph s2).node .scope := by rw [told, hr]; exact scope
  have leaf : ∀ q, pub ∉ (graph s2).fathers q := fun q => shape2.toLinks.item_not_father hl2
  have fathers2 : (graph s2).fathers pub = (graph s1).fathers pub := by rw [told]; rfl
  have stray2 : f ∉ (graph s2).fathers pub → pol.loose := by
    rw [told, hr]
    exact stray hp
  rw [wp_bind]
  refine checkForOtherPubSub_spec shape2 hl2 scope2 stray2 fun father others test => ?_
  simp only [wp_ite]
  rw [only_father hh (fathers2 ▸ father), ← fathers2]
  refine ⟨fun _ => before, fun no => ?_⟩
  have he : ∀ r, ∀ i ∈ (graph s2).branch f (tag pub), ∀ x, x ∉ (graph s2).hosts r pub i :=
    fun r i hi x host => no (test.mpr ⟨r, i, hi, x, host⟩)
  refine ⟨fun only => ?_, fun second => ?_⟩
  · refine wp_post (deleteUnder_spec hl2 scope2) fun _ s' hg d => ?_
    rw [hg]
    exact (before d).tail (.removeOnly shape2 rfl hl2 leaf father only he)
  refine wp_post (deleteBranch_spec shape2 hl2 father) fun _ s' hg d => ?_
  push Not at second
  obtain ⟨f', father', other⟩ := second
  rw [hg]
  refine (before d).tail (.detachQuiet rfl hl2 leaf father father' other
    (shape2.tagged hl2) he (hq.imp_right fun calm => ?_))
  rw [told, hr] at father father' he
  exact Graph.quiet_of_not_stale shape hl (fun r i x => hosts_named) found hf hp
    father ⟨f', father', other⟩ (by rw [told, hr]) (by rw [told, hr]; exact he)
    (sameStrategy ▸ calm)

end

section

variable {g g' : Graph} {id pre : ID} {strategy : Strategy} {t : Fragment}

theorem Shrinks.index_of (shrinks : Shrinks target leaver g g') (inv : g.Inv) (inv' : g'.Inv)
    (hf : g'.index k id = some p) : g.index k id = some p := by
  obtain ⟨tag, shape⟩ := inv
  obtain ⟨tag', shape'⟩ := inv'
  obtain ⟨hl, has⟩ := shape'.indexed hf
  exact (shape.index_iff k id p).mpr ⟨shrinks.node k p hl, shrinks.fewerIDs p id has⟩

theorem Shrinks.index_kept (shrinks : Shrinks target leaver g g') (inv : g.Inv) (inv' : g'.Inv)
    (hu : ¬ target p) (hf : g.index k id = some p) : g'.index k id = some p := by
  obtain ⟨tag, shape⟩ := inv
  obtain ⟨tag', shape'⟩ := inv'
  obtain ⟨hl, has⟩ := shape.indexed hf
  exact (shape'.index_iff k id p).mpr ⟨shrinks.alive k p hl hu, shrinks.ids p id hu has⟩

/-- As long as the item has its identifier, a request that names it goes on to do so. -/
theorem Shrinks.addresses (shrinks : Shrinks (· = p) leaver g g') (inv : g.Inv) (inv' : g'.Inv)
    (hl : p ∈ g.node .item) (names : g.Addresses p id pre strategy)
    (hl' : p ∈ g'.node .item) (has' : pre ++ id ∈ g'.ids p) : g'.Addresses p id pre strategy := by
  obtain ⟨-, f, hf, hs⟩ := names
  have scope : f ∈ g.node .scope := by
    obtain ⟨tag, shape⟩ := inv
    exact (shape.indexed hf).1
  have hu : f ≠ p := by
    rintro rfl
    obtain ⟨tag, shape⟩ := inv
    cases shape.one_kind _ _ _ scope hl
  refine ⟨?_, f, shrinks.index_kept inv inv' hu hf, ?_⟩
  · obtain ⟨tag', shape'⟩ := inv'
    exact (shape'.index_iff _ _ _).mpr ⟨hl', has'⟩
  · rw [shrinks.strategy .scope f (shrinks.alive _ f scope hu), hs]

variable [IterationOrder] (sane : Sane pol (graph s)) (hl : p ∈ (graph s).node .item)

include sane hl

/-- Each publisher is still there when its turn comes, so the item is too. -/
theorem sweep_spec (hf : (graph s).index .item (pre ++ [t]) = some p) {body : NodeID → RV Unit}
    (each : ∀ h s1, Sane pol (graph s1) → p ∈ (graph s1).node .item → (∀ id ∈ (graph s1).ids p, id ∈
      (graph s).ids p) → wp (body h) (fun _ s' => Withdraws pol (fun q => (graph s1).index .item
      (pre ++ [t]) = some q) (· = h) s1 s' ∧ ∀ pub, (graph s1).Addresses pub [t] pre
      strategy → h ∉ (graph s').hosts .publisher pub (pre ++ [t])) (Stops pol.loose short)
      s1) : wp (deref p >>= fun item => forM (item.getPublishers ∅).keys body)
      (fun _ s' => Withdraws pol (· = p) (fun _ => True) s s' ∧
        ((graph s).Addresses p [t] pre strategy →
          ∀ h, h ∉ (graph s').hosts .publisher p (pre ++ [t]))) (Stops pol.loose short) s := by
  refine deref_bind hl fun item hh _ => ?_
  have pubs : ∀ h, h ∈ (item.getPublishers ∅).keys ↔ ∃ id, h ∈ (graph s).hosts .publisher p id := by
    intro h
    rw [mem_keys, Node.getPublishers, mem_collect hh]
    simp
  refine wp_post (wp_forM_visited _ _ (fun seen s' => Withdraws pol (· = p) (· ∈ seen) s s' ∧
    ((graph s).Addresses p [t] pre strategy →
      ∀ h ∈ seen, h ∉ (graph s').hosts .publisher p (pre ++ [t]))) ?_ s ?_) ?_
  · rintro seen h rest s1 split ⟨withdraws, hg⟩
    have sane1 := withdraws.sane sane
    have shrinks := withdraws.shrinks sane
    have turn := not_visited split
    obtain ⟨id, host⟩ := (pubs h).mp (mem_of_split split)
    have host1 := shrinks.hosts _ _ _ _ host fun both => turn both.2
    have hl1 : p ∈ (graph s1).node .item := by
      obtain ⟨k, ha⟩ := hosts_live host1
      obtain ⟨tag, shape⟩ := sane.inv
      cases shape.one_kind _ _ _ (shrinks.node k p ha) hl
      exact ha
    refine wp_post (each h s1 sane1 hl1 (shrinks.fewerIDs p)) ?_
    rintro _ s2 ⟨next, hr⟩
    have both : Withdraws pol (· = p) (· ∈ seen ++ [h]) s s2 := by
      refine (withdraws.mono (fun _ hs => hs) fun x before => ?_).trans
        (next.mono (fun q ht => ?_) fun x hs => ?_)
      · exact List.mem_append.mpr (.inl before)
      · exact some_inj.mp ((shrinks.index_of sane.inv sane1.inv ht).symm.trans hf)
      · exact List.mem_append.mpr (.inr (List.mem_singleton.mpr hs))
    refine ⟨both, fun names x hm still => ?_⟩
    have stayed := (next.shrinks sane1).fewerHosts _ _ _ _ still
    rcases List.mem_append.mp hm with before | hs
    · exact hg names x before stayed
    · rw [List.mem_singleton.mp hs] at still
      exact hr p (shrinks.addresses sane.inv sane1.inv hl names hl1 (hosts_named stayed)) still
  · exact ⟨.refl s, fun _ h none => absurd none List.not_mem_nil⟩
  · rintro _ s' ⟨withdraws, hg⟩
    refine ⟨withdraws.mono (fun _ hs => hs) fun _ _ => trivial, fun names h still => ?_⟩
    have host := (withdraws.shrinks sane).fewerHosts _ _ _ _ still
    exact hg names h ((pubs h).mpr ⟨_, host⟩) still

theorem unpublishAll_spec (strat : Strategy)
    (hf : (graph s).index .item (pre ++ [t]) = some p) (upd : Bool) :
    wp (unpublishAll p [t] pre strat upd)
      (fun _ s' => Withdraws pol (· = p) (fun _ => True) s s' ∧
        ((graph s).Addresses p [t] pre strat →
          ∀ h, h ∉ (graph s').hosts .publisher p (pre ++ [t]))) (Stops pol.loose short) s := by
  refine sweep_spec sane hl hf fun h s1 sane1 _ _ => ?_
  rw [wp_bind]
  exact unpublishInfo_spec sane1 (.inr (sane1.inv.itemAddressed _ h t pre strat)) upd

theorem unpublishAllUnder_spec (shape : Graph.Shape tag ∅ (graph s)) (strat : Strategy)
    (hf : (graph s).index .item (pre ++ [tag p]) = some p) (upd : Bool) :
    wp (unpublishAllUnder p pre strat upd)
      (fun _ s' => Withdraws pol (· = p) (fun _ => True) s s' ∧
        ((graph s).Addresses p [tag p] pre strat →
          ∀ h, h ∉ (graph s').hosts .publisher p (pre ++ [tag p])))
      (Stops pol.loose short) s := by
  refine sweep_spec sane hl hf fun h s1 sane1 hl1 fewer => ?_
  obtain ⟨tag1, shape1⟩ := sane1.inv
  refine deref_bind hl1 fun item hh _ => ?_
  rw [wp_bind]
  refine firstID_of_ids hh (shape1.named _ _ hl1) fun first has => ?_
  rw [shape.lastFragment_eq hl (fewer first has), wp_bind]
  exact unpublishInfo_spec sane1 (.inr (sane1.inv.itemAddressed _ h _ pre strat)) upd

end

end Blackadder.Rendezvous
