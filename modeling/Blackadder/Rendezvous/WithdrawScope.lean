import Blackadder.Rendezvous.Withdraw

namespace Blackadder.Rendezvous

open Program HashTable Rendezvous.Graph Steps

/-- A request that may delete a scope names one of its fathers, or deletes a root scope. -/
def Graph.ScopeAddressed (g : Graph) (r : Role) (h : NodeID) (id prefixID : ID)
    (strategy : Strategy) : Prop :=
  ∀ sc, g.index .scope (prefixID ++ id) = some sc → g.strategy sc = strategy →
    h ∈ g.hosts r sc (prefixID ++ id) → (∀ c, c ∉ g.children .scope sc) →
    (r = .subscriber → ∀ x, x ∉ g.children .item sc) →
    (∃ f ∈ g.fathers sc, g.index .scope prefixID = some f) ∨
      (g.index .scope prefixID = none ∧ (sc ∈ g.root ∨
        ∃ r' i x, x ∈ g.hosts r' sc i ∧ ¬ (r' = r ∧ i = prefixID ++ id ∧ x = h)))

variable {pol : Policy} {d : Set Ptr} {s s1 s2 : LocalRV} {sc f : Ptr} {k : Kind} {r : Role}
  {h : NodeID} {tag : Ptr → Fragment} {short : Prop} {id pre : ID} {strategy : Strategy}

section

variable {g g' : Graph} {target : Ptr → Prop} {leaver : NodeID → Prop}

theorem Graph.ScopeAddressed.shrink (ha : g.ScopeAddressed .publisher h id pre strategy)
    (hs : Shrinks target leaver g g') (items : ∀ q, target q → q ∈ g.node .item)
    (inv : g.Inv) (inv' : g'.Inv) (all : g.ChildrenLive) :
    g'.ScopeAddressed .publisher h id pre strategy := by
  intro sc hf' same' hp' none' _
  have found := hs.index_of inv inv' hf'
  have ⟨tag, shape⟩ := inv
  have ⟨tag', shape'⟩ := inv'
  have isScope : ∀ {q}, q ∈ g.node .scope → ¬ target q := fun hl ht => by
    cases shape.one_kind _ _ _ hl (items _ ht)
  have hl := (shape.indexed found).1
  have hl' := (shape'.indexed hf').1
  have none : ∀ c, c ∉ g.children .scope sc := by
    intro c isChild
    have liveChild := all c sc isChild
    have father := (shape.children_known _ _ c sc isChild liveChild).2
    exact none' c (shape'.fathers_live _ c sc (hs.alive _ c liveChild (isScope liveChild))
      (hs.fathers c sc (isScope liveChild) father)).2
  rcases ha sc found ((hs.strategy _ sc hl').symm.trans same')
    (hs.fewerHosts _ _ _ _ hp') none nofun with
    ⟨f, father, hf⟩ | ⟨absent, rest⟩
  · have scope := (shape.indexed hf).1
    exact .inl ⟨f, hs.fathers sc f (isScope hl) father, hs.index_kept inv inv' (isScope scope) hf⟩
  refine .inr ⟨?_, rest.imp (hs.root sc (isScope hl)).mpr ?_⟩
  · cases hf0 : g'.index .scope pre with
    | none => rfl
    | some f => rw [hs.index_of inv inv' hf0] at absent; cases absent
  · rintro ⟨r', i, x, host, other⟩
    exact ⟨r', i, x, hs.hosts r' sc i x host fun both => isScope hl both.1, other⟩

variable (ha : pol.loose ∨ g.ScopeAddressed r h id pre strategy)
  (found : g.index .scope (pre ++ id) = some sc) (same : g.strategy sc = strategy)
  (hp : h ∈ g.hosts r sc (pre ++ id)) (none : ∀ k c, c ∉ g.children k sc)

include ha found same hp none

theorem stray_of_addressed (hf : g.index .scope pre = some f)
    (notFather : f ∉ g.fathers sc) : pol.loose := by
  refine ha.resolve_right fun ha => ?_
  rcases ha sc found same hp (none .scope) (fun _ => none .item) with
    ⟨f', father, isFather⟩ | ⟨absent, -⟩
  · obtain rfl := Option.some_inj.mp (hf.symm.trans isFather)
    exact notFather father
  · rw [hf] at absent
    cases absent

theorem rooted_of_addressed (absent : g.index .scope pre = Option.none)
    (he : ∀ r' i x, x ∉ (g.unregister .scope r sc (pre ++ id) h).hosts r' sc i) :
    pol.loose ∨ sc ∈ g.root := by
  refine ha.imp_right fun ha => ?_
  rcases ha sc found same hp (none .scope) (fun _ => none .item) with
    ⟨f', -, hf⟩ | ⟨-, root | ⟨r', i, x, host, other⟩⟩
  · rw [absent] at hf
    cases hf
  · exact root
  · refine absurd ⟨?_, host⟩ (he r' i x)
    rintro ⟨isRole, -, isID, isHost⟩
    exact other ⟨isRole, isID, isHost⟩

end

variable {fault : Fault → Prop} {g : Graph}

section

theorem Graph.Links.childless (links : Links g) (none : ∀ k c, c ∉ g.children k sc) :
    ∀ q, sc ∉ g.fathers q := by
  intro q father
  obtain ⟨k, hl⟩ := links.live_of_father q sc father
  exact none k q (links.fathers_live k q sc hl father).2

theorem children_empty_iff {n : Node} (found : s.heap sc = some n) :
    (n.childrenScopes.size = 0 ∧ n.informationitems.size = 0) ↔
      ∀ k c, c ∉ (graph s).children k sc := by
  simp only [mem_children found, size_eq_zero]
  constructor
  · rintro ⟨noScopes, noItems⟩ k c
    cases k
    · exact noScopes c
    · exact noItems c
  · exact fun none => ⟨none .scope, none .item⟩

theorem withdrawRootScope_spec (shape : Shape tag ∅ (graph s)) (ht : pol.target sc)
    (hl : sc ∈ (graph s).node .scope)
    (rooted : (∀ k c, c ∉ (graph s).children k sc) → (∀ r i x, x ∉ (graph s).hosts r sc i) →
      pol.loose ∨ sc ∈ (graph s).root) :
    wp (withdrawRootScope sc) (fun _ => Settles pol s) fault s := by
  simp only [withdrawRootScope]
  refine deref_bind hl fun n found _ => ?_
  rw [wp_ite, children_empty_iff found]
  refine ⟨fun none => ?_, fun _ => .refl s⟩
  rw [wp_bind]
  refine checkRootForOtherPubSub_spec hl fun others test => ?_
  rw [wp_ite]
  refine ⟨fun _ => .refl s, fun no => ?_⟩
  have he : ∀ r i x, x ∉ (graph s).hosts r sc i := fun r i x host => no (test.mpr ⟨r, i, x, host⟩)
  refine wp_post (deleteNode_remove hl) fun _ s' hg d => ?_
  rw [hg]
  refine (refl _ _).tail (.remove ht hl (shape.toLinks.childless none)
    Kind.noConfusion ((rooted none he).imp_right fun root f father => ?_) he)
  exact absurd father (shape.root_top sc f root)

variable [IterationOrder]

theorem withdrawScope_spec (shape : Shape tag ∅ (graph s)) (targeted : pol.target sc)
    (hl : sc ∈ (graph s).node .scope) (scope : f ∈ (graph s).node .scope)
    (stored : (∀ k c, c ∉ (graph s).children k sc) → f ∉ (graph s).fathers sc → pol.loose)
    (fullID : ID) : Handles pol short s (withdrawScope sc f fullID) := by
  simp only [withdrawScope]
  refine deref_bind hl fun n found _ => ?_
  rw [wp_ite, children_empty_iff found]
  refine ⟨fun none => ?_, fun _ => .refl s⟩
  rw [wp_bind]
  refine checkForOtherPubSub_spec shape hl scope (stored none) fun father others test => ?_
  rw [wp_ite]
  refine ⟨fun _ => .refl s, fun no => ?_⟩
  have he : ∀ r, ∀ i ∈ (graph s).branch f (tag sc), ∀ x, x ∉ (graph s).hosts r sc i :=
    fun r i hi x host => no (test.mpr ⟨r, i, hi, x, host⟩)
  refine deref_bind scope fun fatherNode _ _ => ?_
  rw [wp_ite, only_father found father]
  -- in both cases the subscribers of the father are told first
  refine ⟨fun only => ?_, fun hs => ?_⟩ <;> rw [wp_bind] <;>
    refine wp_post (notifySubscribers_spec _ _ _ _) ?_ <;>
    rintro _ s1 ⟨pkts, silent, ht⟩
  all_goals
    have tell : Settles pol s s1 := .told silent ht
    have shape1 := shape.hosted ht
    have hl1 : sc ∈ (graph s1).node .scope := ht ▸ hl
    have childless : ∀ q, sc ∉ (graph s1).fathers q := ht ▸ shape.toLinks.childless none
    have father1 : f ∈ (graph s1).fathers sc := ht ▸ father
    have he1 : ∀ r, ∀ i ∈ (graph s1).branch f (tag sc), ∀ x, x ∉ (graph s1).hosts r sc i := ht ▸ he
  · refine wp_post (deleteUnder_spec hl1 (ht ▸ scope)) fun _ s' hg d => ?_
    rw [hg]
    exact (tell d).tail (.removeOnly shape1 targeted hl1 childless father1 (ht ▸ only) he1)
  · refine wp_post (deleteBranch_spec shape1 hl1 father1) fun _ s' hg d => ?_
    push Not at hs
    obtain ⟨f', father', other⟩ := hs
    rw [hg]
    refine ((tell d).tail (.detach targeted hl1 childless father1 (ht ▸ father') other
      (shape1.tagged hl1) he1)).forget ?_
    rintro x (hi | ⟨isMember, -⟩)
    · exact hi
    · cases isMember

end

section

variable [IterationOrder]

/-- The items of a scope are unpublished under every identifier of the scope. -/
theorem unpublishInformationItems_spec (sane : Sane pol (graph s))
    (hl : sc ∈ (graph s).node .scope) (strat : Strategy) (upd : Bool) :
    wp (unpublishInformationItems h sc strat upd)
      (fun _ s' => Withdraws pol (· ∈ (graph s).children .item sc) (· = h) s s')
      (Stops pol.loose short) s := by
  obtain ⟨tag, shape⟩ := sane.inv
  simp only [unpublishInformationItems]
  refine deref_bind hl fun scope heapScope _ => ?_
  refine wp_post (wp_forM_visited _ _ (fun seen s' =>
    Withdraws pol (· ∈ seen) (· = h) s s') ?_ s (.refl s)) ?_
  · intro seen pub rest s1 split withdraws
    have isChild : pub ∈ (graph s).children .item sc :=
      (mem_children heapScope).mpr (mem_of_split split)
    have liveItem := shape.items_live pub sc isChild
    have father := (shape.children_known _ _ pub sc isChild liveItem).2
    have turn := not_visited split
    have hs := withdraws.shrinks sane
    have hl1 := hs.alive _ pub liveItem turn
    obtain ⟨tag1, shape1⟩ := (withdraws.sane sane).inv
    refine deref_bind hl1 fun item hh _ => ?_
    rw [wp_bind]
    refine firstID_of_ids hh (shape1.named _ _ hl1) fun first has => ?_
    rw [shape.lastFragment_eq liveItem (hs.fewerIDs pub first has)]
    refine wp_forM _ _ (fun s' => Withdraws pol (· ∈ seen ++ [pub]) (· = h) s s') ?_ s1
      (withdraws.mono (fun q before => List.mem_append.mpr (.inl before)) fun _ same => same)
    intro path hm s2 withdraws2
    have sane2 := withdraws2.sane sane
    refine wp_seq (unpublishInfo_spec sane2
      (.inr (sane2.inv.itemAddressed _ h _ path strat)) upd) ?_
    rintro _ s3 ⟨next, -⟩
    refine withdraws2.trans (next.mono (fun q found => ?_) fun _ same => same)
    obtain ⟨liveQ, hasQ⟩ := shape.indexed
      ((withdraws2.shrinks sane).index_of sane.inv sane2.inv found)
    have hasPub := shape.complete _ pub sc path liveItem (Set.notMem_empty pub) father
      ((keys_spec heapScope).mp hm)
    exact List.mem_append.mpr (.inr (List.mem_singleton.mpr
      (shape.owner liveQ liveItem hasQ hasPub)))
  · intro _ s' withdraws
    refine withdraws.mono (fun q hm => ?_) fun _ same => same
    exact (mem_children heapScope).mpr (mem_keys.mp hm)

theorem unpublishScope_spec (hu : pol.Unbounded) (sane : Sane pol (graph s))
    (ha : pol.loose ∨ (graph s).ScopeAddressed .publisher h id pre strategy)
    (upd : Bool) : Handles pol short s (unpublishScope h id pre strategy upd) := by
  have ⟨tag, shape⟩ := sane.inv
  refine wp_lookup .scope (pre ++ id) (fun _ => .refl s) fun sc found => ?_
  obtain ⟨hl, has⟩ := shape.indexed found
  refine deref_bind hl fun scope heapScope _ => ?_
  rw [wp_ite]
  refine ⟨fun sameStrategy => ?_, fun _ => .refl s⟩
  refine wp_seq (unpublishInformationItems_spec sane hl strategy upd) ?_
  intro _ s1 withdraws
  have sane1 := withdraws.sane sane
  have hs := withdraws.shrinks sane
  have items : ∀ q, q ∈ (graph s).children .item sc → q ∈ (graph s).node .item :=
    fun q isChild => shape.items_live q sc isChild
  have isScope : ∀ {q}, q ∈ (graph s).node .scope → q ∉ (graph s).children .item sc :=
    fun all isChild => by cases shape.one_kind _ _ _ all (items _ isChild)
  have ha1 : pol.loose ∨ (graph s1).ScopeAddressed .publisher h id pre strategy := by
    rcases ha with loose | ha
    · exact .inl loose
    · exact sane.childrenLive.imp_right fun all =>
        ha.shrink hs items sane.inv sane1.inv all
  have hf1 := hs.index_kept sane.inv sane1.inv (isScope hl) found
  have hl1 := hs.alive _ sc hl (isScope hl)
  have same1 : (graph s1).strategy sc = strategy := by
    rw [hs.strategy _ sc hl1, strategy_eq heapScope, sameStrategy]
  have ⟨tag1, shape1⟩ := sane1.inv
  have left : h ∈ (graph s1).hosts .publisher sc (pre ++ id) → ∀ {s2},
      graph s2 = (graph s1).unregister .scope .publisher sc (pre ++ id) h → Settles pol s s2 := by
    intro hp s2 hr d
    rw [hr]
    refine ((withdraws.steps hu d).tail (.unregister (hu.2.1 sc) (hu.2.2 h) hl1 hp)).forget ?_
    rintro x (hi | ⟨⟨-, ⟨isMember, -⟩ | ⟨-, isMember, -⟩⟩, -⟩)
    · exact hi
    · cases isMember
    · cases isMember
  refine wp_lookup_present .scope pre (fun hf => ?_) fun f hf => ?_
  · have absent1 : (graph s1).index .scope pre = none := by
      cases again : (graph s1).index .scope pre with
      | none => rfl
      | some f => cases hf.symm.trans (hs.index_of sane.inv sane1.inv again)
    refine unregister_spec hl1 (hs.ids sc _ (isScope hl) has)
      (fun _ => withdraws.steps hu) fun hp s2 hr => ?_
    have shape2 := shape1.hosted hr
    refine wp_post (withdrawRootScope_spec shape2 (hu.2.1 sc) (hr ▸ hl1) ?_)
      fun _ s' last d => (left hp hr d).trans (last d)
    rw [hr]
    exact fun none => rooted_of_addressed ha1 hf1 same1 hp none absent1
  · have scope := (shape.indexed hf).1
    refine unregister_spec hl1 (hs.ids sc _ (isScope hl) has)
      (fun _ => withdraws.steps hu) fun hp s2 hr => ?_
    have shape2 := shape1.hosted hr
    refine wp_post (withdrawScope_spec shape2 (hu.2.1 sc) (hr ▸ hl1)
      (hr ▸ hs.alive _ f scope (isScope scope)) ?_ _) fun _ s' last d =>
      (left hp hr d).trans (last d)
    rw [hr]
    change (∀ k c, c ∉ (graph s1).children k sc) → f ∉ (graph s1).fathers sc → pol.loose
    exact fun none => stray_of_addressed ha1 hf1 same1 hp none
      (hs.index_kept sane.inv sane1.inv (isScope scope) hf)

end

section

/-- The items directly under a scope that are not under a known root scope. -/
def Graph.channels (g : Graph) (sc : Ptr) : Set Ptr :=
  { x | x ∈ g.node .item ∧ sc ∈ g.fathers x ∧ ¬ g.Covered x }

/-- An item under a scope with an identifier under a known root scope has one too. -/
theorem Graph.Shape.covered_of_father (shape : Shape tag ∅ g) {x : Ptr} (hl : x ∈ g.node .item)
    (father : sc ∈ g.fathers x) {path : ID} (has : path ∈ g.ids sc) (hk : KnownRoot path) :
    g.Covered x := by
  have scope := (shape.fathers_live _ x sc hl father).1
  exact ⟨_, shape.complete _ x sc path hl (Set.notMem_empty x) father has,
    (knownRoot_append _ (shape.ne_nil scope has)).mpr hk⟩

variable [IterationOrder]

/-- The match of every item under the scope is told, unless the root scope is known. -/
theorem rendezvousUnder_spec (pol : Policy) (shape : Shape tag ∅ (graph s))
    (hl : sc ∈ (graph s).node .scope) {known : Bool}
    (hc : known = true → ∀ x, x ∉ (graph s).channels sc) (upd : Bool) :
    wp (rendezvousUnder known sc upd) (fun _ s' =>
      (∃ pkts, graph s' = (graph s).send pkts) ∧
        ∀ d, Steps pol (d ∪ (graph s).channels sc) (graph s) d (graph s')) fault s := by
  simp only [rendezvousUnder]
  refine deref_bind hl fun n found _ => ?_
  rw [wp_ite]
  constructor
  · refine fun hk => ⟨⟨[], (send_nil _).symm⟩, fun d => (refl _ _).forget ?_⟩
    rintro x (hi | chan)
    · exact hi
    · exact absurd chan (hc hk x)
  · intro _
    refine wp_post (wp_forM_visited _ _ (fun seen s' =>
      (∃ pkts, graph s' = (graph s).send pkts) ∧ ∀ d, Steps pol (d ∪ (graph s).channels sc)
        (graph s) (d ∪ { x ∈ (graph s).channels sc | x ∉ seen }) (graph s')) ?_ s ?_) ?_
    · rintro seen pub rest s1 split ⟨⟨pkts, ht⟩, steps⟩
      have isChild : pub ∈ (graph s).children .item sc :=
        (mem_children found).mpr (mem_of_split split)
      have shape1 := shape.hosted ht
      have hl1 : pub ∈ (graph s1).node .item := ht ▸ shape.items_live pub sc isChild
      refine wp_post (rendezvousAll_spec shape1 hl1 upd) ?_
      rintro _ s2 ⟨more, reports, hr⟩
      refine ⟨⟨pkts ++ more, by rw [hr, ht, send_send]⟩, fun d => ?_⟩
      rw [hr]
      refine ((steps d).trans (reported reports)).forget ?_
      rintro x ⟨hi | ⟨chan, unvisited⟩, hs⟩
      · exact .inl hi
      · refine .inr ⟨chan, fun hm => ?_⟩
        rcases List.mem_append.mp hm with before | same
        · exact unvisited before
        obtain rfl := List.mem_singleton.mp same
        have isCovered := hs rfl
        rw [ht] at isCovered
        exact chan.2.2 isCovered
    · refine ⟨⟨[], (send_nil _).symm⟩, fun d => (refl _ _).forget ?_⟩
      rintro x (hi | chan)
      · exact .inl hi
      · exact .inr ⟨chan, List.not_mem_nil⟩
    · rintro _ s' ⟨sent, steps⟩
      refine ⟨sent, fun d => (steps d).forget ?_⟩
      rintro x (hi | ⟨chan, unvisited⟩)
      · exact hi
      · refine absurd (mem_keys.mpr ?_) unvisited
        exact (mem_children found).mp (shape.fathers_live _ x sc chan.1 chan.2.1).2

theorem unsubscribeScope_spec (hu : pol.Unbounded) (sane : Sane pol (graph s))
    (ha : pol.loose ∨ (graph s).ScopeAddressed .subscriber h id pre strategy)
    (upd : Bool) : Handles pol short s (unsubscribeScope h id pre strategy upd) := by
  have ⟨tag, shape⟩ := sane.inv
  refine wp_lookup .scope (pre ++ id) (fun _ => .refl s) fun sc found => ?_
  obtain ⟨hl, has⟩ := shape.indexed found
  refine deref_bind hl fun scope heapScope _ => ?_
  rw [wp_ite]
  refine ⟨fun sameStrategy => ?_, fun _ => .refl s⟩
  have same : (graph s).strategy sc = strategy := by rw [strategy_eq heapScope, sameStrategy]
  -- the subscriber leaves and the items under the scope are matched again
  have agrees : h ∈ (graph s).hosts .subscriber sc (pre ++ id) → ∀ {s1 : LocalRV}
      {known : Bool}, graph s1 = (graph s).unregister .scope .subscriber sc (pre ++ id) h →
      (known = true → KnownRoot (pre ++ id)) → wp (rendezvousUnder known sc upd) (fun _ s2 =>
        (∃ pkts, graph s2 = ((graph s).unregister .scope .subscriber sc
          (pre ++ id) h).send pkts) ∧ Settles pol s s2)
        (Stops pol.loose short) s1 := by
    intro hp s1 known hr hk
    have shape1 := shape.hosted hr
    refine wp_post (rendezvousUnder_spec pol shape1 (hr ▸ hl) ?_ upd) ?_
    · rw [hr]
      exact fun test x chan => chan.2.2 (shape.covered_of_father chan.1 chan.2.1 has (hk test))
    rintro _ s2 ⟨⟨pkts, ht⟩, steps⟩
    refine ⟨⟨pkts, by rw [ht, hr]⟩, fun d => ?_⟩
    rw [hr] at steps
    refine (((refl d _).tail (.unregister (hu.2.1 sc) (hu.2.2 h) hl hp)).forget ?_).trans (steps d)
    rintro x (hi | ⟨⟨item, ⟨isMember, -⟩ | ⟨-, -, father⟩⟩, uncovered⟩)
    · exact .inl hi
    · cases isMember
    · exact .inr ⟨item, father, uncovered⟩
  refine wp_lookup_present .scope pre (fun hf => ?_) fun f hf => ?_
  · refine unregister_spec hl has (fun _ => .refl s) fun hp s1 hr => ?_
    refine wp_seq (agrees hp hr ?_) ?_
    · intro test
      rw [decide_eq_true_iff, mem_knownRootScopes] at test
      rcases test with http | ip
      · rw [http]; decide
      · rw [ip]; decide
    · rintro _ s2 ⟨⟨pkts, ht⟩, steps⟩
      have shape2 := shape.hosted ht
      refine wp_post (withdrawRootScope_spec shape2 (hu.2.1 sc) (ht ▸ hl) ?_)
        fun _ s' last d => (steps d).trans (last d)
      rw [ht]
      exact fun none => rooted_of_addressed ha found same hp none hf
  · obtain ⟨isScope, programmed⟩ := shape.indexed hf
    refine unregister_spec hl has (fun _ => .refl s) fun hp s1 hr => ?_
    refine wp_seq (agrees hp hr ?_) ?_
    · intro test
      rw [decide_eq_true_iff, mem_knownRootScopes] at test
      exact (knownRoot_append _ (shape.ne_nil isScope programmed)).mpr test
    rintro _ s2 ⟨⟨pkts, ht⟩, steps⟩
    have shape2 := shape.hosted ht
    refine wp_post (withdrawScope_spec shape2 (hu.2.1 sc) (ht ▸ hl)
      (ht ▸ isScope) ?_ _) fun _ s' last d => (steps d).trans (last d)
    rw [ht]
    change (∀ k c, c ∉ (graph s).children k sc) → f ∉ (graph s).fathers sc → pol.loose
    exact fun none => stray_of_addressed ha found same hp none hf

end

end Blackadder.Rendezvous
