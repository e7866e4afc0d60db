import Blackadder.Rendezvous.OneShot

namespace Blackadder.Rendezvous

open Program List HashTable

variable [IterationOrder] {pol : Policy} {s₀ s s1 : LocalRV} {sc : Ptr} {h : NodeID}
  {path : ID} {tag : Ptr → Fragment} {strat : Strategy} {short : Prop}

/-- Every subscope is told to the new subscriber. A deleted subscope would be missed here. -/
theorem notifySubscopes_spec (sane : Sane pol (graph s)) (hl : sc ∈ (graph s).node .scope) :
    wp (notifySubscopes h sc) (fun _ s' => ∃ pkts, (∀ o ∈ pkts, o.about = none) ∧
      graph s' = (graph s).send pkts) (Stops pol.loose short) s := by
  simp only [notifySubscopes]
  refine deref_bind hl fun n hf _ => ?_
  refine wp_forM _ _ (fun s' => ∃ pkts, (∀ o ∈ pkts, o.about = none) ∧
    graph s' = (graph s).send pkts) ?_ s ⟨[], by simp, (send_nil _).symm⟩
  rintro child hm s1 ⟨pkts, hs, ht⟩
  have isChild : child ∈ (graph s1).children .scope sc := by
    rw [ht]
    exact (mem_children hf).mpr (mem_keys.mp hm)
  rw [wp_bind]
  cases heap : s1.heap child with
  | none =>
    have dead : child ∉ (graph s).node .scope := by
      have hg : child ∉ (graph s1).node .scope := by simp [graph, heap]
      rw [ht] at hg
      exact hg
    simp only [deref, wp_bind, wp_read, heap]
    rw [ht] at isChild
    exact sane.childrenLive.resolve_right fun alive => dead (alive child sc isChild)
  | some node =>
    refine deref_spec ((mem_node heap).mpr rfl) fun _ _ _ => ?_
    refine wp_post (notifySubscribers_spec _ _ _ _) ?_
    rintro _ s2 ⟨more, hs2, ht2⟩
    refine ⟨pkts ++ more, fun o hm => ?_, by rw [ht2, ht, send_send]⟩
    rcases mem_append.mp hm with first | second
    · exact hs o first
    · exact hs2 o second

/-- The items whose match depends on the subscribers of a scope. -/
def Graph.items (g : Graph) (sc : Ptr) : Set Ptr := { x | x ∈ g.node .item ∧ sc ∈ g.fathers x }

/-- All publishers of the items under the scope are registered under its identifier `path`. -/
def Graph.PublishedUnder (g : Graph) (sc : Ptr) (path : ID) : Prop :=
  ∀ x ∈ g.items sc, ∀ i h, h ∈ g.hosts .publisher x i → ∃ t, i = path ++ [t]

/-- What the item loops of the scope subscriptions have done after the items `visited`. -/
structure Matched (pol : Policy) (sc : Ptr) (visited : List Ptr) (s₀ s : LocalRV) : Prop where
  withdraws : Withdraws pol (· ∈ visited) (fun _ => True) s₀ s
  steps : ∀ d, Steps pol (d ∪ (graph s₀).items sc) (graph s₀)
    (d ∪ { x ∈ (graph s₀).items sc | x ∉ visited }) (graph s)

omit [IterationOrder] in
theorem Matched.start (pol : Policy) (sc : Ptr) (s₀ : LocalRV) : Matched pol sc [] s₀ s₀ := by
  refine ⟨.refl s₀, fun d => (Steps.refl _ _).forget ?_⟩
  rintro x (hi | hm)
  · exact .inl hi
  · exact .inr ⟨hm, not_mem_nil⟩

variable {subs : HashSet NodeID}

/-- One turn of the item loops. -/
theorem matchSubscribed_spec (hu : pol.Unbounded) (sane : Sane pol (graph s₀))
    (shape : Graph.Shape tag ∅ (graph s₀)) {seen : List Ptr} {pub : Ptr}
    (isChild : pub ∈ (graph s₀).children .item sc) (turn : pub ∉ seen)
    (items : ∀ x ∈ seen, x ∈ (graph s₀).node .item) (hp : path ∈ (graph s₀).ids sc)
    (same : (graph s₀).strategy sc = strat) {known : Bool}
    (test : pol.mixed ∨ (known = true ↔ KnownRoot path))
    (once : KnownRoot path → pol.mixed ∨ pol.lasting ∨ (graph s₀).OnlyAt pub (path ++ [tag pub]))
    (hm : Matched pol sc seen s₀ s) (cur : ∀ h, h ∈ subs ↔ h ∈ (graph s).subscribers pub)
    (upd : Bool) : wp (matchSubscribed known pub subs path strat upd)
      (fun _ s' => Matched pol sc (seen ++ [pub]) s₀ s') (Stops pol.loose short) s := by
  have sane1 := hm.withdraws.sane sane
  have hs := hm.withdraws.shrinks sane
  have ⟨tag1, shape1⟩ := sane1.inv
  have hl := shape.items_live pub sc isChild
  have father := (shape.children_known _ _ pub sc isChild hl).2
  have scope := shape.live_of_child _ _ _ isChild
  have apart : sc ∉ seen := fun member => by
    cases shape.one_kind _ _ _ scope (items sc member)
  have has := shape.complete _ pub sc path hl (Set.notMem_empty pub) father hp
  have hl1 := hs.alive _ pub hl turn
  have has1 := hs.ids pub _ turn has
  have sameTag : tag pub = tag1 pub := (shape1.father_of_append hl1 has1).1
  have hf1 : (graph s).index .item (path ++ [tag1 pub]) = some pub :=
    sameTag ▸ (shape1.index_iff _ _ _).mpr ⟨hl1, has1⟩
  have scope1 := hs.alive _ sc scope apart
  have names : (graph s).Addresses pub [tag1 pub] path strat := by
    refine ⟨hf1, sc, (shape1.index_iff _ _ _).mpr ⟨scope1, hs.ids sc path apart hp⟩, ?_⟩
    rw [hs.strategy _ sc scope1, same]
  -- the item lies under a known root scope just as the scope does
  have hc : pol.mixed ∨ (KnownRoot path ↔ (graph s).Covered pub) := by
    have prefixed : KnownRoot (path ++ [tag pub]) ↔ KnownRoot path :=
      knownRoot_append _ (shape.ne_nil scope hp)
    refine sane1.unmixed.imp_right fun unmixed => ⟨fun hk => ?_, ?_⟩
    · exact ⟨_, has1, prefixed.mpr hk⟩
    · rintro ⟨id, hasID, hk⟩
      exact prefixed.mp ((unmixed _ pub _ _ hl1 has1 hasID).mpr hk)
  refine wp_post (matchOnce_spec hu sane1 hl1 cur ?_ (path ++ [tag1 pub]) ?_ ?_ upd) ?_
  · rcases test with mixed | test
    · exact .inl mixed
    · exact hc.imp_right test.trans
  · intro s2 pkts hr sane2
    have shape2 := shape1.hosted hr
    refine wp_post (unpublishAllUnder_spec sane2 (hr ▸ hl1) shape2 strat
      (by rw [hr]; exact hf1) upd) ?_
    exact fun _ s' both => ⟨both.1, both.2 (by rw [hr]; exact names)⟩
  · intro isCovered
    rcases hc with mixed | hc
    · exact .inl mixed
    · refine (once (hc.mpr isCovered)).imp_right (Or.imp_right fun only i x host => ?_)
      rw [only i x (hs.fewerHosts _ _ _ _ host), sameTag]
  · rintro _ s' ⟨withdraws, steps⟩
    refine ⟨?_, fun d => ?_⟩
    · refine Withdraws.trans (hm.withdraws.mono (fun q before => ?_) fun _ same => same)
        (withdraws.mono (fun q isPub => ?_) fun _ same => same)
      · exact mem_append.mpr (.inl before)
      · exact mem_append.mpr (.inr (mem_singleton.mpr isPub))
    refine ((hm.steps d).forget ?_).trans (steps _)
    rintro x (hi | ⟨member, unvisited⟩)
    · exact .inl (.inl hi)
    · by_cases isPub : x = pub
      · exact .inr isPub
      · refine .inl (.inr ⟨member, fun ha => ?_⟩)
        rcases mem_append.mp ha with before | last
        · exact unvisited before
        · exact isPub (mem_singleton.mp last)

/-- The situation in which a scope subscription goes through the items of the scope. -/
structure Subscribed (pol : Policy) (sc : Ptr) (path : ID) (strategy : Strategy)
    (s₀ : LocalRV) : Prop where
  sane : Sane pol (graph s₀)
  live : sc ∈ (graph s₀).node .scope
  hasPath : path ∈ (graph s₀).ids sc
  same : (graph s₀).strategy sc = strategy
  once : KnownRoot path → pol.mixed ∨ pol.lasting ∨ (graph s₀).PublishedUnder sc path

namespace Subscribed

variable (subscribed : Subscribed pol sc path strat s₀) {n : Node} (heap : s₀.heap sc = some n)

include subscribed heap

variable {seen rest : List Ptr} {pub : Ptr} {known : Bool}

/-- The item `pub` after the items `visited` in either loop. -/
theorem turn_spec (hu : pol.Unbounded) (split : n.informationitems.keys = seen ++ pub :: rest)
    (test : pol.mixed ∨ (known = true ↔ KnownRoot path)) (hm : Matched pol sc seen s₀ s)
    (cur : ∀ h, h ∈ subs ↔ h ∈ (graph s).subscribers pub) (upd : Bool) :
    wp (matchSubscribed known pub subs path strat upd)
      (fun _ s' => Matched pol sc (seen ++ [pub]) s₀ s') (Stops pol.loose short) s := by
  have ⟨tag, shape⟩ := subscribed.sane.inv
  have hl : ∀ x ∈ n.informationitems.keys, x ∈ (graph s₀).children .item sc :=
    fun x member => (mem_children heap).mpr (mem_keys.mp member)
  have turn := not_visited split
  have listedPub := hl pub (mem_of_split split)
  have livePub := shape.items_live pub sc listedPub
  refine matchSubscribed_spec hu subscribed.sane shape listedPub turn ?_
    subscribed.hasPath subscribed.same test (fun hk => ?_) hm cur upd
  · intro x before
    exact shape.items_live x sc (hl x (by rw [split]; simp [before]))
  refine (subscribed.once hk).imp_right (Or.imp_right fun only i x host => ?_)
  obtain ⟨t, rfl⟩ := only pub ⟨livePub, (shape.children_known _ _ pub sc listedPub livePub).2⟩ i x
    host
  rw [(shape.father_of_append livePub (hosts_named host)).1]

omit [IterationOrder] in
theorem alive (split : n.informationitems.keys = seen ++ pub :: rest)
    (hm : Matched pol sc seen s₀ s) : pub ∈ (graph s).node .item ∧
      ∀ id ∈ (graph s).ids pub, pol.mixed ∨ (KnownRoot id ↔ KnownRoot path) := by
  have ⟨tag, shape⟩ := subscribed.sane.inv
  have isChild : pub ∈ (graph s₀).children .item sc := (mem_children heap).mpr (mem_of_split split)
  have turn := not_visited split
  have hl := shape.items_live pub sc isChild
  have father := (shape.children_known _ _ pub sc isChild hl).2
  have has := shape.complete _ pub sc path hl (Set.notMem_empty pub) father subscribed.hasPath
  have hs := hm.withdraws.shrinks subscribed.sane
  refine ⟨hs.alive _ pub hl turn, fun id hasID => ?_⟩
  refine subscribed.sane.unmixed.imp_right fun unmixed => ?_
  rw [unmixed _ pub id _ hl (hs.fewerIDs pub id hasID) has]
  exact knownRoot_append _ (shape.ne_nil subscribed.live subscribed.hasPath)

omit [IterationOrder] in
theorem done (hm : Matched pol sc n.informationitems.keys s₀ s) (d : Set Ptr) :
    Steps pol (d ∪ (graph s₀).items sc) (graph s₀) d (graph s) := by
  have ⟨tag, shape⟩ := subscribed.sane.inv
  refine (hm.steps d).forget ?_
  rintro x (hi | ⟨⟨hl, father⟩, unvisited⟩)
  · exact hi
  · refine absurd (HashTable.mem_keys.mpr ?_) unvisited
    exact (mem_children heap).mp (shape.fathers_live _ x sc hl father).2

/-- All root scopes collected so far lie on the same side as the scope itself. -/
theorem matchSubscribedItems_spec (hu : pol.Unbounded) (upd : Bool)
    (split : n.informationitems.keys = seen ++ rest) {roots : HashSet ID}
    (side : ∀ root ∈ roots, ∃ id : ID, rootFragment id = root ∧ (pol.mixed ∨ (KnownRoot id ↔
      KnownRoot path))) (hm : Matched pol sc seen s₀ s) :
    wp (matchSubscribedItems roots path strat upd rest)
      (fun _ => Matched pol sc n.informationitems.keys s₀) (Stops pol.loose short) s := by
  induction rest generalizing seen roots s with
  | nil =>
    rw [append_nil] at split
    rw [split]
    exact hm
  | cons pub rest ih =>
    obtain ⟨hl, sameSide⟩ := subscribed.alive heap split hm
    have ⟨tag1, shape1⟩ := (hm.withdraws.sane subscribed.sane).inv
    simp only [matchSubscribedItems, wp_bind]
    refine allSubscribers_spec shape1 hl fun subs cur => ?_
    refine deref_spec hl fun item hh _ => ?_
    have side' : ∀ root ∈ item.getRootScopes roots, ∃ id : ID, rootFragment id = root ∧
        (pol.mixed ∨ (KnownRoot id ↔ KnownRoot path)) := by
      intro root member
      rcases mem_getRootScopes.mp member with ⟨id, has, rfl⟩ | before
      · exact ⟨id, rfl, sameSide id ((mem_ids hh).mpr has)⟩
      · exact side root before
    have inhabited : ∃ root, root ∈ item.getRootScopes roots := by
      obtain ⟨id, has⟩ := shape1.named _ pub hl
      exact ⟨_, mem_getRootScopes.mpr (.inl ⟨id, (mem_ids hh).mp has, rfl⟩)⟩
    refine firstIsKnown_spec inhabited fun root member known hk => ?_
    obtain ⟨id, rfl, agrees⟩ := side' root member
    refine wp_post (subscribed.turn_spec heap hu split (agrees.imp_right hk.trans)
      hm cur upd) fun _ s' hm' => ?_
    exact ih (by rw [split, append_assoc]; rfl) side' hm'

theorem matchRootItems_spec (hu : pol.Unbounded) (test : known = true ↔ KnownRoot path)
    (upd : Bool) : wp (forM n.informationitems.keys fun pub => allSubscribers pub >>= fun subs =>
        matchSubscribed known pub subs path strat upd)
      (fun _ => Matched pol sc n.informationitems.keys s₀) (Stops pol.loose short) s₀ := by
  refine wp_forM_visited _ _ (fun seen s' => Matched pol sc seen s₀ s') ?_ s₀ (.start pol sc s₀)
  intro seen pub rest s split hm
  obtain ⟨hl, -⟩ := subscribed.alive heap split hm
  have ⟨tag1, shape1⟩ := (hm.withdraws.sane subscribed.sane).inv
  rw [wp_bind]
  refine allSubscribers_spec shape1 hl fun subs cur => ?_
  exact subscribed.turn_spec heap hu split (.inr test) hm cur upd

end Subscribed

/-- What both scope subscriptions do for a scope that exists. -/
theorem subscribedScope_spec {g : Graph} (sane : Sane pol (graph s))
    (hr : graph s = g.register .scope .subscriber sc path h) (hl : sc ∈ g.node .scope)
    (hp : path ∈ g.ids sc) (same : g.strategy sc = strat)
    (once : KnownRoot path → pol.mixed ∨ pol.lasting ∨ g.PublishedUnder sc path)
    {body : Node → RV Unit} (loop : ∀ s1 n, Subscribed pol sc path strat s1 → s1.heap sc = some n →
      wp (body n) (fun _ => Matched pol sc n.informationitems.keys s1) (Stops pol.loose short) s1) :
    wp (notifySubscopes h sc >>= fun _ => deref sc >>= body)
      (fun _ s' => ∀ d, Steps pol (d ∪ g.affected .scope .subscriber sc) (graph s) d (graph s'))
      (Stops pol.loose short) s := by
  refine wp_seq (notifySubscopes_spec sane (hr ▸ hl)) ?_
  rintro _ s1 ⟨pkts, hs, ht⟩
  have tell : Settles pol s s1 := .told hs ht
  have subscribed : Subscribed pol sc path strat s1 := by
    refine ⟨sane.steps (tell ∅), ?_, ?_, ?_, fun hk => ?_⟩
    · rw [ht, hr]
      exact hl
    · rw [ht, hr]
      exact hp
    · rw [ht, hr]
      exact same
    · rw [ht, hr]
      refine (once hk).imp_right (Or.imp_right fun only x member i y host => ?_)
      rcases host with ⟨hi, -⟩ | host
      · cases hi
      · exact only x member i y host
  refine deref_bind subscribed.live fun n heap _ => ?_
  refine wp_post (loop s1 n subscribed heap) fun _ s' hm d => ?_
  refine ((tell _).forget ?_).trans (subscribed.done heap hm d)
  rw [ht, hr]
  rintro x (inside | ⟨item, ⟨hi, -⟩ | ⟨-, -, father⟩⟩)
  · exact .inl inside
  · cases hi
  · exact .inr ⟨item, father⟩

variable {t : Fragment} {pre : ID}
variable (hu : pol.Unbounded) (sane : Sane pol (graph s)) (hk : h ∈ (graph s).known)

include hu sane hk

theorem subscribeRootScope_spec
    (once : ∀ sc, (graph s).index .scope [t] = some sc → KnownRoot [t] → pol.mixed ∨ pol.lasting ∨
      (graph s).PublishedUnder sc [t]) (upd : Bool) :
    Handles pol short s (subscribeRootScope h [t] strat upd) := by
  have ⟨tag, shape⟩ := sane.inv
  refine enterRootScope_spec hu sane hk fun sc s1 hf same hr sane1 => ?_
  obtain ⟨hl, has⟩ := shape.indexed hf
  refine subscribedScope_spec sane1 hr hl has same (once sc hf) fun s2 n subscribed heap => ?_
  refine subscribed.matchRootItems_spec heap hu ?_ upd
  rw [decide_eq_true_iff, mem_knownRootScopes]
  rfl

theorem subscribeInnerScope_spec {fuel : Nat} (he : short ∨ 0 < fuel)
    (once : ∀ sc, (graph s).index .scope (pre ++ [t]) = some sc → KnownRoot (pre ++ [t]) →
      pol.mixed ∨ pol.lasting ∨ (graph s).PublishedUnder sc (pre ++ [t])) (upd : Bool) :
    Handles pol short s (subscribeInnerScope fuel h [t] pre strat upd) := by
  have ⟨tag, shape⟩ := sane.inv
  refine enterInnerScope_spec hu sane hk he fun sc s1 hf same hr sane1 => ?_
  obtain ⟨hl, has⟩ := shape.indexed hf
  refine subscribedScope_spec sane1 hr hl has same (once sc hf) fun s2 n subscribed heap => ?_
  exact subscribed.matchSubscribedItems_spec heap hu upd (nil_append _).symm
    (fun root empty => absurd empty (not_mem_empty root)) (.start pol sc s2)

theorem subscribeInfo_spec
    (once : ∀ pub, (graph s).index .item (pre ++ [t]) = some pub → (graph s).Covered pub →
      pol.mixed ∨ pol.lasting ∨ (graph s).OnlyAt pub (pre ++ [t])) (upd : Bool) :
    Handles pol short s (enterInfo .subscriber h [t] pre strat (fun _ _ => pure ())
        (fun pub => do
          let subs ← allSubscribers pub
          let item ← deref pub
          let known ← firstIsKnown (item.getRootScopes ∅)
          rendezvous pub subs upd
          if known then unpublishAll pub [t] pre strat upd else pure ())) := by
  have ⟨tag, shape⟩ := sane.inv
  refine enterInfo_spec hu sane hk ?_ ?_
  · -- a new item has no publisher
    intro f s1 _ _ _ hr _ d
    refine ((Steps.refl _ _).tail (.settle {(graph s).next} ?_)).forget ?_
    · rintro x rfl
      refine .inr (.inr (.inl ?_))
      rw [hr]
      rintro y ⟨i, ⟨hi, -⟩ | host⟩
      · cases hi
      · obtain ⟨k, hl⟩ := hosts_live host
        exact shape.next_dead k hl
    · rintro x ⟨inside | same, hd⟩
      · exact inside
      · exact absurd same hd
  · intro f pub s1 found same hf hr sane1
    obtain ⟨hl, has⟩ := shape.indexed hf
    have shape1 := shape.hosted hr
    have hl1 : pub ∈ (graph s1).node .item := hr ▸ hl
    rw [wp_bind]
    refine allSubscribers_spec shape1 hl1 fun subs cur => ?_
    refine deref_bind hl1 fun item hh _ => ?_
    rw [wp_bind]
    refine rootsKnown_spec shape1 hh fun id hasID known test => ?_
    refine wp_post (matchOnce_spec hu sane1 hl1 cur ?_ (pre ++ [t]) ?_ ?_
      upd) fun _ s' both => both.2
    · refine sane1.unmixed.imp_right fun unmixed => test.trans ⟨fun hk => ⟨id, hasID, hk⟩, ?_⟩
      rintro ⟨id', hasID', hk⟩
      exact (unmixed _ pub id' id hl1 hasID' hasID).mp hk
    · intro s2 pkts ht sane2
      refine wp_post (unpublishAll_spec sane2 (ht ▸ hl1) strat
        (by rw [ht, hr]; exact hf) upd) fun _ s' both => ⟨both.1, both.2 ?_⟩
      rw [ht, hr]
      exact ⟨hf, f, found, same⟩
    · rw [hr]
      refine fun hc => (once pub hf hc).imp_right (Or.imp_right fun only i x host => ?_)
      rcases host with ⟨hi, -⟩ | host
      · cases hi
      · exact only i x host

end Blackadder.Rendezvous
