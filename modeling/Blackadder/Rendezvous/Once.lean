import Blackadder.Rendezvous.Sync

namespace Blackadder.Rendezvous

open Program HashTable Option Rendezvous.Graph Strategy Policy Prod

namespace Graph

variable {g g' : Graph} {x p f : Ptr} {d d' : Set Ptr} {k : Kind}

/-- The item has a publisher and a subscriber. -/
def Matchable (g : Graph) (x : Ptr) : Prop :=
  (∃ h, h ∈ g.publishers x) ∧ ∃ h, h ∈ g.subscribers x

/-- All items under known root scopes that are not in `d` wait for one of the two sides. -/
structure OneSided (d : Set Ptr) (g : Graph) : Prop where
  unmixed : g.Unmixed
  dual : g.Dual
  waits : ∀ x ∈ g.node .item, x ∉ d → g.Covered x → ¬ g.Matchable x

theorem Matchable.mono (hm : g'.Matchable x)
    (hosts : ∀ r q id h, h ∈ g'.hosts r q id → h ∈ g.hosts r q id)
    (fathers : ∀ f, f ∈ g'.fathers x → f ∈ g.fathers x) : g.Matchable x := by
  obtain ⟨⟨h, id, pub⟩, h', sub⟩ := hm
  refine ⟨⟨h, id, hosts _ _ _ _ pub⟩, h', ?_⟩
  rcases sub with ⟨id', here⟩ | ⟨f, father, id', ha⟩
  · exact .inl ⟨id', hosts _ _ _ _ here⟩
  · exact .inr ⟨f, fathers f father, id', hosts _ _ _ _ ha⟩

theorem OneSided.frame (oneSided : OneSided d g) (unmixed : g'.Unmixed) (dual : g'.Dual)
    (fewer : ∀ x ∈ g'.node .item, x ∉ d' → g'.Covered x → g'.Matchable x →
      x ∈ g.node .item ∧ x ∉ d ∧ g.Covered x ∧ g.Matchable x) : OneSided d' g' := by
  refine ⟨unmixed, dual, fun x hl hs hc hm => ?_⟩
  obtain ⟨hl0, hs0, hc0, hm0⟩ := fewer x hl hs hc hm
  exact oneSided.waits x hl0 hs0 hc0 hm0

theorem matchable_congr (same : SameMatch g' g x) (hm : g'.Matchable x) : g.Matchable x := by
  rw [Matchable, same.1, same.2] at hm
  exact hm

theorem Covered.mono (hc : g'.Covered x) (ids : g'.ids x ⊆ g.ids x) : g.Covered x := by
  obtain ⟨id, has, hk⟩ := hc
  exact ⟨id, ids has, hk⟩

end Graph

theorem Step.oneSided {pol : Policy} {d d' : Set Ptr} {g g' : Graph} (strict : ¬ pol.mixed)
    (brief : ¬ pol.lasting) (inv : g.Inv) (oneSided : g.OneSided d) (step : Step pol d g d' g') :
    g'.OneSided d' := by
  have unmixed := step.unmixed strict inv oneSided.unmixed
  have dual := step.dual inv oneSided.dual
  have frame : _ → g'.OneSided d' := oneSided.frame unmixed dual
  have ⟨tag, shape⟩ := inv
  cases step with
  | meet | tell => exact ⟨unmixed, dual, oneSided.waits⟩
  | report x ho told =>
    refine frame fun y hl hs hc hm => ?_
    have hd : y ≠ x := fun same => ho (same ▸ hc)
    exact ⟨hl, fun member => hs ⟨member, hd⟩, hc, hm⟩
  | settle xs moot =>
    refine ⟨unmixed, dual, fun x hl hs hc hm => ?_⟩
    by_cases hi : x ∈ xs
    · obtain ⟨⟨h, pub⟩, h', sub⟩ := hm
      rcases moot x hi with mixed | dead | unpublished | ⟨-, lasting | unsubscribed⟩
      · exact strict mixed
      · exact dead hl
      · exact unpublished h pub
      · exact brief lasting
      · exact unsubscribed h' sub
    · exact oneSided.waits x hl (fun member => hs ⟨member, hi⟩) hc hm
  | forget includes =>
    exact ⟨unmixed, dual, fun x hl hs =>
      oneSided.waits x hl fun member => hs (includes member)⟩
  | create =>
    refine frame fun x hl hs hc hm => ?_
    rcases hl with ⟨rfl, rfl⟩ | hl
    · obtain ⟨⟨h, id, pub⟩, -⟩ := hm
      exact absurd (oneSided.dual.named _ _ _ _ pub) (shape.next_unnamed id)
    · have old : x ≠ g.next := fun same => shape.next_dead _ (same ▸ hl)
      exact ⟨hl, hs, hc.mono fun id has => has.resolve_left fun new => old new.1,
        matchable_congr (match_create old) hm⟩
  | register _ node =>
    refine frame fun x hl hs hc hm => ?_
    exact ⟨hl, fun member => hs (.inl member), hc, matchable_congr
      (match_register shape node hl fun member => hs (.inr member)) hm⟩
  | unregister =>
    refine frame fun x hl hs hc hm => ?_
    exact ⟨hl, fun member => hs (.inl member), hc,
      hm.mono (fun _ _ _ _ host => host.2) fun _ father => father⟩
  | link _ _ node _ _ _ grows =>
    refine frame fun x hl hs hc hm => ?_
    have hl0 : x ∈ g.node .item := by
      rw [grows.node] at hl
      exact hl
    -- some identifier of `x` is old, and all of its identifiers are under known root scopes
    obtain ⟨old, hasOld⟩ := shape.named .item x hl0
    obtain ⟨id, has, hk⟩ := hc
    exact ⟨hl0, fun member => hs (.inl member),
      ⟨old, hasOld, (unmixed .item x id old hl has (grows.more x hasOld)).mp hk⟩,
      matchable_congr (match_link shape node grows hl0 fun member => hs (.inr member)) hm⟩
  | remove =>
    refine frame fun x hl hs hc hm => ?_
    exact ⟨hl.2, hs, hc.mono fun _ has => has.2,
      hm.mono (fun _ _ _ _ host => host.2) fun _ father => father.2⟩
  | detach _ _ _ father =>
    refine frame fun x hl hs hc hm => ?_
    exact ⟨hl, fun member => hs (.inl member), hc.mono fun _ has => has.2,
      hm.mono (fun _ _ _ _ host => host.2) fun _ father => father.2⟩
  | detachQuiet _ _ _ father =>
    refine frame fun x hl hs hc hm => ?_
    exact ⟨hl, hs, hc.mono fun _ has => has.2,
      hm.mono (fun _ _ _ _ host => host.2) fun _ father => father.2⟩

/-- A documented request that joins no known root scope with others, and unpublishes every publisher
it matches under one. -/
def Brief (s : LocalRV) : Event → Prop
  | .publishedData request => Documented s (.publishedData request) ∧
      (∀ k e f, (graph s).Joins request k e f → (graph s).SameRoots e f) ∧
      (graph s).MatchedOnce request
  | _ => True

def Policy.brief : Policy := { Policy.all with loose := False, mixed := False, lasting := False }

theorem Policy.brief_unbounded : brief.Unbounded :=
  ⟨trivial, fun _ => trivial, fun _ => trivial⟩

variable {s : LocalRV}

theorem Brief.permits {event : Event} (brief : Brief s event) (inv : (graph s).Inv) (fuel : Nat) :
    Policy.brief.PermitsEvent True fuel (graph s) event := by
  cases event with
  | publishedData =>
    obtain ⟨hd, joins, once⟩ := brief
    exact ⟨.inr (inv.addressed hd.1), .inl trivial, .inr joins, .inl trivial,
      .inr (.inr once), .inl trivial⟩
  | publishedDataISub | unexpected => trivial

theorem brief_oneSided (run : Run Brief s) : Sane brief (graph s) ∧ (graph s).OneSided ∅ := by
  refine run.keeps Graph.OneSided brief_unbounded
    (fun _ _ fuel sane brief => brief.permits sane.inv fuel) (fun _ nid => ?_)
    fun inv oneSided step => step.oneSided id id inv oneSided
  refine ⟨(initial_sane nid Policy.brief).unmixed.resolve_left id, initial_dual nid, ?_⟩
  exact fun x hl => absurd hl (initial_node nid .item x)

/-- No item of the `*`-over-ICN namespaces has a publisher and a subscriber at the same time. -/
theorem published_or_subscribed {s : LocalRV} (run : Run Brief s) {x : Ptr} {n : Node}
    (found : s.heap x = some n) (item : n.kind = .item) (known : ∀ id ∈ n.ids, KnownRoot id) :
    ¬ ((∃ h, h ∈ (graph s).publishers x) ∧ ∃ h, h ∈ (graph s).subscribers x) := by
  obtain ⟨sane, oneSided⟩ := brief_oneSided run
  obtain ⟨tag, shape⟩ := sane.inv
  have hl : x ∈ (graph s).node .item := (mem_node found).mpr item
  obtain ⟨id, has⟩ := shape.named .item x hl
  exact oneSided.waits x hl (Set.notMem_empty x) ⟨id, has, known id ((mem_ids found).mp has)⟩

open Samples

section

/-- A host opens the HTTP root scope, and publishes an item there. -/
def openHttp : Event := ask 20 .publishScope httpRootScope []

def publishHttp : Event := ask 20 .publishInfo (smallID [12]) httpRootScope

/-- Another host asks for the item. -/
def subscribeHttp : Event := ask 21 .subscribeInfo (smallID [12]) httpRootScope

theorem openHttp_brief (s : LocalRV) : Brief s openHttp :=
  ⟨.of_plain (by decide) s, fun _ _ _ joins => absurd joins.2.inner (by decide), trivial⟩

variable {s : LocalRV}

/-- Nobody subscribes to the scope, and the item is new. -/
theorem publishHttp_brief [IterationOrder] {f : Ptr}
    (isScope : s.scopeIndex.get httpRootScope = some f)
    (isNew : s.pubIndex.get (httpRootScope ++ smallID [12]) = none)
    (unsubscribed : (s.heap f).map (fun n => (n.getSubscribers ∅).keys) = some []) :
    Brief s publishHttp := by
  refine ⟨.of_plain (by decide) s, fun _ _ _ joins => absurd joins.2.inner (by decide), ?_⟩
  obtain ⟨n, heap, nobody⟩ := map_eq_some_iff.mp unsubscribed
  intro f' hf _ _
  have same : f' = f := some_inj.mp (Eq.trans (Eq.symm hf) isScope)
  subst same
  refine .inl ⟨fun i h host => ?_, fun e existing => ?_⟩
  · have hm : h ∈ n.getSubscribers ∅ := (mem_collect heap).mpr (.inr ⟨i, host⟩)
    rw [← mem_keys] at hm
    exact List.not_mem_nil (nobody ▸ hm)
  · have unknown : (graph s).index .item (httpRootScope ++ lastFragment (smallID [12])) = none :=
      isNew
    rw [published, unknown, if_neg (by decide)] at existing
    cases existing

/-- The item has one identifier, so its publishers are all there. -/
theorem subscribeHttp_brief {pub : Ptr}
    (hi : s.pubIndex.get (httpRootScope ++ smallID [12]) = some pub)
    (ids : (s.heap pub).map (·.ids.keys) = some [httpRootScope ++ smallID [12]]) :
    Brief s subscribeHttp := by
  refine ⟨.of_plain (by decide) s, fun _ _ _ joins => absurd joins.2.inner (by decide), ?_⟩
  obtain ⟨n, heap, keys⟩ := map_eq_some_iff.mp ids
  intro pub' hf _ i h host
  have same : pub' = pub := some_inj.mp (Eq.trans (Eq.symm hf) hi)
  subst same
  have hm := (keys_spec heap).mpr (hosts_named host)
  exact List.mem_singleton.mp (keys ▸ hm)

theorem published_or_subscribed_http : ∃ (s : LocalRV) (n : Node), Run Brief s ∧
    s.heap 1 = some n ∧ n.kind = .item ∧ (∀ id ∈ n.ids, KnownRoot id) ∧
    smallID [21] ∈ (graph s).subscribers 1 ∧
    ¬ ((∃ h, h ∈ (graph s).publishers 1) ∧ ∃ h, h ∈ (graph s).subscribers 1) := by
  obtain ⟨s1, first, all⟩ := Run.reached (show after [openHttp]
      (fun s => (decide (s.scopeIndex.get httpRootScope = some 0 ∧
          s.pubIndex.get (httpRootScope ++ smallID [12]) = none ∧
          (s.heap 0).map (fun n => (n.getSubscribers ∅).keys) = some []),
        outcome (push 9 publishHttp) (fun s =>
          (decide (s.pubIndex.get (httpRootScope ++ smallID [12]) = some 1 ∧
            (s.heap 1).map (·.ids.keys) = some [httpRootScope ++ smallID [12]]),
          outcome (push 9 subscribeHttp)
            (fun s => (itemView (httpRootScope ++ smallID [12]) s).map fst) s)) s)) =
      .ok (true, .ok (true, .ok (.ok ⟨1, domainLocal, [httpRootScope ++ smallID [12]],
        some (.unicastRequest 1 .matchPubSubs (smallID [20]) [smallID [21]]
          [httpRootScope ++ smallID [12]]), [], [smallID [21]]⟩))) by decide +kernel)
    Brief fun event hm s => List.mem_singleton.mp hm ▸ openHttp_brief s
  obtain ⟨seen1, next⟩ := mk.inj all
  obtain ⟨s2, published, rest⟩ := of_outcome next
  obtain ⟨seen2, next⟩ := mk.inj rest
  obtain ⟨s3, subscribed, seen3⟩ := of_outcome next
  obtain ⟨isScope, isNew, unsubscribed⟩ := of_decide_eq_true seen1
  obtain ⟨hi, ids⟩ := of_decide_eq_true seen2
  have second : Run Brief s2 :=
    .step _ 9 _ first (publishHttp_brief isScope isNew unsubscribed) published
  have run : Run Brief s3 := .step _ 9 _ second (subscribeHttp_brief hi ids) subscribed
  obtain ⟨n, shows⟩ := itemView_spec (brief_oneSided run).1.inv seen3
  have hk : ∀ id ∈ n.ids, KnownRoot id := by
    intro id has
    rw [← mem_keys, shows.ids, List.mem_singleton] at has
    rw [has]
    decide
  exact ⟨s3, n, run, shows.heap, shows.item, hk,
    (shows.subscribers _).mp (List.mem_singleton_self _),
    published_or_subscribed run shows.heap shows.item hk⟩

end

/-- Under the IP root scope a publication that finds a subscriber stays: `getRootScopes` says
`NAMESPACE_UNKNOWN`. -/
theorem advertiseInfo_keeps_ip_publisher : ∃ (s : LocalRV) (n : Node), Run Documented s ∧
    s.heap 1 = some n ∧ n.kind = .item ∧ (∀ id ∈ n.ids, KnownRoot id) ∧
    (∃ h, h ∈ (graph s).publishers 1) ∧ ∃ h, h ∈ (graph s).subscribers 1 := by
  obtain ⟨s, run, seen⟩ := Run.plain (by decide) (show after
        [ask 20 .publishScope ipRootScope [], ask 21 .subscribeScope ipRootScope [],
          ask 20 .publishInfo (smallID [12]) ipRootScope]
        (fun s => (itemView (ipRootScope ++ smallID [12]) s).map fst) =
      .ok (.ok ⟨1, domainLocal, [ipRootScope ++ smallID [12]],
        some (.unicastRequest 1 .matchPubSubs (smallID [20]) [smallID [21]]
          [ipRootScope ++ smallID [12]]), [smallID [20]], [smallID [21]]⟩) by decide +kernel)
  obtain ⟨n, shows⟩ := itemView_spec (documented_sane run).inv seen
  refine ⟨s, n, run, shows.heap, shows.item, fun id has => ?_,
    ⟨_, (shows.publishers _).mp (List.mem_singleton_self _)⟩,
    ⟨_, (shows.subscribers _).mp (List.mem_singleton_self _)⟩⟩
  rw [← mem_keys, shows.ids, List.mem_singleton] at has
  rw [has]
  decide

/-- For a node whose identifiers all start with `root` the two tables agree exactly if `root` is not
the IP root scope, whose namespace is the default value of the table. -/
theorem namespaces_agree_iff {s : LocalRV} (run : Run (fun _ _ => True) s)
    (order : IterationOrder) {x : Ptr} {n : Node} (found : s.heap x = some n)
    {root : ID} (start : ∀ id ∈ n.ids, rootFragment id = root) :
    ∃ ns, getRootNamespace n s = .ok (ns, s) ∧
      ((ns ≠ namespaceUnknown ↔ root ∈ knownRootScopes) ↔ root ≠ ipRootScope) := by
  have walk : wp (getRootNamespace n) (fun ns s' => s' = s ∧
      ((ns ≠ namespaceUnknown ↔ root ∈ knownRootScopes) ↔ root ≠ ipRootScope))
      (fun _ => False) s := by
    refine getRootNamespace_spec (run_sane run).inv found fun id has ns classified => ⟨rfl, ?_⟩
    have hd : httpRootScope ≠ ipRootScope := by decide
    have hn : namespaceHttp ≠ namespaceUnknown := by decide
    rw [start id ((mem_ids found).mp has)] at classified
    rcases classified with ⟨rfl, rfl⟩ | ⟨rfl, notHttp⟩
    · simp [hd, hn]
    · simp [notHttp]
  cases outcome : getRootNamespace n s with
  | error => exact (wp_error walk outcome).elim
  | ok result =>
    obtain ⟨same, ha⟩ := wp_ok walk outcome
    exact ⟨result.1, by rw [← same], ha⟩

/-- An item under the given root scope. -/
def itemUnder (root : ID) : List Event :=
  [ask 20 .publishScope root [], ask 20 .publishInfo (smallID [12]) root]

theorem namespaces_agree_iff_http : ∃ (_ : IterationOrder) (s : LocalRV) (n : Node),
    Run (fun _ _ => True) s ∧ s.heap 1 = some n ∧ n.kind = .item ∧
    (∀ id ∈ n.ids, rootFragment id = httpRootScope) ∧ ∃ ns, getRootNamespace n s = .ok (ns, s) ∧
      (ns ≠ namespaceUnknown ↔ httpRootScope ∈ knownRootScopes) := by
  obtain ⟨s, run, seen⟩ := Run.reached
    (show after (itemUnder httpRootScope) (fun s => (s.heap 1).map fun n => (n.kind, n.ids.keys)) =
      .ok (some (.item, [httpRootScope ++ smallID [12]])) by decide +kernel)
  obtain ⟨n, hf, content⟩ := map_eq_some_iff.mp seen
  obtain ⟨item, ids⟩ := mk.inj content
  have start : ∀ id ∈ n.ids, rootFragment id = httpRootScope := by
    intro id has
    rw [← mem_keys, ids, List.mem_singleton] at has
    rw [has]
    rfl
  obtain ⟨ns, classified, ha⟩ := namespaces_agree_iff run inferInstance hf start
  exact ⟨inferInstance, s, n, run, hf, item, start, ns, classified, ha.mpr (by decide)⟩

/-- The namespace of the IP root scope is 0, as is that of a root scope the table does not have. -/
theorem ip_namespace_unknown : ∃ (_ : IterationOrder) (s : LocalRV) (n : Node),
    Run (fun _ _ => True) s ∧ s.heap 1 = some n ∧ n.kind = .item ∧
    (∀ id ∈ n.ids, rootFragment id = ipRootScope) ∧ ipRootScope ∈ knownRootScopes ∧
    (getRootNamespace n s).map Prod.fst = .ok namespaceUnknown := by
  obtain ⟨s, run, seen⟩ := Run.reached
    (show after (itemUnder ipRootScope) (fun s => (s.heap 1).map fun n => decide (n.kind = .item ∧
          n.ids.keys = [ipRootScope ++ smallID [12]] ∧
          (getRootNamespace n s).map fst = .ok namespaceUnknown)) =
      .ok (some true) by decide +kernel)
  obtain ⟨n, hf, content⟩ := map_eq_some_iff.mp seen
  obtain ⟨item, ids, classified⟩ := of_decide_eq_true content
  refine ⟨inferInstance, s, n, run, hf, item, fun id has =>
    ?_, mem_knownRootScopes.mpr (.inr rfl), classified⟩
  rw [← mem_keys, ids, List.mem_singleton] at has
  rw [has]
  rfl

end Blackadder.Rendezvous
