import Blackadder.Rendezvous.Consistency

namespace Blackadder.Rendezvous

open Program List Rendezvous.Graph Policy Strategy

/-- The last request for a match of the item `x`. -/
def lastAbout (log : List Out) (x : Ptr) : Option Out :=
  (log.filter fun o => o.about = some x).getLast?

variable {x : Ptr} {g : Graph} {s : LocalRV}

theorem lastAbout_silent {log pkts : List Out} (hs : ∀ o ∈ pkts, o.about ≠ some x) :
    lastAbout (log ++ pkts) x = lastAbout log x := by
  have none : (pkts.filter fun o => o.about = some x) = [] := by
    rw [filter_eq_nil_iff]
    intro o hm
    simpa using hs o hm
  rw [lastAbout, filter_append, none, append_nil, lastAbout]

theorem lastAbout_last (before : List Out) {o : Out} (about : o.about = some x) :
    lastAbout (before ++ [o]) x = some o := by
  simp [lastAbout, about]

namespace Graph

variable {g g' : Graph} {x p f : Ptr} {d d' : Set Ptr} {k : Kind} {tag : Ptr → Fragment}

/-- The last request for a match of `x` carries the publishers and subscribers it has now. -/
def Told (g : Graph) (x : Ptr) : Prop :=
  ∃ o, lastAbout g.log x = some o ∧ o.Carries (g.publishers x) (g.subscribers x)

/-- All channels with a publisher that are not in `d` have been told. -/
structure Synced (d : Set Ptr) (g : Graph) : Prop where
  unmixed : g.Unmixed
  dual : g.Dual
  told : ∀ x ∈ g.node .item, x ∉ d → g.Channel x → (∃ h, h ∈ g.publishers x) → g.Told x

theorem Told.congr (ht : g.Told x) (log : g'.log = g.log) (pubs : g'.publishers x = g.publishers x)
    (subs : g'.subscribers x = g.subscribers x) : g'.Told x := by
  rw [Told, log, pubs, subs]
  exact ht

/-- The two graphs have the same hosts for the match of `x`. -/
def SameMatch (g' g : Graph) (x : Ptr) : Prop :=
  g'.publishers x = g.publishers x ∧ g'.subscribers x = g.subscribers x

/-- The match of a node depends on the hosts at the node and at its fathers. -/
theorem match_congr (hosts : ∀ r id, g'.hosts r x id = g.hosts r x id)
    (fathers : g'.fathers x = g.fathers x)
    (ha : ∀ f ∈ g.fathers x, ∀ id, g'.hosts .subscriber f id = g.hosts .subscriber f id) :
    SameMatch g' g x := by
  constructor
  · ext h
    simp [publishers, hosts]
  · ext h
    simp only [subscribers, hosts, fathers]
    refine or_congr_right ⟨?_, ?_⟩
    · rintro ⟨f, father, id, host⟩
      exact ⟨f, father, id, ha f father id ▸ host⟩
    · rintro ⟨f, father, id, host⟩
      exact ⟨f, father, id, (ha f father id).symm ▸ host⟩

theorem Channel.congr (chan : g'.Channel x) (strat : g'.strategy x = g.strategy x)
    (ids : g.ids x ⊆ g'.ids x) : g.Channel x := by
  refine ⟨strat ▸ chan.1, ?_⟩
  rintro ⟨id, has, hk⟩
  exact chan.2 ⟨id, ids has, hk⟩

/-- A change of the graph that leaves the log alone, and every match that is not in `d'`. -/
theorem Synced.frame (synced : Synced d g) (unmixed : g'.Unmixed) (dual : g'.Dual)
    (log : g'.log = g.log)
    (same : ∀ x ∈ g'.node .item, x ∉ d' → g'.Channel x → (∃ h, h ∈ g'.publishers x) →
      x ∈ g.node .item ∧ x ∉ d ∧ g.Channel x ∧ SameMatch g' g x) : Synced d' g' := by
  refine ⟨unmixed, dual, fun x hl hs chan published => ?_⟩
  obtain ⟨hl0, hs0, chan0, pubs, subs⟩ := same x hl hs chan published
  exact (synced.told x hl0 hs0 chan0 (pubs ▸ published)).congr log pubs subs

section

variable {father : Option Ptr} {t : Fragment} {r : Role} {id : ID} {h : NodeID}

theorem match_create {strat : Strategy} (old : x ≠ g.next) :
    SameMatch (g.create k strat father t) g x := by
  refine match_congr (fun _ _ => rfl) ?_ fun _ _ _ => rfl
  simp [create, allocate, addIDs, addNames, enter, old]

section

variable (shape : Shape tag ∅ g) (hl : p ∈ g.node k)

include shape hl

/-- The hosts of the node `p` matter to the items that `p` affects only. -/
theorem match_of_others (item : x ∈ g.node .item) (ho : x ∉ g.affected k r p)
    (fathers : g'.fathers x = g.fathers x)
    (hosts : ∀ r' q id, ¬ (r' = r ∧ q = p) → g'.hosts r' q id = g.hosts r' q id) :
    SameMatch g' g x := by
  refine match_congr (fun r' id => hosts r' x id ?_) fathers fun f father id => hosts _ f id ?_
  · rintro ⟨-, rfl⟩
    exact ho ⟨item, .inl ⟨shape.one_kind _ _ x hl item, rfl⟩⟩
  · rintro ⟨rfl, rfl⟩
    have scope := (shape.fathers_live .item x f item father).1
    exact ho ⟨item, .inr ⟨shape.one_kind _ _ f hl scope, rfl, father⟩⟩

theorem match_register (item : x ∈ g.node .item) (ho : x ∉ g.affected k r p) :
    SameMatch (g.register k r p id h) g x := by
  refine match_of_others shape hl item ho rfl fun r' q id' other => ?_
  ext h'
  simpa [register, addHost, addRecord] using fun hr hq => absurd ⟨hr, hq⟩ other

theorem match_unregister (item : x ∈ g.node .item) (ho : x ∉ g.affected k r p) :
    SameMatch (g.unregister k r p id h) g x := by
  refine match_of_others shape hl item ho rfl fun r' q id' other => ?_
  ext h'
  simpa [unregister, eraseHost, eraseRecord] using fun _ hr hq => absurd ⟨hr, hq⟩ other

theorem match_link (hg : Grows (g.attach k p f) g') (item : x ∈ g.node .item)
    (ho : ¬ (k = .item ∧ x = p)) :
    SameMatch g' g x := by
  have hd : x ≠ p := by
    rintro rfl
    exact ho ⟨shape.one_kind _ _ x hl item, rfl⟩
  have hosts : g'.hosts = g.hosts := by
    rw [hg.frame]
    rfl
  refine match_congr (fun _ _ => by rw [hosts]) ?_ fun _ _ _ => by rw [hosts]
  rw [hg.fathers]
  simp [attach, addFather, addChild, hd]

end

section

variable (hc : ∀ q, p ∉ g.fathers q) (other : x ≠ p)

include hc other

/-- A node that is no father matters to itself only. -/
theorem match_of_leaf
    (same : ∀ q, q ≠ p → (∀ r id, g'.hosts r q id = g.hosts r q id) ∧ g'.fathers q = g.fathers q) :
    SameMatch g' g x := by
  refine match_congr (same x other).1 (same x other).2 fun f father => (same f ?_).1 _
  rintro rfl
  exact hc x father

theorem match_remove :
    SameMatch (g.remove k p father) g x := by
  refine match_of_leaf hc other fun q hd => ⟨fun r id => ?_, ?_⟩ <;>
    simp [remove, free, unindex, drop, eraseChild, hd]

theorem match_detach :
    SameMatch (g.detach k p f t) g x := by
  refine match_of_leaf hc other fun q hd => ⟨fun r id => ?_, ?_⟩ <;>
    simp [detach, removeIDs, unindex, eraseNames, eraseFather, eraseChild, hd]

end

theorem publishers_detach (he : ∀ r, ∀ id ∈ g.branch f t, ∀ h, h ∉ g.hosts r p id) :
    (g.detach k p f t).publishers x = g.publishers x := by
  ext h
  constructor
  · rintro ⟨id, -, host⟩
    exact ⟨id, host⟩
  · rintro ⟨id, host⟩
    refine ⟨id, ?_, host⟩
    rintro ⟨rfl, gone⟩
    exact he .publisher id gone h host

end

end Graph

/-- A branch that goes does not turn an item under a known root scope into a channel. -/
theorem Graph.Unmixed.channel_of_detach {k : Kind} {p f : Ptr} {t : Fragment} (unmixed : g.Unmixed)
    (hl : p ∈ g.node k) (after : (g.detach k p f t).Inv) (chan : (g.detach k p f t).Channel p) :
    g.Channel p := by
  refine ⟨chan.1, ?_⟩
  rintro ⟨id, has, hk⟩
  obtain ⟨tag, shape⟩ := after
  obtain ⟨id', has'⟩ := shape.named k p hl
  exact chan.2 ⟨id', has', (unmixed k p id id' hl has has'.2).mp hk⟩

theorem Step.synced {pol : Policy} {d d' : Set Ptr} {g' : Graph} (strict : ¬ pol.mixed)
    (prompt : ¬ pol.stale) (inv : g.Inv) (synced : g.Synced d) (step : Step pol d g d' g') :
    g'.Synced d' := by
  have unmixed := step.unmixed strict inv synced.unmixed
  have dual := step.dual inv synced.dual
  have frame : g'.log = g.log → _ → g'.Synced d' := synced.frame unmixed dual
  have inv' := step.inv inv
  have ⟨tag, shape⟩ := inv
  cases step with
  | meet h => exact ⟨unmixed, dual, synced.told⟩
  | tell silent =>
    refine ⟨unmixed, dual, fun x hl hs chan published => ?_⟩
    obtain ⟨o, last, hc⟩ := synced.told x hl hs chan published
    refine ⟨o, ?_, hc⟩
    exact (lastAbout_silent fun o hm about => chan.2 (silent o hm x about)).trans last
  | report x outside ht =>
    refine ⟨unmixed, dual, fun y hl hs chan published => ?_⟩
    by_cases same : y = x
    · subst same
      obtain ⟨before, o, rfl, about, hc⟩ := ht.2 chan published
      refine ⟨o, ?_, hc⟩
      simp only [send, ← append_assoc]
      exact lastAbout_last _ about
    · obtain ⟨o, last, hc⟩ := synced.told y hl (fun hi => hs ⟨hi, same⟩) chan published
      refine ⟨o, ?_, hc⟩
      exact (lastAbout_silent fun o hm about => same (ht.1 o hm y about)).trans last
  | settle xs moot =>
    refine ⟨unmixed, dual, fun x hl hs chan published => ?_⟩
    by_cases hi : x ∈ xs
    · obtain ⟨h, pub⟩ := published
      rcases moot x hi with mixed | dead | unpublished | covers
      · exact absurd mixed strict
      · exact absurd hl dead
      · exact absurd pub (unpublished h)
      · exact absurd covers.1 chan.2
    · exact synced.told x hl (fun hm => hs ⟨hm, hi⟩) chan published
  | forget inside =>
    exact ⟨unmixed, dual, fun x hl hs =>
      synced.told x hl fun hm => hs (inside hm)⟩
  | create =>
    refine frame rfl fun x hl hs chan published => ?_
    rcases hl with ⟨rfl, rfl⟩ | hl
    · obtain ⟨h, id, host⟩ := published
      exact absurd (synced.dual.named _ _ _ _ host) (shape.next_unnamed id)
    · have old : x ≠ g.next := fun same => shape.next_dead _ (same ▸ hl)
      exact ⟨hl, hs, chan.congr (if_neg old) fun id has => .inr has, match_create old⟩
  | register _ node =>
    refine frame rfl fun x hl hs chan published => ?_
    exact ⟨hl, fun hm => hs (.inl hm), chan, match_register shape node hl fun hm => hs (.inr hm)⟩
  | unregister _ _ node =>
    refine frame rfl fun x hl hs chan published => ?_
    exact ⟨hl, fun hm => hs (.inl hm), chan,
      match_unregister shape node hl fun hm => hs (.inr ⟨hm, chan.2⟩)⟩
  | link _ _ node _ _ _ hg =>
    have log : g'.log = g.log := by rw [hg.frame]; rfl
    have strat : g'.strategy = g.strategy := by rw [hg.frame]; rfl
    refine frame log fun x hl hs chan published => ?_
    rw [hg.node] at hl
    exact ⟨hl, fun hm => hs (.inl hm), chan.congr (by rw [strat]) (hg.more x),
      match_link shape node hg hl fun hm => hs (.inr hm)⟩
  | remove _ _ childless =>
    refine frame rfl fun x hl hs chan published => ?_
    exact ⟨hl.2, hs, chan.congr (if_neg hl.1) fun id has => ⟨hl.1, has⟩,
      match_remove childless hl.1⟩
  | @detach _ _ p _ _ _ _ node childless =>
    refine frame rfl fun x hl hs chan published => ?_
    have before := fun hm => hs (.inl hm)
    by_cases same : x = p
    · subst same
      have chan0 := synced.unmixed.channel_of_detach node inv' chan
      exact absurd (.inr ⟨shape.one_kind _ _ x node hl, rfl, chan0.2⟩) hs
    · exact ⟨hl, before, chan.congr rfl fun id has => ⟨fun both => same both.1, has⟩,
        match_detach childless same⟩
  | @detachQuiet _ k p _ _ _ _ node childless _ _ _ _ he quiet =>
      refine frame rfl fun x hl hs chan published => ?_
      by_cases same : x = p
      · subst same
        have chan0 := synced.unmixed.channel_of_detach node inv' chan
        have pubs := publishers_detach (k := k) (x := x) he
        refine ⟨hl, hs, chan0, pubs, ?_⟩
        rcases quiet with stale | quiet | unpublished | kept
        · exact absurd stale prompt
        · exact absurd chan0 quiet
        · obtain ⟨h, pub⟩ := published
          exact absurd (pubs ▸ pub) (unpublished h)
        · exact kept
      · exact ⟨hl, hs, chan.congr rfl fun id has => ⟨fun both => same both.1, has⟩,
          match_detach childless same⟩

/-- A documented request that joins no known root scope with others, and deletes no branch of an
item after telling its match. -/
def Prompt (s : LocalRV) : Event → Prop
  | .publishedData request => Documented s (.publishedData request) ∧
      (∀ k e f, (graph s).Joins request k e f → (graph s).SameRoots e f) ∧
      ¬ (graph s).Stale request
  | _ => True

def Policy.prompt : Policy := { Policy.all with loose := False, mixed := False, stale := False }

theorem Prompt.permits {event : Event} (prompt : Prompt s event)
    (inv : (graph s).Inv) (fuel : Nat) :
    Policy.prompt.PermitsEvent True fuel (graph s) event := by
  cases event with
  | publishedData =>
    obtain ⟨hd, joins, hf⟩ := prompt
    exact ⟨.inr (inv.addressed hd.1), .inl trivial, .inr joins, .inr hf,
      .inr (.inl trivial), .inl trivial⟩
  | publishedDataISub | unexpected => trivial

section

/-- The last request for the match of an item, and the hosts collected for it now. -/
structure ItemView where
  pub : Ptr
  strategy : Strategy
  ids : List ID
  last : Option Out
  publishers : List NodeID
  subscribers : List NodeID
  deriving DecidableEq

def itemView [IterationOrder] (id : ID) : RV ItemView := do
  let found ← Program.read (·.pubIndex.get id)
  let pub ← Program.expect .missing found
  let item ← deref pub
  let subscribers ← allSubscribers pub
  let out ← Program.read (·.out)
  pure ⟨pub, item.strategy, item.ids.keys, lastAbout out pub, (item.getPublishers ∅).keys,
    subscribers.keys⟩

/-- The view is true to the item `n`. -/
structure ItemView.Shows (view : ItemView) (s : LocalRV) (n : Node) : Prop where
  heap : s.heap view.pub = some n
  item : n.kind = .item
  strategy : n.strategy = view.strategy
  ids : n.ids.keys = view.ids
  last : lastAbout s.out view.pub = view.last
  publishers : ∀ h, h ∈ view.publishers ↔ h ∈ (graph s).publishers view.pub
  subscribers : ∀ h, h ∈ view.subscribers ↔ h ∈ (graph s).subscribers view.pub

theorem itemView_spec [IterationOrder] {id : ID} {view : ItemView} (inv : (graph s).Inv)
    (seen : (itemView id s).map Prod.fst = .ok view) : ∃ n, view.Shows s n := by
  obtain ⟨tag, shape⟩ := inv
  have walk : wlp (itemView id) (fun view _ => ∃ n, view.Shows s n) s := by
    simp only [itemView, wp_bind, wp_expect]
    refine ⟨fun pub hf => ?_, fun _ => trivial⟩
    have live := ((shape.index_iff .item id pub).mp hf).1
    refine deref_spec live fun n heap kind => ?_
    refine allSubscribers_spec shape live fun subs content =>
      ⟨n, heap, kind, rfl, rfl, rfl, fun h => ?_, fun h => ?_⟩
    · rw [HashTable.mem_keys, Node.getPublishers, mem_collect heap]
      simp [publishers]
    · rw [HashTable.mem_keys]
      exact content h
  obtain ⟨-, shows⟩ := wp_value walk seen
  exact shows

open Samples

end

end Blackadder.Rendezvous
