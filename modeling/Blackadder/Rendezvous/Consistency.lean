import Blackadder.Rendezvous.Dispatch

namespace Blackadder.Rendezvous

open Program Policy

/-- The requests that take a host or a node away. -/
def RequestType.withdraws : RequestType → Bool
  | .unpublishScope | .unpublishInfo | .unsubscribeScope | .unsubscribeInfo => true
  | _ => false

/-- A scope is published under itself or under one of its descendants. -/
def RepublishedBelow (s : LocalRV) (request : Request) : Prop :=
  ∃ e f, (graph s).Joins request .scope e f ∧ (graph s).Below e f

/-- The requests that `localrv.hh` documents: a single fragment to unpublish or unsubscribe from,
and no scope at or below itself. -/
def Documented (s : LocalRV) : Event → Prop
  | .publishedData request =>
    (request.type.withdraws = true → request.id.length = 1) ∧ ¬ RepublishedBelow s request
  | _ => True

/-- A check of an event alone that is enough for it to be documented: no scope is linked. -/
def Event.plain : Event → Bool
  | .publishedData request =>
    (request.type.withdraws → request.id.length = 1) ∧
      ¬ (request.type = .publishScope ∧ 1 < request.id.length)
  | _ => true

variable {event : Event} {short : Prop} {fuel : Nat} {s : LocalRV}

theorem Documented.of_plain (plain : event.plain = true) (s : LocalRV) : Documented s event := by
  cases event with
  | publishedData =>
    obtain ⟨single, unlinked⟩ := of_decide_eq_true plain
    refine ⟨single, ?_⟩
    rintro ⟨e, f, ⟨type, joins⟩, -⟩
    exact unlinked ⟨by simpa using type, joins.inner⟩
  | publishedDataISub | unexpected => trivial

variable {req : Request}

namespace Graph

variable {g : Graph} {r : Role} {h : NodeID} {t : Fragment} {pre : ID} {strat : Strategy}

theorem Inv.scopeAddressed (inv : g.Inv) : g.ScopeAddressed r h [t] pre strat := by
  obtain ⟨tag, shape⟩ := inv
  intro sc hf _ _ _ _
  obtain ⟨hl, has⟩ := shape.indexed hf
  obtain ⟨-, ⟨root, rfl⟩ | ⟨-, f, father, hp⟩⟩ := shape.father_of_append hl has
  · refine .inr ⟨?_, .inl root⟩
    cases found : g.index .scope [] with
    | none => rfl
    | some f =>
      obtain ⟨scope, he⟩ := shape.indexed found
      exact absurd rfl (shape.ne_nil scope he)
  · have scope := (shape.fathers_live _ sc f hl father).1
    exact .inl ⟨f, father, (shape.index_iff _ _ _).mpr ⟨scope, hp⟩⟩

/-- A single fragment leaves it to the prefix to name the father. -/
theorem Inv.addressed (inv : g.Inv) (single : req.type.withdraws = true → req.id.length = 1) :
    g.Addressed req := by
  unfold Addressed
  cases type : req.type <;> rw [type] at single
  case unpublishScope | unsubscribeScope =>
    obtain ⟨t, frag⟩ := List.length_eq_one_iff.mp (single rfl)
    rw [frag]
    exact inv.scopeAddressed
  case unpublishInfo | unsubscribeInfo =>
    obtain ⟨t, frag⟩ := List.length_eq_one_iff.mp (single rfl)
    rw [frag]
    exact inv.itemAddressed _ _ t _ _
  all_goals trivial

end Graph

/-- No scope is deleted behind the back of its fathers. -/
def Policy.told : Policy := { Policy.all with loose := False }

theorem Policy.told_unbounded : told.Unbounded :=
  ⟨trivial, fun _ => trivial, fun _ => trivial⟩

variable {g : Graph}

theorem Graph.Addressed.permits (addressed : g.Addressed req)
    (he : short ∨ ((∀ e f, g.Joins req .scope e f → ¬ g.Below e f) ∧ g.next ≤ fuel ∧ 0 < fuel)) :
    told.Permits short fuel g req :=
  ⟨.inr addressed, .inl trivial, .inl trivial, .inl trivial, .inl trivial, he⟩

theorem Documented.permits (hd : Documented s event) (inv : (graph s).Inv)
    (he : short ∨ (graph s).next < fuel) : told.PermitsEvent short fuel (graph s) event := by
  cases event with
  | publishedData =>
    refine (inv.addressed hd.1).permits (he.imp_right fun he => ?_)
    exact ⟨fun e f joins hb => hd.2 ⟨e, f, joins, hb⟩, he.le, Nat.zero_lt_of_lt he⟩
  | publishedDataISub | unexpected => trivial

theorem Run.plain [IterationOrder] {β : Type} {view : LocalRV → β} {seen : β}
    {events : List Event} (plain : events.all Event.plain = true)
    (ends : after events view = .ok seen) : ∃ s, Run Documented s ∧ view s = seen :=
  Run.reached ends _ (fun event hm => .of_plain (List.all_eq_true.mp plain event hm))

/-- The two indexes, the identifiers and the links of the graph agree. -/
structure Consistent (s : LocalRV) : Prop where
  scopeIndex : ∀ id p, s.scopeIndex.get id = some p ↔
    ∃ n, s.heap p = some n ∧ n.kind = .scope ∧ id ∈ n.ids
  pubIndex : ∀ id p, s.pubIndex.get id = some p ↔
    ∃ n, s.heap p = some n ∧ n.kind = .item ∧ id ∈ n.ids
  disjoint : ∀ id, id ∈ s.scopeIndex → id ∉ s.pubIndex
  paths : ∀ p n, s.heap p = some n → n.isRoot = false → ∃ first ∈ n.ids, ∀ id,
    id ∈ n.ids ↔ ∃ f father path, f ∈ n.fatherScopes ∧ s.heap f = some father ∧
      path ∈ father.ids ∧ id = path ++ lastFragment first
  fathers : ∀ k p f, (∃ n, s.heap p = some n ∧ n.kind = k ∧ f ∈ n.fatherScopes) ↔
    ∃ father, s.heap f = some father ∧ p ∈ father.children k

/-- The invariant of the graph makes the tables of the code agree. -/
theorem consistent_of_shape (inv : (graph s).Inv) (ha : (graph s).ChildrenLive) : Consistent s := by
  obtain ⟨tag, shape⟩ := inv
  have idx : ∀ k id p, (s.index k).get id = some p ↔
      ∃ n, s.heap p = some n ∧ n.kind = k ∧ id ∈ n.ids := by
    intro k id p
    refine (shape.index_iff k id p).trans ⟨?_, ?_⟩
    · rintro ⟨⟨n, hf, kind⟩, has⟩
      exact ⟨n, hf, kind, (mem_ids hf).mp has⟩
    · rintro ⟨n, hf, kind, has⟩
      exact ⟨⟨n, hf, kind⟩, (mem_ids hf).mpr has⟩
  refine ⟨idx .scope, idx .item, fun id inScopes inItems => ?_, fun p n hf inner => ?_,
    fun k p f => ⟨?_, ?_⟩⟩
  · obtain ⟨p, isScope⟩ := HashTable.mem_iff_get.mp inScopes
    obtain ⟨q, hi⟩ := HashTable.mem_iff_get.mp inItems
    obtain ⟨liveP, hasP⟩ := (shape.index_iff .scope id p).mp isScope
    obtain ⟨liveQ, hasQ⟩ := (shape.index_iff .item id q).mp hi
    cases shape.kind_of_id liveP liveQ hasP hasQ
  · have hl : p ∈ (graph s).node n.kind := (mem_node hf).mpr rfl
    have notRoot : p ∉ (graph s).root := fun root => by
      rw [mem_root hf, inner] at root
      cases root
    obtain ⟨first, hasFirst⟩ := shape.named n.kind p hl
    refine ⟨first, (mem_ids hf).mp hasFirst, fun id => ?_⟩
    rw [shape.lastFragment_eq hl hasFirst, ← mem_ids hf]
    constructor
    · intro has
      rcases shape.sound n.kind p id hl has with ⟨root, -⟩ | ⟨-, f, father, path, hp, hs⟩
      · exact absurd root notRoot
      · obtain ⟨fn, found, hm⟩ := hp
        exact ⟨f, fn, path, (mem_fathers hf).mp father, found, hm, hs⟩
    · rintro ⟨f, fn, path, father, found, hm, rfl⟩
      exact shape.complete n.kind p f path hl (Set.notMem_empty p) ((mem_fathers hf).mpr father)
        ((mem_ids found).mpr hm)
  · rintro ⟨n, hf, kind, father⟩
    exact (shape.fathers_live k p f ((mem_node hf).mpr kind) ((mem_fathers hf).mpr father)).2
  · intro live
    have hl : p ∈ (graph s).node k := by
      cases k with
      | scope => exact ha p f live
      | item => exact shape.items_live p f live
    obtain ⟨n, hf, kind⟩ := hl
    have father := (shape.children_known k n.kind p f live ((mem_node hf).mpr rfl)).2
    exact ⟨n, hf, kind, (mem_fathers hf).mp father⟩

theorem documented_sane (run : Run Documented s) : Sane told (graph s) :=
  run.sane told_unbounded fun _ _ _ sane hd =>
    hd.permits sane.inv (.inl trivial)

/-- Between documented requests the graph is consistent, and the next one always returns. -/
theorem documented_consistent {s : LocalRV} (run : Run Documented s) :
    Consistent s ∧ ∀ (_ : IterationOrder) (event : Event), Documented s event →
      ∃ fuel s', push fuel event s = .ok ((), s') := by
  have sane := documented_sane run
  have ha := sane.childrenLive.resolve_left id
  refine ⟨consistent_of_shape sane.inv ha, fun order event hd => ?_⟩
  have allowed : told.PermitsEvent False ((graph s).next + 1) (graph s) event :=
    hd.permits sane.inv (.inr (Nat.lt_succ_self _))
  have walk := push_spec told_unbounded sane allowed
  cases outcome : push ((graph s).next + 1) event s with
  | ok result => exact ⟨_, result.2, outcome⟩
  | error reason => cases reason <;> exact (wp_error walk outcome).elim

/-- Two hosts, two root scopes and an item under both of them, of which one branch goes. -/
def twoBranches : List Event :=
  [ask 20 .publishScope (smallID [10]) [], ask 20 .publishScope (smallID [11]) [],
    ask 20 .publishInfo (smallID [12]) (smallID [10]),
    ask 20 .publishInfo (smallID [10, 12]) (smallID [11]),
    ask 21 .subscribeScope (smallID [11]) [],
    ask 20 .unpublishInfo (smallID [12]) (smallID [10])]

open Samples

theorem documented_consistent_twoBranches : ∃ s, Run Documented s ∧
    s.pubIndex.keys = [smallID [11, 12]] ∧ Consistent s := by
  obtain ⟨s, run, item⟩ := Run.plain (by decide)
    (show after twoBranches (·.pubIndex.keys) = .ok [smallID [11, 12]] by decide +kernel)
  exact ⟨s, run, item, (documented_consistent run).1⟩

open Or

namespace Graph

/-- The records of the hosts and the hosts at the identifiers are one relation, kept twice. -/
structure Dual (g : Graph) : Prop where
  records : ∀ k r h id, id ∈ g.records k r h ↔ ∃ p ∈ g.node k, h ∈ g.hosts r p id
  named : ∀ r p id h, h ∈ g.hosts r p id → id ∈ g.ids p

namespace Dual

variable {g g' : Graph} {tag : Ptr → Fragment} {k : Kind} {r : Role} {p f : Ptr} {id : ID}
  {h : NodeID}

variable (dual : Dual g)

include dual

/-- Nodes without hosts may come and go. -/
theorem congr (records : g'.records = g.records)
    (hosts : ∀ r p id h, h ∈ g'.hosts r p id ↔ h ∈ g.hosts r p id)
    (node : ∀ k r p id h, h ∈ g.hosts r p id → (p ∈ g'.node k ↔ p ∈ g.node k))
    (ids : ∀ r p id h, h ∈ g.hosts r p id → id ∈ g.ids p → id ∈ g'.ids p) : Dual g' := by
  constructor
  · intro k r h id
    rw [records, dual.records]
    constructor
    · rintro ⟨p, hl, host⟩
      exact ⟨p, (node k r p id h host).mpr hl, (hosts r p id h).mpr host⟩
    · rintro ⟨p, hl, host'⟩
      have host := (hosts r p id h).mp host'
      exact ⟨p, (node k r p id h host).mp hl, host⟩
  · intro r p id h host'
    have host := (hosts r p id h).mp host'
    exact ids r p id h host (dual.named r p id h host)

theorem create (shape : Shape tag ∅ g) (strat : Strategy) (father : Option Ptr) (t : Fragment) :
    Dual (g.create k strat father t) := by
  refine dual.congr rfl (fun r p id h => Iff.rfl) (fun k' r p id h host => ?_)
    fun r p id h host has => inr has
  refine ⟨?_, inr⟩
  rintro (⟨-, rfl⟩ | hl)
  · exact absurd (dual.named r _ id h host) (shape.next_unnamed id)
  · exact hl

theorem register (shape : Shape tag ∅ g) (hl : p ∈ g.node k) (has : id ∈ g.ids p) :
    Dual (g.register k r p id h) := by
  constructor
  · intro k' r' h' id'
    constructor
    · rintro (⟨rfl, rfl, rfl, rfl⟩ | hr)
      · exact ⟨p, hl, inl ⟨rfl, rfl, rfl, rfl⟩⟩
      · obtain ⟨q, liveQ, host⟩ := (dual.records _ _ _ _).mp hr
        exact ⟨q, liveQ, inr host⟩
    · rintro ⟨q, liveQ, ⟨rfl, rfl, rfl, rfl⟩ | host⟩
      · exact inl ⟨shape.one_kind _ _ q liveQ hl, rfl, rfl, rfl⟩
      · exact inr ((dual.records _ _ _ _).mpr ⟨q, liveQ, host⟩)
  · rintro r' q id' h' (⟨-, rfl, rfl, -⟩ | host)
    · exact has
    · exact dual.named _ _ _ _ host

/-- The record that goes is about no other node, since an identifier has one owner. -/
theorem unregister (shape : Shape tag ∅ g) (hl : p ∈ g.node k) (hp : h ∈ g.hosts r p id) :
    Dual (g.unregister k r p id h) := by
  constructor
  · intro k' r' h' id'
    constructor
    · rintro ⟨kept, hr⟩
      obtain ⟨q, liveQ, host⟩ := (dual.records _ _ _ _).mp hr
      refine ⟨q, liveQ, ?_, host⟩
      rintro ⟨rfl, rfl, rfl, rfl⟩
      exact kept ⟨shape.one_kind _ _ q liveQ hl, rfl, rfl, rfl⟩
    · rintro ⟨q, liveQ, kept, host⟩
      refine ⟨?_, (dual.records _ _ _ _).mpr ⟨q, liveQ, host⟩⟩
      rintro ⟨rfl, rfl, rfl, rfl⟩
      have hs : q = p := shape.owner liveQ hl (dual.named _ _ _ _ host) (dual.named _ _ _ _ hp)
      exact kept ⟨rfl, hs, rfl, rfl⟩
  · exact fun r' q id' h' host => dual.named _ _ _ _ host.2

theorem link (hg : Grows (g.attach k p f) g') : Dual g' := by
  refine dual.congr ?_ (fun r p id h => ?_) (fun k r p id h _ => ?_)
    fun r p id h _ has => hg.more p has
  all_goals rw [hg.frame]
  all_goals rfl

theorem remove (father : Option Ptr) (he : ∀ r id h, h ∉ g.hosts r p id) :
    Dual (g.remove k p father) := by
  have hd : ∀ {r q id h}, h ∈ g.hosts r q id → q ≠ p := by
    rintro r q id h host rfl
    exact he r id h host
  exact dual.congr rfl (fun r q id h => ⟨And.right, fun host => ⟨hd host, host⟩⟩)
    (fun k r q id h host => ⟨And.right, fun hl => ⟨hd host, hl⟩⟩)
    fun r q id h host has => ⟨hd host, has⟩

theorem detach {t : Fragment} (he : ∀ r, ∀ id ∈ g.branch f t, ∀ h, h ∉ g.hosts r p id) :
    Dual (g.detach k p f t) := by
  have kept : ∀ {r q id h}, h ∈ g.hosts r q id → ¬ (q = p ∧ id ∈ g.branch f t) := by
    rintro r q id h host ⟨rfl, gone⟩
    exact he r id gone h host
  exact dual.congr rfl (fun r q id h => ⟨And.right, fun host => ⟨kept host, host⟩⟩)
    (fun k r q id h host => Iff.rfl) fun r q id h host has => ⟨kept host, has⟩

end Dual

end Graph

theorem Step.dual {pol : Policy} {d d' : Set Ptr} {g' : Graph} (step : Step pol d g d' g')
    (inv : g.Inv) (dual : g.Dual) : g'.Dual := by
  obtain ⟨tag, shape⟩ := inv
  cases step with
  | meet | tell | report => exact { dual with }
  | settle | forget => exact dual
  | create => exact dual.create shape _ _ _
  | register _ live has => exact dual.register shape live has
  | unregister _ _ live present => exact dual.unregister shape live present
  | link _ _ _ _ _ _ grows => exact dual.link grows
  | remove _ _ _ _ _ empty => exact dual.remove _ empty
  | detach _ _ _ _ _ _ _ empty => exact dual.detach empty
  | detachQuiet _ _ _ _ _ _ _ empty =>
    exact dual.detach empty

theorem initial_dual [IterationOrder] (nodeID : NodeID) : (graph (initialState nodeID)).Dual := by
  have met : graph (initialState nodeID) = (graph { localProxy := nodeID }).meet nodeID :=
    graph_meet (s := { localProxy := nodeID })
  rw [met]
  constructor <;> simp [graph, Graph.meet]

theorem documented_dual (run : Run Documented s) : (graph s).Dual :=
  (run.keeps (fun _ g => g.Dual) Policy.told_unbounded
    (fun _ _ _ sane hd => hd.permits sane.inv (inl trivial))
    (fun _ nid => initial_dual nid) fun inv dual step => step.dual inv dual).2

/-- What a host has on record is exactly where the graph has the host. -/
theorem records_mirror_graph {s : LocalRV} (run : Run Documented s) {h : NodeID}
    {host : RemoteHost} (isKnown : s.pubSubIndex.get h = some host) (k : Kind) (r : Role)
    (id : ID) : (id ∈ host.record k r ↔ ∃ p n pair, s.heap p = some n ∧ n.kind = k ∧
      n.ids.get id = some pair ∧ h ∈ pair.hosts r) ∧ (id ∈ host.record k r → id ∈ s.index k) := by
  have dual := documented_dual run
  have hr : id ∈ host.record k r ↔ id ∈ (graph s).records k r h := by
    simp [graph, isKnown]
  rw [hr, dual.records]
  constructor
  · constructor
    · rintro ⟨p, ⟨n, hf, kind⟩, hosted⟩
      obtain ⟨pair, paired, hm⟩ := (mem_hosts hf).mp hosted
      exact ⟨p, n, pair, hf, kind, paired, hm⟩
    · rintro ⟨p, n, pair, hf, kind, paired, hm⟩
      exact ⟨p, ⟨n, hf, kind⟩, n, pair, hf, paired, hm⟩
  · rintro ⟨p, hl, hosted⟩
    obtain ⟨tag, shape⟩ := (documented_sane run).inv
    have indexed := (shape.index_iff k id p).mpr ⟨hl, dual.named _ _ _ _ hosted⟩
    exact HashTable.mem_iff_get.mpr ⟨p, indexed⟩

theorem records_mirror_graph_twoBranches : ∃ s host, Run Documented s ∧
    s.pubSubIndex.get (smallID [20]) = some host ∧
    host.publishedInformationItems.keys = [smallID [11, 12]] ∧ smallID [11, 12] ∈ s.pubIndex := by
  obtain ⟨s, run, view⟩ := Run.plain (by decide) (show after twoBranches
        (fun s => (s.pubSubIndex.get (smallID [20])).map (·.publishedInformationItems.keys)) =
      .ok (some [smallID [11, 12]]) by decide +kernel)
  obtain ⟨host, hk, items⟩ := Option.map_eq_some_iff.mp view
  have hr : smallID [11, 12] ∈ host.record .item .publisher :=
    HashTable.mem_keys.mp (items ▸ List.mem_singleton_self _)
  exact ⟨s, host, run, hk, items, (records_mirror_graph run hk .item .publisher _).2 hr⟩

end Blackadder.Rendezvous
