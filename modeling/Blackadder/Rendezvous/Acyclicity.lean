import Blackadder.Rendezvous.Consistency

namespace Blackadder.Rendezvous

open Program Policy

/-- What is taken away is named below one of its fathers, which only the other handlers check. -/
def WellAddressed (s : LocalRV) : Event → Prop
  | .publishedData request => (graph s).Addressed request
  | _ => True

variable {s : LocalRV} {event : Event}

theorem WellAddressed.permits (ha : WellAddressed s event) (fuel : Nat) :
    told.PermitsEvent True fuel (graph s) event := by
  cases event with
  | publishedData => exact Graph.Addressed.permits ha (Or.inl trivial)
  | publishedDataISub | unexpected => trivial

/-- Every scope that some scope lists is in the index. -/
def SubscopesIndexed (s : LocalRV) : Prop :=
  ∀ p n c, s.heap p = some n → c ∈ n.childrenScopes → ∃ id, s.scopeIndex.get id = some c

theorem subscopesIndexed_of_sane (sane : Sane told (graph s)) : SubscopesIndexed s := by
  intro p n c hf hl
  obtain ⟨tag, shape⟩ := sane.inv
  have live := sane.childrenLive.resolve_left id c p ⟨n, hf, hl⟩
  obtain ⟨id, has⟩ := shape.named .scope c live
  exact ⟨id, (shape.index_iff .scope id c).mpr ⟨live, has⟩⟩

theorem wellAddressed_sane (run : Run WellAddressed s) : Sane told (graph s) :=
  run.sane told_unbounded fun _ _ fuel _ ha => ha.permits fuel

/-- As long as requests are well addressed no handler uses what is not there, whatever the
order of the tables, and even if a scope is published below itself. -/
theorem wellAddressed_never_missing {s : LocalRV} (run : Run WellAddressed s)
    (order : IterationOrder) (fuel : Nat) {event : Event} (addressed : WellAddressed s event) :
    push fuel event s ≠ .error .missing ∧
      ∀ s', push fuel event s = .ok ((), s') → SubscopesIndexed s' := by
  have sane := wellAddressed_sane run
  have walk := push_spec told_unbounded sane (addressed.permits fuel)
  constructor
  · exact wp_error walk
  · intro s' hr
    have steps := wp_ok walk hr
    exact subscopesIndexed_of_sane (sane.steps (steps ∅))

section

/-- The item `x` is published under the root scope `a`. -/
def oneItem : List Event :=
  [ask 20 .publishScope (smallID [10]) [], ask 20 .publishInfo (smallID [12]) (smallID [10])]

/-- The item is taken back under the given split of its identifier. -/
def unpublishOneItem (id prefixID : ID) : Event :=
  ask 20 .unpublishInfo id prefixID

open Samples

theorem wellAddressed_never_missing_oneItem : ∃ (_ : IterationOrder) (s : LocalRV),
    Run WellAddressed s ∧ s.pubIndex.keys = [smallID [10, 12]] ∧
      push 9 (unpublishOneItem (smallID [12]) (smallID [10])) s ≠ .error .missing := by
  obtain ⟨s, run, item⟩ := Run.reached
    (show after oneItem (·.pubIndex.keys) = .ok [smallID [10, 12]] by decide +kernel)
    WellAddressed fun event hm s => by rcases List.mem_pair.mp hm with rfl | rfl <;> trivial
  have ha : WellAddressed s (unpublishOneItem (smallID [12]) (smallID [10])) := by
    simp only [WellAddressed]
    exact (wellAddressed_sane run).inv.addressed fun _ => rfl
  exact ⟨inferInstance, s, run, item, (wellAddressed_never_missing run inferInstance 9 ha).1⟩

/-- `a/x` without a prefix: `unpublish_info` looks up the father under the empty identifier. -/
theorem unpublishInfo_uses_absent_father : ∃ (_ : IterationOrder) (s : LocalRV),
    Run (fun _ _ => True) s ∧
      push 9 (unpublishOneItem (smallID [10, 12]) []) s = .error .missing := by
  obtain ⟨s, run, stops⟩ := Run.reached
    (show after oneItem (outcome (push 9 (unpublishOneItem (smallID [10, 12]) [])) fun _ => ()) =
      .ok (.error .missing) by decide +kernel)
  exact ⟨inferInstance, s, run, stops_of_outcome stops⟩

end

section

variable [IterationOrder] {s : LocalRV} {h : NodeID} {e f : Ptr} {id pre : ID}
  {strat : Strategy} {fuel : Nat}

/-- A scope that is put at or below itself is re-aliased for ever. -/
theorem republishInnerScope_endless (inv : (graph s).Inv)
    (target : (graph s).LinkTarget .scope id pre strat e f) (hb : (graph s).Below e f) :
    wlp (republishInnerScope fuel h id pre strat) (fun _ _ => False) s := by
  obtain ⟨tag, shape⟩ := inv
  obtain ⟨last, live, notRoot, scope, hp, attached⟩ := target.attach shape
  have notItem : pre ++ lastFragment id ∉ s.pubIndex := HashTable.get_eq_none.mp (target.free .item)
  have father : s.scopeIndex.get pre = some f := target.father
  have existing : s.scopeIndex.get id = some e := target.existing
  have free : s.scopeIndex.get (pre ++ lastFragment id) = none := target.free .scope
  simp only [republishInnerScope, wp_bind, wp_read, wp_ite]
  refine ⟨fun isItem => absurd isItem notItem, fun _ => ?_⟩
  simp only [father, existing, free]
  refine deref_bind scope fun fatherNode hh _ => ?_
  have hs : fatherNode.strategy = strat := (strategy_eq hh).symm.trans target.same
  rw [if_pos hs, last]
  refine attach_spec live scope fun s1 hr => ?_
  exact wp_seq (realias_endless attached shape scope hb fuel hr) fun _ _ hi => hi.elim

variable {request : Request}

theorem push_endless (inv : (graph s).Inv) (republished : RepublishedBelow s request) (s' : LocalRV)
    : push fuel (.publishedData request) s ≠ .ok ((), s') := by
  obtain ⟨e, f, ⟨type, target⟩, hb⟩ := republished
  let s1 : LocalRV := { s with pubSubIndex := s.pubSubIndex.findInsert request.nodeID {} }
  have met : graph s1 = (graph s).meet request.nodeID := graph_meet
  obtain ⟨tag, shape⟩ := inv
  have shape1 := shape.hosted met
  have target1 : (graph s1).LinkTarget .scope request.id request.prefixID request.strategy e f :=
    met ▸ ⟨target.inner, target.existing, target.father, target.free, target.same⟩
  have hb1 : (graph s1).Below e f := met ▸ hb
  obtain ⟨scope, hp⟩ := shape.indexed target.father
  have prefixed : 0 < request.prefixID.length := List.length_pos_iff.mpr (shape.ne_nil scope hp)
  have long := target.inner
  have walk : wlp (push fuel (.publishedData request)) (fun _ _ => False) s := by
    have isRepublished : publishScope fuel request.nodeID request.id request.prefixID
        request.strategy =
      republishInnerScope fuel request.nodeID request.id request.prefixID request.strategy := by
      rw [publishScope, if_neg (by omega), if_neg (by omega), if_pos ⟨prefixed, long⟩]
    simp only [push, getRemoteHost, dispatch, type, isRepublished, wp_bind, wp_update]
    exact wp_post (republishInnerScope_endless ⟨tag, shape1⟩ target1 hb1) fun _ _ hi => hi.elim
  exact wp_ok walk

/-- Where no deleted scope is listed, nothing else can stop the recursion either. -/
theorem push_outOfFuel (sane : Sane told (graph s)) (republished : RepublishedBelow s request) :
    push fuel (.publishedData request) s = .error .outOfFuel := by
  have ha : (graph s).Addressed request := by
    obtain ⟨e, f, ⟨type, -⟩, -⟩ := republished
    simp only [Graph.Addressed, type]
  have walk : wp (push fuel (.publishedData request)) _ (Stops False True) s :=
    push_spec told_unbounded sane (ha.permits (Or.inl trivial))
  cases outcome : push fuel (.publishedData request) s with
  | ok result => exact absurd outcome (push_endless sane.inv republished result.2)
  | error reason =>
    cases reason with
    | missing => exact (wp_error walk outcome).elim
    | outOfFuel => rfl

end

/-- What a request leaves behind has no cycle; it comes to an end, on a graph without cycles,
exactly if it does not publish a scope at or below itself, and else it never returns. -/
theorem ends_acyclic_iff {s : LocalRV} (run : Run (fun _ _ => True) s) (order : IterationOrder)
    (request : Request) : (∀ fuel s', push fuel (.publishedData request) s = .ok ((), s') →
      Acyclic (graph s').Father) ∧
    (((∃ fuel, push fuel (.publishedData request) s ≠ .error .outOfFuel) ∧
        ∀ e f, (graph s).Joins request .scope e f →
          Acyclic ((graph s).attach .scope e f).Father) ↔
      ¬ RepublishedBelow s request) ∧ (RepublishedBelow s request →
      ∀ fuel s', push fuel (.publishedData request) s ≠ .ok ((), s')) := by
  have sane := run_sane run
  have ⟨tag, shape⟩ := sane.inv
  refine ⟨fun fuel s' hr => ?_, ⟨?_, fun apart => ⟨?_, ?_⟩⟩,
    fun republished fuel s' => push_endless sane.inv republished s'⟩
  · obtain ⟨tag', shape'⟩ := (run_sane (.step order fuel _ run trivial hr)).inv
    exact shape'.acyclic
  · rintro ⟨-, hl⟩ ⟨e, f, joins, hb⟩
    have hs : ((graph s).attach .scope e f).Father =
        fun a b => (graph s).Father a b ∨ (a = f ∧ b = e) := by
      funext a b
      exact propext Graph.attach_father
    exact (hs ▸ hl e f joins).apart_of_addEdge hb
  · refine ⟨(graph s).next + 1, fun stops => ?_⟩
    have hp : all.Permits False ((graph s).next + 1) (graph s) request :=
      all_permits (Or.inr ⟨fun e f joins hb => apart ⟨e, f, joins, hb⟩,
        Nat.le_succ _, Nat.succ_pos _⟩)
    have walk : wp (push _ (.publishedData request)) _ (Stops True False) s :=
      push_spec all_unbounded sane hp
    exact wp_error walk stops
  · exact fun e f joins => shape.acyclic_attach fun hb => apart ⟨e, f, joins, hb⟩

section

/-- The scope `b` is published under the root scope `a`. -/
def nestedScopes : List Event :=
  [ask 20 .publishScope (smallID [10]) [], ask 20 .publishScope (smallID [11]) (smallID [10])]

/-- A scope is published under `a/b`. -/
def publishBelow (id : ID) : Request :=
  ⟨smallID [20], .publishScope, id, smallID [10, 11], Strategy.domainLocal⟩

open Samples

theorem nestedScopes_reached (allowed : LocalRV → Event → Prop)
    (isAllowed : ∀ event ∈ nestedScopes, ∀ s, allowed s event) :
    ∃ s, Run allowed s ∧ RepublishedBelow s (publishBelow (smallID [10, 11])) := by
  obtain ⟨s, run, seen⟩ := Run.reached (show after nestedScopes
        (fun s => (s.scopeIndex.get (smallID [10, 11]), s.scopeIndex.get (smallID [10, 11, 11]),
          s.pubIndex.get (smallID [10, 11, 11]), ((s.heap 1).map (·.strategy)).getD 0)) =
      .ok (some 1, none, none, Strategy.domainLocal) by decide +kernel) allowed isAllowed
  simp only [Prod.mk.injEq] at seen
  obtain ⟨scope, noScope, noItem, strat⟩ := seen
  refine ⟨s, run, 1, 1, ⟨rfl, by decide, scope, scope, ?_, strat⟩, Relation.ReflTransGen.refl⟩
  rintro (_ | _)
  · exact noScope
  · exact noItem

theorem ends_acyclic_iff_nestedScopes : ∃ (_ : IterationOrder) (s : LocalRV),
    Run (fun _ _ => True) s ∧ (∃ fuel, push fuel (.publishedData (publishBelow (smallID [12]))) s ≠
      .error .outOfFuel) ∧
    ∀ fuel s', push fuel (.publishedData (publishBelow (smallID [10, 11]))) s ≠
      .ok ((), s') := by
  obtain ⟨s, run, republished⟩ := nestedScopes_reached (fun _ _ => True) fun _ _ _ => trivial
  have plain : Documented s (.publishedData (publishBelow (smallID [12]))) :=
    .of_plain (by decide) s
  exact ⟨inferInstance, s, run, ((ends_acyclic_iff run inferInstance _).2.1.mpr plain.2).1,
    (ends_acyclic_iff run inferInstance _).2.2 republished⟩

/-- The scope `a/b` is published under itself: the element never gets out of the recursion. -/
theorem republishInnerScope_under_itself : ∃ (_ : IterationOrder) (s : LocalRV),
    Run (fun _ _ => True) s ∧ ∀ fuel,
      push fuel (.publishedData (publishBelow (smallID [10, 11]))) s =
        .error .outOfFuel := by
  obtain ⟨s, run, republished⟩ := nestedScopes_reached WellAddressed fun event hm s => by
    rcases List.mem_pair.mp hm with rfl | rfl <;> trivial
  refine ⟨inferInstance, s, run.mono fun _ _ _ => trivial, fun fuel => ?_⟩
  exact push_outOfFuel (wellAddressed_sane run) republished

end

open Strategy Or

/-- Every node has the strategy of its fathers. -/
def Graph.Even (g : Graph) : Prop :=
  ∀ k p f, p ∈ g.node k → f ∈ g.fathers p → g.strategy p = g.strategy f

namespace Graph.Even

variable {g g' : Graph} {tag : Ptr → Fragment} {k : Kind} {p f : Ptr}

theorem create (even : Even g) (shape : Shape tag ∅ g) {father : Option Ptr}
    {strat : Strategy} (t : Fragment) (scope : ∀ f, father = some f → f ∈ g.node .scope)
    (copied : ∀ f, father = some f → strat = g.strategy f) : Even (g.create k strat father t) := by
  have old : ∀ {k q}, q ∈ g.node k → (g.create k strat father t).strategy q = g.strategy q :=
    fun hl => if_neg fun hs => shape.next_dead _ (hs ▸ hl)
  rintro k' q f (⟨-, rfl⟩ | hl) (⟨new, hf⟩ | hf)
  · have hc : (g.create k strat father t).strategy g.next = strat := if_pos rfl
    exact hc.trans ((copied f hf).trans (old (scope f hf)).symm)
  · obtain ⟨k0, hl⟩ := shape.live_of_father _ f hf
    exact absurd hl (shape.next_dead k0)
  · exact absurd (new ▸ hl) (shape.next_dead k')
  · have father := (shape.fathers_live k' q f hl hf).1
    exact (old hl).trans ((even k' q f hl hf).trans (old father).symm)

theorem link (even : Even g) (hg : Grows (g.attach k p f) g')
    (hs : g.strategy p = g.strategy f) : Even g' := by
  have strat : g'.strategy = g.strategy := by rw [hg.frame]; rfl
  intro k' q f' hl hf
  rw [hg.node] at hl
  rw [hg.fathers] at hf
  rw [strat]
  rcases hf with ⟨rfl, rfl⟩ | hf
  · exact hs
  · exact even k' q f' hl hf

theorem remove (even : Even g) (hc : ∀ q, p ∉ g.fathers q) (father : Option Ptr) :
    Even (g.remove k p father) := by
  rintro k' q f ⟨other, hl⟩ ⟨-, hf⟩
  have hd : f ≠ p := fun hs => hc q (hs ▸ hf)
  exact (if_neg other).trans ((even k' q f hl hf).trans (if_neg hd).symm)

end Graph.Even

theorem Step.even {pol : Policy} {d d' : Set Ptr} {g g' : Graph} (hs : ¬ pol.uneven)
    (inv : g.Inv) (even : g.Even) (step : Step pol d g d' g') : g'.Even := by
  have ⟨tag, shape⟩ := inv
  cases step with
  | meet | tell | report | settle | forget | register | unregister => exact even
  | create _ scope _ copied => exact even.create shape _ scope copied
  | link _ _ _ _ same _ grows =>
    exact even.link grows (same.resolve_left hs)
  | remove _ _ childless => exact even.remove childless _
  | detach | detachQuiet => exact fun k q f hl hf => even k q f hl hf.2

/-- A request that puts a node under a scope finds the two with one strategy. The handlers only
compare that of the scope with that of the request. -/
def EvenLinks (s : LocalRV) : Event → Prop
  | .publishedData request => ∀ k e f, (graph s).Joins request k e f →
      (graph s).strategy e = (graph s).strategy f
  | _ => True

def Policy.even : Policy := { Policy.all with uneven := False }

theorem Policy.even_unbounded : Policy.even.Unbounded :=
  ⟨trivial, fun _ => trivial, fun _ => trivial⟩

theorem EvenLinks.permits (even : EvenLinks s event) (fuel : Nat) :
    Policy.even.PermitsEvent True fuel (graph s) event := by
  cases event with
  | publishedData =>
    exact ⟨inl trivial, inr even, inl trivial, inl trivial, inl trivial, inl trivial⟩
  | publishedDataISub | unexpected => trivial

/-- As long as links join nodes of one strategy, every node has that of its fathers. -/
theorem strategy_of_fathers {s : LocalRV} (run : Run EvenLinks s) {p f : Ptr} {n : Node}
    (found : s.heap p = some n) (isFather : f ∈ n.fatherScopes) :
    ∃ father, s.heap f = some father ∧ father.kind = .scope ∧ n.strategy = father.strategy := by
  obtain ⟨sane, even⟩ := run.keeps (fun _ g => g.Even) Policy.even_unbounded
    (fun _ _ fuel _ even => even.permits fuel)
    (fun _ nodeID k p _ hl => absurd hl (initial_node nodeID k p))
    fun inv even step => step.even id inv even
  obtain ⟨tag, shape⟩ := sane.inv
  have hl : p ∈ (graph s).node n.kind := (mem_node found).mpr rfl
  have ha : f ∈ (graph s).fathers p := (mem_fathers found).mpr isFather
  obtain ⟨father, heap, kind⟩ := (shape.fathers_live n.kind p f hl ha).1
  have hs := even n.kind p f hl ha
  rw [strategy_eq found, strategy_eq heap] at hs
  exact ⟨father, heap, kind, hs⟩

open Samples

theorem strategy_of_fathers_oneItem : ∃ (s : LocalRV) (n father : Node), Run EvenLinks s ∧
    s.heap 1 = some n ∧ n.kind = .item ∧ 0 ∈ n.fatherScopes ∧ s.heap 0 = some father ∧
    n.strategy = father.strategy := by
  have even : ∀ event ∈ oneItem, ∀ s, EvenLinks s event := by
    intro event hm s
    rcases List.mem_pair.mp hm with rfl | rfl <;>
      exact fun k e f joins => absurd joins.2.inner (by decide)
  obtain ⟨s, run, seen⟩ := Run.reached (show after oneItem
    (fun s => (s.heap 1).map fun n => (n.kind, n.fatherScopes.keys)) =
      .ok (some (.item, [0])) by decide +kernel) EvenLinks even
  obtain ⟨n, found, content⟩ := Option.map_eq_some_iff.mp seen
  obtain ⟨item, fathers⟩ := Prod.mk.inj content
  have hf : 0 ∈ n.fatherScopes := HashTable.mem_keys.mp (fathers ▸ List.mem_singleton_self 0)
  obtain ⟨father, heap, -, hs⟩ := strategy_of_fathers run found hf
  exact ⟨s, n, father, run, found, item, hf, heap, hs⟩

/-- An item of strategy `DOMAIN_LOCAL` is readvertised under a scope of strategy `LINK_LOCAL`. -/
theorem readvertiseInfo_joins_strategies : ∃ (s : LocalRV) (n father : Node),
    Run (fun _ _ => True) s ∧ s.heap 2 = some n ∧ 1 ∈ n.fatherScopes ∧
    s.heap 1 = some father ∧ n.strategy ≠ father.strategy := by
  obtain ⟨s, run, seen⟩ := Run.reached
    (show after (oneItem.take 1 ++
          [.publishedData ⟨smallID [20], .publishScope, smallID [11], [], linkLocal⟩] ++
          oneItem.drop 1 ++
          [.publishedData ⟨smallID [20], .publishInfo, smallID [10, 12], smallID [11], linkLocal⟩])
        (fun s => ((s.heap 2).map fun n => (n.strategy, n.fatherScopes.keys),
          (s.heap 1).map (·.strategy))) =
      .ok (some (domainLocal, [1, 0]), some linkLocal) by decide +kernel)
  obtain ⟨item, scope⟩ := Prod.mk.inj seen
  obtain ⟨n, hf, content⟩ := Option.map_eq_some_iff.mp item
  obtain ⟨strat, fathers⟩ := Prod.mk.inj content
  obtain ⟨father, heap, strat'⟩ := Option.map_eq_some_iff.mp scope
  refine ⟨s, n, father, run, hf, HashTable.mem_keys.mp (fathers ▸ List.mem_cons_self), heap, ?_⟩
  rw [strat, strat']
  decide

end Blackadder.Rendezvous
