import Blackadder.Topology.Conservation

/-!
The monitoring agent knows a link by the place of the first `'1'` in its LID. `reportTopology` and
the branches of `updateGraph` look for it with scans of their own.
-/

namespace Blackadder.Topology

open List EdgeList Program Option Masks

/-- The arguments of `Moly::addLink` for an edge, `none` where a variable has not been set. -/
structure LinkAddition where
  edge : ICNEdge
  link : Option Nat
  neighbour : Option Node
  node : Node
  deriving DecidableEq

namespace TMIgraph

/-- The LID attribute of the edge that igraph finds between two vertices. -/
def lidAt (t : TMIgraph) (edge : ICNEdge) : Option LidText :=
  (number t.graph.edges edge).bind fun eid => t.graph.edges[eid]?.bind EdgeList.Edge.label

/-- `lid_int` and `nighbour_nodeID_int` keep their values where nothing is found. -/
def addLinks (t : TMIgraph) :
    Option Nat → Option Node → List (Node × ICNEdge) → List LinkAddition
  | _, _, [] => []
  | lidInt, neighbour, (node, edge) :: rest =>
    match t.lidAt edge with
    | none => []
    | some text =>
      let lidInt := (firstOne 256 text).or lidInt
      let neighbour := ((t.reverseNodeIndex.toList.find? (·.2 = edge.2)).map Prod.fst).or neighbour
      ⟨edge, lidInt, neighbour, node⟩ :: addLinks t lidInt neighbour rest

/-- The links in the order they are sent. A message that is refused is the last one. -/
def reportTopology (t : TMIgraph) : List LinkAddition :=
  t.addLinks none none <| t.reverseNodeIndex.toList.flatMap fun (node, vertex) =>
    ((t.graph.adjacency.filter (·.1 = vertex)).mergeSort (·.2 ≤ ·.2)).map (node, ·)

variable {lids : ICNEdge → Option Bitvector} {t : TMIgraph} {k : Nat} {text : LidText}

theorem firstOne_eq_iff (first : firstOne 256 text = some k) (positions : Nat) :
    firstOne positions text = some k ↔ k < positions := by
  obtain ⟨place, hf, rfl⟩ := map_eq_some_iff.mp first
  constructor
  · intro ha
    obtain ⟨other, hf', hs⟩ := map_eq_some_iff.mp ha
    have hi := List.find?_some hf'
    rw [Bool.and_eq_true, decide_eq_true_eq] at hi
    omega
  · intro low
    obtain ⟨hi, before, after, split, miss⟩ := List.find?_eq_some_iff_append.mp hf
    refine congrArg _ (List.find?_eq_some_iff_append.mpr ⟨?_, before, after, split, ?_⟩)
    · simpa [low] using hi
    · intro other hm
      simp_all

theorem link_of_addLinks {addition : LinkAddition} {turns : List (Node × ICNEdge)}
    {lidInt : Option Nat} {neighbour : Option Node}
    (added : addition ∈ t.addLinks lidInt neighbour turns) :
    ∃ text before, t.lidAt addition.edge = some text ∧
      addition.link = (firstOne 256 text).or before := by
  induction turns generalizing lidInt neighbour with
  | nil => cases added
  | cons turn rest ih =>
    rw [addLinks] at added
    split at added
    · cases added
    rename_i text hl
    rcases mem_cons.mp added with rfl | later
    · exact ⟨text, lidInt, hl, rfl⟩
    · exact ih later

theorem Faithful.lidAt (faithful : t.Faithful lids) {edge : ICNEdge} (hl : t.lidAt edge = some text)
    : lids edge = some (ofText text) := by
  obtain ⟨eid, hf, here⟩ := bind_eq_some_iff.mp hl
  obtain ⟨link, ht, label⟩ := bind_eq_some_iff.mp here
  refine (faithful.identifier hf ht ?_).2
  rw [Link.bits, label]
  rfl

/-- The states after any calls of `updateGraph`. -/
inductive Calls (start : TMIgraph) : TMIgraph → Prop
  | start : Calls start start
  | call {t t' : TMIgraph} {updated : Bool} (moly : LinkReport → Bool) (link : LinkUpdate)
      (run : Calls start t) (returns : updateGraph moly link t = .ok (updated, t')) : Calls start t'

theorem Calls.faithful {g : Graph} (hu : g.adjacency.Nodup) {nid rv : Node}
    (run : Calls (readTopology g nid rv) t) : t.Faithful g.lids := by
  induction run with
  | start => exact faithful_readTopology hu nid rv
  | call moly link run hr ih =>
    obtain ⟨_, _, -, -, res⟩ := wp_ok (updateGraph_spec ih moly link) hr
    exact res.faithful

/-- The message at place `i` of an update has the number of the topology report just when the first
direction has its bit among the first 32, or the second one fails or has the very first bit. -/
theorem same_link_iff (g : Graph) (unique : g.adjacency.Nodup) (nodeID rvNodeID : Node)
    (t₀ t : TMIgraph) (run₀ : Calls (readTopology g nodeID rvNodeID) t₀)
    (run : Calls (readTopology g nodeID rvNodeID) t) (addition : LinkAddition)
    (added : addition ∈ t₀.reportTopology) (lid : Bitvector)
    (identifier : g.lids addition.edge = some lid)
    (first : firstOne 256 (Masks.toText lid) = some k) (moly : LinkReport → Bool)
    (link : LinkUpdate) (updated : Bool) (t' : TMIgraph)
    (returns : updateGraph moly link t = .ok (updated, t')) (i : Nat) (message : LinkReport)
    (sent : t'.reports[t.reports.length + i]? = some message)
    (source : t.reverseNodeIndex[message.source]? = some addition.edge.1)
    (destination : t.reverseNodeIndex[message.destination]? = some addition.edge.2) :
    addition.link = message.link ↔ if i = 0 then k < 32 else link.remove = true ∨ k = 0 := by
  obtain ⟨text, before, hl, hs⟩ := link_of_addLinks added
  cases identifier.symm.trans ((run₀.faithful unique).lidAt hl)
  rw [toText_ofText] at first
  rw [first] at hs
  rw [hs, eq_comm]
  obtain ⟨start, finish, head, tail, res⟩ :=
    wp_ok (updateGraph_spec (run.faithful unique) moly link) returns
  obtain ⟨msgs, reports, about⟩ := res.reports
  rw [reports, getElem?_append_right (Nat.le_add_right _ _), Nat.add_sub_cancel_left] at sent
  have forward : ∀ {lid : Bitvector} {state : LinkState}, g.lids (start, finish) = some lid →
      some ⟨firstOne 32 (toText lid), link.destination, link.source, state⟩ = some message →
      (message.link = some k ↔ k < 32) := by
    intro lid state hk sent
    obtain rfl := some.inj sent
    obtain rfl := some.inj (head.symm.trans source)
    obtain rfl := some.inj (tail.symm.trans destination)
    obtain rfl := some.inj (identifier.symm.trans hk)
    rw [toText_ofText]
    exact firstOne_eq_iff first 32
  cases about with
  | none => cases sent
  | one hk state =>
    cases i with
    | zero => exact forward hk sent
    | succ _ => cases sent
  | two hk backKnown state =>
    rcases i with _ | _ | _
    · exact forward hk sent
    · obtain rfl := some.inj sent
      obtain rfl := some.inj (tail.symm.trans source)
      obtain rfl := some.inj (head.symm.trans destination)
      obtain rfl := some.inj (identifier.symm.trans backKnown)
      rw [toText_ofText, first]
      cases link.remove <;> simp [eq_comm]
    · cases sent

/-- Two nodes joined by a link in each direction. -/
def nearPair : Graph where
  vertices := samplePair.vertices
  edges := [⟨(0, 1), some (Masks.toText (BitVec.twoPow 256 254))⟩,
    ⟨(1, 0), some (Masks.toText (BitVec.twoPow 256 253))⟩]

def nearStart : TMIgraph := readTopology nearPair (smallFragment 49) (smallFragment 49)

/-- Both directions fail: the second one keeps its number. -/
theorem same_link_iff_pair : ∃ updated t' message addition,
    updateGraph (fun _ => true) bothFail nearStart = .ok (updated, t') ∧
      t'.reports[1]? = some message ∧ addition ∈ nearStart.reportTopology ∧
      addition.link = some 2 ∧ addition.link = message.link := by
  have ends : outcome (updateGraph (fun _ => true) bothFail)
      (fun t => t.reports[1]?.map fun message => (message.source, message.destination)) nearStart =
        .ok (some (smallFragment 50, smallFragment 49)) := by
    decide +kernel
  obtain ⟨updated, t', hr, seen⟩ := exists_of_outcome ends
  obtain ⟨message, sent, ends⟩ := map_eq_some_iff.mp seen
  obtain ⟨src, dst⟩ := Prod.mk.inj ends
  have added : ⟨(1, 0), some 2, some (smallFragment 49), smallFragment 50⟩ ∈
      nearStart.reportTopology := by
    decide +kernel
  refine ⟨updated, t', message, _, hr, sent, added, rfl, (same_link_iff (k := 2) nearPair
    (by decide) _ _ nearStart nearStart .start .start _ added _ (congrArg some
    (ofText_toText _)) (by decide +kernel) _ bothFail updated t' hr 1 _ sent ?_ ?_).mpr (.inl rfl)⟩
  · rw [src]
    decide +kernel
  · rw [dst]
    decide +kernel

/-- Both directions come up again. -/
def bothReturn : LinkUpdate := ⟨smallFragment 49, smallFragment 50, true, false⟩

/-- The second direction is number 2 at the start and number 0 when it comes up again. -/
theorem link_comes_up_as_another : ∃ addition ∈ nearStart.reportTopology,
    addition.edge = (1, 0) ∧ addition.link = some 2 ∧
    outcome (updateGraph (fun _ => true) bothFail >>= fun _ =>
      updateGraph (fun _ => true) bothReturn) (fun t => t.reports[3]?) nearStart =
        .ok (some ⟨some 0, smallFragment 49, smallFragment 50, .up⟩) := by
  decide +kernel

end TMIgraph

end Blackadder.Topology
