import Blackadder.Topology.Multicast

/-!
Which subscribers the FIDs of the publishers cover. The two versions of the double loop are right
for the same histories of subscribers.
-/

namespace Blackadder.Topology

open List Option BitVec Masks LightestPaths Nat

open Std (TreeMap TreeSet)
open EdgeList NestedMap Walks Program

/-- That one node reaches another, that a publisher is a nearest one, that a FID leads from one to
another. -/
structure Candidates where
  reaches : Node → Node → Prop
  nearest : TreeSet Node → Node → Node → Prop
  fid : Node → Node → Bitvector → Prop

/-- Every subscriber that is reached is assigned to a nearest publisher, whose FID is made of those
of its subscribers. -/
structure Covered (c : Candidates) (publishers subscribers : TreeSet Node)
    (result : PublisherFIDs) :
    Prop where
  keys : ∀ p, p ∈ result ↔ p ∈ publishers
  assigned : ∃ assign : Assignment,
    (∀ s ∈ subscribers, assign s = none ↔ ∀ p ∈ publishers, ¬ c.reaches p s) ∧
    (∀ s ∈ subscribers, ∀ pick, assign s = some pick →
      pick.1 ∈ publishers ∧ c.nearest publishers pick.1 s ∧ c.fid pick.1 s pick.2) ∧
    ∀ p ∈ publishers, result[p]? = some (combined assign subscribers.toList p)

/-- Each subscriber has a bit that is in every FID to it and in no FID to another one. -/
def OwnBits (c : Candidates) (subscribers : TreeSet Node) : Prop :=
  ∀ s ∈ subscribers, ∃ bit, (∀ p fid, c.fid p s fid → fid.getLsbD bit = true) ∧
    ∀ other ∈ subscribers, other ≠ s → ∀ p fid, c.fid p other fid → fid.getLsbD bit = false

section

variable {c : Candidates} {measure : Node → Node → Except Fault Measured}
  {publishers subscribers : TreeSet Node}

/-- A measure of the paths from publishers to subscribers. -/
structure Measures (measure : Node → Node → Except Fault Measured) (c : Candidates)
    (publishers subscribers : TreeSet Node) : Prop where
  total : ∀ s ∈ subscribers.toList, ∀ p ∈ publishers.toList, ∃ m, measure p s = .ok m
  reached : ∀ p ∈ publishers, ∀ s ∈ subscribers,
    hopsBetween measure p s ≠ ⊤ ↔ c.reaches p s
  fid : ∀ p ∈ publishers, ∀ s ∈ subscribers, hopsBetween measure p s ≠ ⊤ →
    c.fid p s (fidBetween measure p s)

theorem Measures.of_paths
    (measured : ∀ p ∈ publishers, ∀ s ∈ subscribers, ∃ m, measure p s = .ok m ∧
      (m.numberOfHops = ⊤ ∧ ¬ c.reaches p s ∨
        m.numberOfHops ≠ ⊤ ∧ c.reaches p s ∧ c.fid p s m.resultFID)) :
    Measures measure c publishers subscribers where
  total s hm p hi := by
    obtain ⟨m, hr, -⟩ := measured p (TreeSet.mem_toList.mp hi) s (TreeSet.mem_toList.mp hm)
    exact ⟨m, hr⟩
  reached p hi s hm := by
    obtain ⟨m, hr, ⟨top, unreachable⟩ | ⟨hf, reaches, -⟩⟩ := measured p hi s hm
    · rw [hopsBetween, hr]
      exact iff_of_false (absurd top) unreachable
    · rw [hopsBetween, hr]
      exact iff_of_true hf reaches
  fid p hi s hm hf := by
    obtain ⟨m, hr, ⟨top, -⟩ | ⟨-, -, leads⟩⟩ := measured p hi s hm
    · rw [hopsBetween, hr] at hf
      exact absurd top hf
    · rw [fidBetween, hr]
      exact leads

theorem initial_start (pubs : List Node) :
    Initial pubs ⟨⟨none, 0, []⟩, noFIDs pubs, noPaths pubs⟩ :=
  ⟨rfl, getElem?_noFIDs pubs⟩

section

variable (measures : Measures measure c publishers subscribers)

include measures

theorem Measures.choice_eq_none {s : Node} (hm : s ∈ subscribers) :
    choice measure publishers.toList s = none ↔ ∀ p ∈ publishers, ¬ c.reaches p s := by
  rw [Topology.choice_eq_none (measures.total s (TreeSet.mem_toList.mpr hm))]
  constructor
  · intro all p hi reaches
    exact (measures.reached p hi s hm).mpr reaches (all p (TreeSet.mem_toList.mpr hi))
  · intro none p hi
    by_contra finite
    have hk := TreeSet.mem_toList.mp hi
    exact none p hk ((measures.reached p hk s hm).mp finite)

theorem Measures.fid_choice {s : Node} (hm : s ∈ subscribers) {pick : Node × Bitvector}
    (hp : choice measure publishers.toList s = some pick) :
    pick.1 ∈ publishers ∧ c.fid pick.1 s pick.2 := by
  obtain ⟨hi, val, hf, -⟩ := choice_eq_some hp
  have hk := TreeSet.mem_toList.mp hi
  rw [val]
  exact ⟨hk, measures.fid pick.1 hk s hm hf⟩

/-- Undisturbed and with the right publishers chosen, the loop covers the subscribers. -/
theorem Measures.covered (keepPaths : Bool)
    (apt : ∀ s ∈ subscribers, ∀ pick, choice measure publishers.toList s = some pick →
      c.nearest publishers pick.1 s)
    (calm : Undisturbed (choice measure publishers.toList) subscribers.toList) :
    ∃ res paths, serveAll measure keepPaths publishers subscribers = .ok (res, paths) ∧
      Covered c publishers subscribers res := by
  obtain ⟨final, hr, -, entries⟩ :=
    accumulated_run measures.total keepPaths (initial_start publishers.toList) calm
  refine ⟨final.result, final.pathVectors,
    bind_ok_iff.mpr ⟨final, hr, rfl⟩, fun p => ?_, choice measure publishers.toList,
    fun s hm => measures.choice_eq_none hm, fun s hm pick hp => ?_, fun p hm => ?_⟩
  · rw [TreeMap.mem_iff_isSome_getElem?, entries, ← TreeSet.mem_toList]
    by_cases hm : p ∈ publishers.toList
    · simp [hm]
    · simp [hm]
  · obtain ⟨hk, leads⟩ := measures.fid_choice hm hp
    exact ⟨hk, apt s hm pick hp, leads⟩
  · rw [entries, if_pos (TreeSet.mem_toList.mpr hm)]

section

variable {owner : Node} {bit : Nat} (hm : owner ∈ subscribers)
  (has : ∀ p fid, c.fid p owner fid → fid.getLsbD bit = true)
  (others : ∀ other ∈ subscribers, other ≠ owner → ∀ p fid, c.fid p other fid →
    fid.getLsbD bit = false)

include hm has others

theorem Measures.owns : Owns (choice measure publishers.toList) subscribers.toList owner bit := by
  refine ⟨fun pick hp => has pick.1 pick.2 (measures.fid_choice hm hp).2, ?_⟩
  intro s hi hd pick hp
  have hk := TreeSet.mem_toList.mp hi
  exact others s hk hd pick.1 pick.2 (measures.fid_choice hk hp).2

/-- The bit of a subscriber is in no FID but that of the publisher chosen for it. -/
theorem Measures.chosen_of_bit {keepPaths : Bool} {res : PublisherFIDs} {paths : PathVectors}
    (hr : serveAll measure keepPaths publishers subscribers = .ok (res, paths))
    {p : Node} {fid : Bitvector} (val : res[p]? = some (some fid)) (hp : fid.getLsbD bit = true) :
    ∃ own, choice measure publishers.toList owner = some (p, own) := by
  obtain ⟨final, hl, ends⟩ := bind_ok_iff.mp hr
  cases ends
  have confined := confined_run measures.total (measures.owns hm has others)
    (fun _ hi => hi) (initial_start publishers.toList) hl
  exact confined.marked p fid val hp

end

end

/-- A subscriber that is reached has its bit in the FID of a nearest publisher. -/
theorem Covered.bit {res : PublisherFIDs} (covered : Covered c publishers subscribers res)
    {s : Node} (hm : s ∈ subscribers) (hr : ∃ p ∈ publishers, c.reaches p s) (bit : Nat)
    (has : ∀ p fid, c.fid p s fid → fid.getLsbD bit = true) :
    ∃ p ∈ publishers, c.nearest publishers p s ∧
      ∃ fid : Bitvector, res[p]? = some (some fid) ∧ fid.getLsbD bit = true := by
  obtain ⟨assign, unreached, hs, entries⟩ := covered.assigned
  cases hp : assign s with
  | none =>
    obtain ⟨p, hi, reaches⟩ := hr
    exact absurd reaches ((unreached s hm).mp hp p hi)
  | some pick =>
    obtain ⟨hi, nearest, leads⟩ := hs s hm pick hp
    have mine : pick.2 ∈ share assign subscribers.toList pick.1 := by
      rw [share, mem_filterMap]
      refine ⟨pick, mem_filterMap.mpr ⟨s, TreeSet.mem_toList.mpr hm, hp⟩, ?_⟩
      rw [if_pos rfl]
    have val := entries pick.1 hi
    rw [combined, if_neg (ne_nil_of_mem mine)] at val
    exact ⟨pick.1, hi, nearest, _, val, getLsbD_union.mpr ⟨pick.2, mine, has pick.1 pick.2 leads⟩⟩

theorem nodup_toList (set : TreeSet Node) : set.toList.Nodup :=
  set.distinct_toList.imp Std.ReflCmp.ne_of_cmp_ne_eq

/-- Where subscribers have bits of their own nothing may be disturbed. -/
theorem Measures.undisturbed (measures : Measures measure c publishers subscribers)
    {keepPaths : Bool} (own : OwnBits c subscribers) {res : PublisherFIDs} {paths : PathVectors}
    (hr : serveAll measure keepPaths publishers subscribers = .ok (res, paths))
    (covered : Covered c publishers subscribers res) :
    Undisturbed (choice measure publishers.toList) subscribers.toList := by
  by_contra disturbed
  obtain ⟨final, hl, ends⟩ := bind_ok_iff.mp hr
  cases ends
  obtain ⟨owner, hi, hc, lost⟩ := lost_of_disturbed measures.total
    (nodup_toList subscribers) (initial_start publishers.toList) hl disturbed
  have hm := TreeSet.mem_toList.mp hi
  obtain ⟨bit, has, others⟩ := own owner hm
  have reached : ∃ p ∈ publishers, c.reaches p owner := by
    by_contra none
    push Not at none
    exact hc ((measures.choice_eq_none hm).mpr none)
  obtain ⟨p, -, -, fid, val, hp⟩ := covered.bit hm reached bit has
  rw [lost bit (measures.owns hm has others) p fid val] at hp
  cases hp

end

theorem Carries.getLsbD {g : Graph} {path : List Vertex} {bits : Bitvector} {bit : Nat}
    (hc : Carries g path bits)
    (free : ∀ link ∈ g.edges, ∀ lid, Link.bits link = some lid → lid.getLsbD bit = false) :
    bits.getLsbD bit = false := by
  induction hc with
  | single => exact getLsbD_zero
  | step link hm _ label _ ih => rw [getLsbD_or, free link hm _ label, ih]; rfl

section

variable {edges : List (Vertex × Vertex)} {s d : Vertex} {path : List Nat}

theorem EdgeWalk.reaches (walk : EdgeWalk edges d s path) :
    Relation.ReflTransGen (Linked edges) s d := by
  induction walk with
  | here => exact .refl
  | step edge _ ih => exact .head (mem_of_getElem? edge) ih

theorem EdgeWalk.edge (walk : EdgeWalk edges d s path) :
    ∀ eid ∈ path, ∃ ends, edges[eid]? = some ends := by
  induction walk with
  | here => nofun
  | step edge _ ih =>
    intro eid hm
    rcases mem_cons.mp hm with rfl | later
    · exact ⟨_, edge⟩
    · exact ih eid later

theorem EdgeWalk.mem_targets (walk : EdgeWalk edges d s path) (moves : path ≠ []) :
    d ∈ targets edges path := by
  induction walk with
  | here => exact absurd rfl moves
  | @step u v eid rest edge later ih =>
    rw [targets, filterMap_cons, edge]
    cases later with
    | here => exact mem_cons_self
    | step => exact mem_cons_of_mem _ (ih (cons_ne_nil _ _))

theorem EdgeWalk.eq_of_nil (walk : EdgeWalk edges d s []) : s = d := by
  cases walk
  rfl

theorem IsEdgePath.eq_nil (isPath : IsEdgePath edges d d path) : path = [] := by
  by_contra moves
  exact (nodup_cons.mp isPath.once).1 (isPath.walk.mem_targets moves)

end

namespace TMIgraph

/-- All names are known, and all edges have identifiers and numbers. -/
structure Ready (t : TMIgraph) : Prop where
  names : t.Names
  renumbered : t.Renumbered
  labelled : ∀ link ∈ t.graph.edges, ∃ lid, Link.bits link = some lid
  inside : ∀ link ∈ t.graph.edges, link.ends.2 < t.graph.vertices.length

/-- The vertices of two known nodes. -/
def Joins (t : TMIgraph) (p s : Node) (v w : Vertex) : Prop :=
  t.reverseNodeIndex[p]? = some v ∧ t.reverseNodeIndex[s]? = some w

theorem Joins.unique {t : TMIgraph} {p s : Node} {v w v' w' : Vertex} (joins : t.Joins p s v w)
    (others : t.Joins p s v' w') : v' = v ∧ w' = w :=
  ⟨Option.some.inj (others.1.symm.trans joins.1), Option.some.inj (others.2.symm.trans joins.2)⟩

theorem Joins.reaches_iff {t : TMIgraph} {p s : Node} {v w : Vertex} (joins : t.Joins p s v w) :
    (∃ v w, t.Joins p s v w ∧ t.graph.Reaches v w) ↔ t.graph.Reaches v w := by
  constructor
  · rintro ⟨v', w', others, reaches⟩
    obtain ⟨rfl, rfl⟩ := joins.unique others
    exact reaches
  · exact fun reaches => ⟨v, w, joins, reaches⟩

theorem exists_joins {t : TMIgraph} {p s : Node} (knownP : p ∈ t.reverseNodeIndex)
    (knownS : s ∈ t.reverseNodeIndex) : ∃ v w, t.Joins p s v w := by
  obtain ⟨v, head⟩ := mem_iff_exists.mp knownP
  obtain ⟨w, tail⟩ := mem_iff_exists.mp knownS
  exact ⟨v, w, head, tail⟩

theorem ready_readTopology {g : Graph} (hl : ∀ link ∈ g.edges, ∃ lid, Link.bits link = some lid)
    (hi : ∀ link ∈ g.edges, link.ends.2 < g.vertices.length) (nid rv : Node) :
    (readTopology g nid rv).Ready :=
  ⟨names_readTopology g nid rv, rfl, hl, hi⟩

/-- Parallel edges would share one entry of `freedLIDs`. -/
theorem SuccessfulRun.ready {t : TMIgraph} {g : Graph} (simple : g.Simple) {nid rv : Node}
    (run : SuccessfulRun (readTopology g nid rv) t) : t.Ready := by
  obtain ⟨kept, hr, nodes, -⟩ := run.kept simple
  refine ⟨nodes.names (names_readTopology g nid rv), hr,
    fun link hm => simple.labelled link (kept.only link hm), fun link hm => ?_⟩
  rw [nodes.vertices]
  exact (simple.inside link (kept.only link hm)).2

/-- Paths with as few edges as possible. -/
def shortest (t : TMIgraph) : Candidates where
  reaches p s := ∃ v w, t.Joins p s v w ∧ t.graph.Reaches v w
  nearest publishers p s := ∃ v w path, t.Joins p s v w ∧
    IsShortest (Linked t.graph.adjacency) v w path ∧
    ∀ q ∈ publishers, ∀ x walk, t.reverseNodeIndex[q]? = some x →
      IsWalk (Linked t.graph.adjacency) x w walk → path.length ≤ walk.length
  fid p s fid := ∃ v w path bits, t.Joins p s v w ∧
    IsShortest (Linked t.graph.adjacency) v w path ∧ Carries t.graph path bits ∧
    fid = bits ||| t.graph.ilid w

section

variable {t : TMIgraph} {p s : Node} {v w : Vertex} {pubs subscribers : TreeSet Node}

theorem Ready.walk_inside (ready : t.Ready) {path : List Vertex}
    (hk : v < t.graph.vertices.length) (walk : IsWalk (Linked t.graph.adjacency) v w path) :
    ∀ u ∈ path, u < t.graph.vertices.length := by
  intro u hm
  obtain ⟨rest, rfl⟩ := walk.eq_cons
  rcases mem_cons.mp hm with rfl | later
  · exact hk
  obtain ⟨x, hl⟩ := exists_step_to walk.chain u later
  obtain ⟨link, hp, ends⟩ := mem_map.mp hl
  have hb := ready.inside link hp
  rw [ends] at hb
  exact hb

theorem Ready.vertex (ready : t.Ready) (hk : t.reverseNodeIndex[p]? = some v) :
    v < t.graph.vertices.length ∧ t.nodeILID[p]? = some (t.graph.ilid v) := by
  obtain ⟨attributes, place, -, ilid⟩ := ready.names.vertex p v hk
  refine ⟨(List.getElem?_eq_some_iff.mp place).1, ?_⟩
  rw [ilid, Graph.ilid, place]

variable [ShortestPaths Vertex]

/-- The number of hops is that of a shortest path, whose identifiers the FID has. -/
theorem Ready.hops (ready : t.Ready) (joins : t.Joins p s v w) :
    ∃ m, t.calculateFIDHops p s 0 = .ok m ∧ ((m.numberOfHops = ⊤ ∧ ¬ t.graph.Reaches v w) ∨
        ∃ path bits, IsShortest (Linked t.graph.adjacency) v w path ∧
          m.numberOfHops = path.length ∧ Carries t.graph path bits ∧
          m.resultFID = bits ||| t.graph.ilid w ∧ t.calculateFID p s = .ok m.resultFID ∧
          ∃ names, path.mapM t.nameOf = .ok names ∧ m.path = pathText names) := by
  have answers := ShortestPaths.answers t.graph.adjacency v w
  obtain ⟨hk, -⟩ := ready.vertex joins.1
  obtain ⟨-, ilid⟩ := ready.vertex joins.2
  have assemble : ∀ names fid, (t.shortestPath v w).mapM t.nameOf = .ok names →
      t.orLIDs (t.shortestPath v w) 0 = .ok fid → t.calculateFIDHops p s 0 =
        .ok ⟨fid ||| t.graph.ilid w, if (t.shortestPath v w).length = 0 then ⊤
          else (t.shortestPath v w).length, pathText names⟩ := by
    intro names fid hn hl
    refine bind_ok_iff.mpr ⟨v, find_eq_ok.mpr joins.1, ?_⟩
    refine bind_ok_iff.mpr ⟨w, find_eq_ok.mpr joins.2, ?_⟩
    refine bind_ok_iff.mpr ⟨names, hn, bind_ok_iff.mpr ⟨fid, hl, ?_⟩⟩
    exact bind_ok_iff.mpr ⟨_, find_eq_ok.mpr ilid, rfl⟩
  by_cases hf : t.shortestPath v w = []
  · refine ⟨_, assemble [] 0 (by rw [hf]; rfl) (by rw [hf]; rfl), .inl ⟨?_, ?_⟩⟩
    · simp [hf]
    · exact answers.eq_nil_iff.mp hf
  have shortest := answers.isShortest hf
  obtain ⟨names, hn⟩ := mapM_nameOf (ready.walk_inside hk shortest.toIsWalk)
  obtain ⟨fid, hl⟩ := orTexts_returns ready.labelled shortest.chain 0
  obtain ⟨bits, hc, rfl⟩ := carries_of_orTexts hf hl
  have lids := (orLIDs_eq_orTexts ready.renumbered (t.shortestPath v w) 0).trans hl
  obtain ⟨attributes, -, place, same⟩ := ready.names.ilid joins.2
  refine ⟨_, assemble names _ hn lids, .inr ⟨_, bits, shortest, ?_, hc, ?_, ?_, names, hn, rfl⟩⟩
  · simp only [length_eq_zero_iff, if_neg hf]
    rfl
  · simp
  · refine bind_ok_iff.mpr ⟨v, find_eq_ok.mpr joins.1, ?_⟩
    refine bind_ok_iff.mpr ⟨w, find_eq_ok.mpr joins.2, bind_ok_iff.mpr ⟨_, hl, ?_⟩⟩
    rw [if_pos (length_pos_of_ne_nil hf), place, same]
    exact congrArg _ (setBits_eq_or _ _)

/-- Where there is a path, the FID made of the `LID` attributes is the one made of `edge_LID` and
`nodeID_iLID`, after every successful run of updates. -/
theorem fids_agree (g : Graph) (simple : g.Simple) (nodeID rvNodeID : Node) (t : TMIgraph)
    (run : SuccessfulRun (readTopology g nodeID rvNodeID) t) (source destination : Node)
    (start finish : Vertex) (head : t.reverseNodeIndex[source]? = some start)
    (tail : t.reverseNodeIndex[destination]? = some finish)
    (reaches : Relation.ReflTransGen (Linked t.graph.adjacency) start finish) :
    ∃ measured, t.calculateFIDHops source destination 0 = .ok measured ∧
      t.calculateFID source destination = .ok measured.resultFID := by
  have ready := run.ready simple
  obtain ⟨measured, returns, routes⟩ := ready.hops ⟨head, tail⟩
  obtain ⟨path, bits, -, -, -, -, agrees, -⟩ :=
    routes.resolve_left fun unreachable => unreachable.2 reaches
  exact ⟨measured, returns, agrees⟩

omit [ShortestPaths Vertex] in
theorem fids_agree_pair : let _ : ShortestPaths Vertex := breadthFirst
    ∃ t measured, SuccessfulRun pairStart t ∧ t.graph.adjacency = [(0, 1)] ∧
      t.calculateFIDHops (smallFragment 49) (smallFragment 50) 0 = .ok measured ∧
      t.calculateFID (smallFragment 49) (smallFragment 50) = .ok measured.resultFID := by
  intro _
  have one : outcome (updateGraph (fun _ => true) backwardFails)
      (fun t => t.graph.adjacency) pairStart = .ok [(0, 1)] := by
    decide +kernel
  obtain ⟨updated, t, hr, adjacency⟩ := exists_of_outcome one
  have run : SuccessfulRun pairStart t :=
    .call _ backwardFails .start hr fun ⟨_, _, refused⟩ => Bool.noConfusion refused
  have nodes := (run.kept samplePair_simple).2.2.1
  have hl : Linked t.graph.adjacency 0 1 := by
    rw [adjacency]
    exact mem_singleton_self _
  obtain ⟨measured, both⟩ := fids_agree samplePair samplePair_simple _ _ t run (smallFragment 49)
    (smallFragment 50) 0 1 (by rw [nodes.reverseNodeIndex]; exact pairStart_vertices.1)
    (by rw [nodes.reverseNodeIndex]; exact pairStart_vertices.2) (.single hl)
  exact ⟨t, measured, run, adjacency, both⟩

theorem Ready.hopsBetween_eq (ready : t.Ready) {path : List Vertex} (joins : t.Joins p s v w)
    (hs : IsShortest (Linked t.graph.adjacency) v w path) :
    hopsBetween (fun p s => t.calculateFIDHops p s 0) p s = path.length := by
  obtain ⟨m, hr, cases'⟩ := ready.hops joins
  rw [hopsBetween, hr]
  rcases cases' with ⟨-, unreachable⟩ | ⟨again, bits, other, same, -⟩
  · exact absurd hs.toIsWalk.reaches unreachable
  · exact same.trans (congrArg _ (other.length_eq hs))

variable (ready : t.Ready) (knownP : ∀ p ∈ pubs, p ∈ t.reverseNodeIndex)
  (knownS : ∀ s ∈ subscribers, s ∈ t.reverseNodeIndex)

include ready knownP knownS

theorem Ready.measures :
    Measures (fun p s => t.calculateFIDHops p s 0) t.shortest pubs subscribers := by
  apply Measures.of_paths
  intro p hi s hm
  obtain ⟨v, w, joins⟩ := exists_joins (knownP p hi) (knownS s hm)
  obtain ⟨m, hr, ⟨top, unreachable⟩ | ⟨path, bits, hs, hops, hc, val, -⟩⟩ := ready.hops joins
  · exact ⟨m, hr, .inl ⟨top, joins.reaches_iff.not.mpr unreachable⟩⟩
  refine ⟨m, hr, .inr ⟨?_, joins.reaches_iff.mpr hs.toIsWalk.reaches, v, w, path, bits,
    joins, hs, hc, val⟩⟩
  rw [hops]
  exact ENat.natCast_ne_top path.length

theorem Ready.nearest (hm : s ∈ subscribers) {pick : Node × Bitvector}
    (hp : choice (fun p s => t.calculateFIDHops p s 0) pubs.toList s = some pick) :
    t.shortest.nearest pubs pick.1 s := by
  obtain ⟨hi, -, hf, least⟩ := choice_eq_some hp
  have measures := ready.measures knownP knownS
  obtain ⟨v, w, path, bits, joins, hs, -⟩ := measures.fid pick.1 (TreeSet.mem_toList.mp hi) s hm hf
  refine ⟨v, w, path, joins, hs, fun q hk x walk idx isWalk => ?_⟩
  obtain ⟨other, shortestOther⟩ := exists_isShortest isWalk.reaches
  have compared := least q (TreeSet.mem_toList.mpr hk)
  rw [ready.hopsBetween_eq joins hs, ready.hopsBetween_eq ⟨idx, joins.2⟩ shortestOther,
    cast_le] at compared
  exact compared.trans (shortestOther.minimal walk isWalk)

end

/-- Every subscriber's internal link has a bit that no link and no other subscriber's has. -/
def MarkedSubscribers (t : TMIgraph) (subscribers : TreeSet Node) : Prop :=
  ∀ s ∈ subscribers, ∀ w, t.reverseNodeIndex[s]? = some w → ∃ bit,
    (t.graph.ilid w).getLsbD bit = true ∧
    (∀ link ∈ t.graph.edges, ∀ lid, Link.bits link = some lid → lid.getLsbD bit = false) ∧
    ∀ other ∈ subscribers, other ≠ s → ∀ x, t.reverseNodeIndex[other]? = some x →
      (t.graph.ilid x).getLsbD bit = false

/-- A FID made of bits of links and of the subscriber's internal link shows its mark. -/
theorem MarkedSubscribers.ownBits {t : TMIgraph} {subscribers : TreeSet Node}
    (marked : t.MarkedSubscribers subscribers)
    (knownS : ∀ s ∈ subscribers, s ∈ t.reverseNodeIndex) {c : Candidates}
    (made : ∀ p s fid, c.fid p s fid → ∃ w bits, t.reverseNodeIndex[s]? = some w ∧
      fid = bits ||| t.graph.ilid w ∧ ∀ bit, (∀ link ∈ t.graph.edges, ∀ lid,
        Link.bits link = some lid → lid.getLsbD bit = false) → bits.getLsbD bit = false) :
    OwnBits c subscribers := by
  intro s hm
  obtain ⟨w, idx⟩ := mem_iff_exists.mp (knownS s hm)
  obtain ⟨bit, has, free, others⟩ := marked s hm w idx
  refine ⟨bit, fun p fid leads => ?_, fun other hi hd p fid leads => ?_⟩
  · obtain ⟨w', bits, same, rfl, -⟩ := made p s fid leads
    cases idx.symm.trans same
    rw [getLsbD_or, has, Bool.or_true]
  · obtain ⟨x, bits, place, rfl, clean⟩ := made p other fid leads
    rw [getLsbD_or, clean bit free, others other hi hd x place]
    rfl

section

variable {W : Type} [Add W] [Zero W] [LE W] [LightestPaths W]

/-- The identifiers of edges given by their numbers. -/
def edgeLIDs (g : Graph) (path : List Nat) : List Bitvector :=
  path.filterMap fun eid => g.edges[eid]?.bind Link.bits

/-- Paths with as little weight as possible, those that igraph finds. -/
def lightest (t : TMIgraph) (weights : Nat → W) : Candidates where
  reaches p s := ∃ v w, t.Joins p s v w ∧ t.graph.Reaches v w
  nearest publishers p s := ∃ v w path, t.Joins p s v w ∧
    LightestPaths.path weights t.graph.adjacency v w = some path ∧
    ∀ q ∈ publishers, ∀ x other, t.reverseNodeIndex[q]? = some x →
      LightestPaths.path weights t.graph.adjacency x w = some other → path.length ≤ other.length
  fid p s fid := ∃ v w path, t.Joins p s v w ∧
    IsLightest weights t.graph.adjacency v w path ∧
    fid = Masks.union (edgeLIDs t.graph path) ||| t.graph.ilid w

variable {t : TMIgraph} {p s : Node} {v w : Vertex} {weights : Nat → W}
  {publishers subscribers : TreeSet Node}

/-- A subscriber that is a publisher itself is served by no other one. -/
def Local (assign : Assignment) (publishers subscribers : TreeSet Node) : Prop :=
  ∀ s ∈ subscribers, s ∈ publishers → ∃ own, assign s = some (s, own)

theorem length_eq_zero {path : List Nat}
    (hf : LightestPaths.path weights t.graph.adjacency w w = some path) : path.length = 0 := by
  have answers := LightestPaths.answers weights t.graph.adjacency w w
  rw [hf] at answers
  rw [answers.toIsEdgePath.eq_nil]
  rfl

theorem orEdges_returns (hr : t.Renumbered)
    (hl : ∀ link ∈ t.graph.edges, ∃ lid, Link.bits link = some lid) {path : List Nat}
    (hk : ∀ eid ∈ path, ∃ ends, t.graph.adjacency[eid]? = some ends) (res : Bitvector) :
    t.orEdges path res = .ok (res ||| union (edgeLIDs t.graph path)) := by
  induction path generalizing res with
  | nil => simp [orEdges, edgeLIDs, pure, Except.pure]
  | cons eid rest ih =>
    obtain ⟨ends, place⟩ := hk eid mem_cons_self
    rw [Graph.adjacency, List.getElem?_map, map_eq_some_iff] at place
    obtain ⟨link, ht, -⟩ := place
    obtain ⟨lid, bits⟩ := hl link (mem_of_getElem? ht)
    have looked : t.lidOf eid = .ok lid := by
      rw [lidOf, hr, List.getElem?_map, ht, map_some, bits]
    have later := ih (fun other hm => hk other (mem_cons_of_mem _ hm)) (res ||| lid)
    refine bind_ok_iff.mpr ⟨res ||| lid, bind_ok_iff.mpr ⟨lid, looked, rfl⟩, ?_⟩
    have split : edgeLIDs t.graph (eid :: rest) = lid :: edgeLIDs t.graph rest := by
      simp [edgeLIDs, ht, bits]
    rw [← orEdges, later, split, union_cons, BitVec.or_assoc]

theorem Names.injective (names : t.Names) {node other : Node}
    (idx : t.reverseNodeIndex[node]? = some v) (same : t.reverseNodeIndex[other]? = some v) :
    node = other := by
  obtain ⟨attributes, place, hn, -⟩ := names.vertex node v idx
  obtain ⟨_, ha, otherNamed, -⟩ := names.vertex other v same
  cases place.symm.trans ha
  exact hn.symm.trans otherNamed

/-- The number of hops is that of the edges of the path found, but one from a node to itself. -/
theorem Ready.weightedHops (ready : t.Ready) (weights : Nat → W) (joins : t.Joins p s v w) :
    ∃ m, t.calculateFIDWeighted weights p s 0 = .ok m ∧
      match path weights t.graph.adjacency v w with
      | none => m.numberOfHops = ⊤ ∧ ¬ t.graph.Reaches v w
      | some path => m.numberOfHops = (if p = s then 1 else path.length : ℕ∞) ∧
          m.resultFID = union (edgeLIDs t.graph path) ||| t.graph.ilid w := by
  have answers := answers weights t.graph.adjacency v w
  obtain ⟨hk, -⟩ := ready.vertex joins.1
  obtain ⟨-, ilid⟩ := ready.vertex joins.2
  have assemble : ∀ names fid, (match path weights t.graph.adjacency v w with
      | none => []
      | some path => v :: targets t.graph.adjacency path).mapM t.nameOf = .ok names →
      t.orEdges ((path weights t.graph.adjacency v w).getD []) 0 = .ok fid →
      t.calculateFIDWeighted weights p s 0 = .ok ⟨fid ||| t.graph.ilid w, if p = s then 1 else
        if ((path weights t.graph.adjacency v w).getD []).length = 0 then ⊤
        else ((path weights t.graph.adjacency v w).getD []).length,
        pathText names⟩ := by
    intro names fid hn hl
    refine bind_ok_iff.mpr ⟨v, find_eq_ok.mpr joins.1, ?_⟩
    refine bind_ok_iff.mpr ⟨w, find_eq_ok.mpr joins.2, ?_⟩
    refine bind_ok_iff.mpr ⟨names, hn, bind_ok_iff.mpr ⟨fid, hl, ?_⟩⟩
    exact bind_ok_iff.mpr ⟨_, find_eq_ok.mpr ilid, rfl⟩
  cases hf : path weights t.graph.adjacency v w with
  | none =>
    rw [hf] at answers
    have hd : p ≠ s := by
      rintro rfl
      cases joins.1.symm.trans joins.2
      exact answers .refl
    refine ⟨_, assemble [] 0 (by rw [hf]; rfl) (by rw [hf]; rfl), ?_, answers⟩
    simp [hf, hd]
  | some path =>
    rw [hf] at answers
    have hi : ∀ u ∈ v :: targets t.graph.adjacency path, u < t.graph.vertices.length := by
      intro u hm
      rcases mem_cons.mp hm with rfl | later
      · exact hk
      obtain ⟨eid, -, place⟩ := mem_filterMap.mp later
      rw [Graph.adjacency, List.getElem?_map, Option.map_map, Option.map_eq_some_iff] at place
      obtain ⟨link, ht, rfl⟩ := place
      exact ready.inside link (mem_of_getElem? ht)
    obtain ⟨names, hn⟩ := mapM_nameOf hi
    have hl := orEdges_returns ready.renumbered ready.labelled answers.walk.edge 0
    refine ⟨_, assemble names _ (by rw [hf]; exact hn) (by rw [hf]; exact hl), ?_, by simp⟩
    by_cases same : p = s
    · simp [same]
    have moves : path ≠ [] := by
      rintro rfl
      obtain rfl := answers.walk.eq_of_nil
      exact same (ready.names.injective joins.1 joins.2)
    simp [hf, same, moves]

section

variable (ready : t.Ready) (knownP : ∀ p ∈ publishers, p ∈ t.reverseNodeIndex)
  (knownS : ∀ s ∈ subscribers, s ∈ t.reverseNodeIndex)

include ready knownP knownS

theorem Ready.weightedMeasures (weights : Nat → W) :
    Measures (fun p s => t.calculateFIDWeighted weights p s 0) (t.lightest weights) publishers
      subscribers := by
  apply Measures.of_paths
  intro p hi s hm
  obtain ⟨v, w, joins⟩ := exists_joins (knownP p hi) (knownS s hm)
  obtain ⟨m, hr, hops⟩ := ready.weightedHops weights joins
  have answers := answers weights t.graph.adjacency v w
  refine ⟨m, hr, ?_⟩
  cases hf : path weights t.graph.adjacency v w with
  | none =>
    rw [hf] at hops
    exact .inl ⟨hops.1, joins.reaches_iff.not.mpr hops.2⟩
  | some path =>
    rw [hf] at hops answers
    refine .inr ⟨?_, joins.reaches_iff.mpr answers.walk.reaches, v, w, path, joins, answers, hops.2⟩
    rw [hops.1]
    split
    · exact ENat.one_ne_top
    · exact ENat.natCast_ne_top path.length

theorem Ready.weightedNearest (hm : s ∈ subscribers)
    (home : Local (choice (fun p s => t.calculateFIDWeighted weights p s 0) publishers.toList)
      publishers subscribers) {pick : Node × Bitvector}
    (hp : choice (fun p s => t.calculateFIDWeighted weights p s 0) publishers.toList s =
      some pick) : (t.lightest weights).nearest publishers pick.1 s := by
  obtain ⟨hi, -, first, least⟩ := choice_eq_some hp
  have hk := TreeSet.mem_toList.mp hi
  have measures := ready.weightedMeasures knownP knownS weights
  obtain ⟨v, w, joins, -⟩ := (measures.reached pick.1 hk s hm).mp first
  have hops : ∀ {q : Node} {x : Vertex} {other : List Nat}, t.Joins q s x w →
      path weights t.graph.adjacency x w = some other →
        hopsBetween (fun p s => t.calculateFIDWeighted weights p s 0) q s =
          (if q = s then 1 else other.length : ℕ∞) := by
    intro q x other joined hf
    obtain ⟨m, hr, count⟩ := ready.weightedHops weights joined
    rw [hf] at count
    rw [hopsBetween, hr]
    exact count.1
  cases hf : path weights t.graph.adjacency v w with
  | none =>
    obtain ⟨m, hr, count⟩ := ready.weightedHops weights joins
    rw [hf] at count
    rw [hopsBetween, hr] at first
    exact absurd count.1 first
  | some path =>
    refine ⟨v, w, path, joins, hf, fun q hi' x other idx foundOther => ?_⟩
    by_cases published : s ∈ publishers
    · -- The subscriber itself was chosen, at no distance.
      obtain ⟨own, hc⟩ := home s hm published
      cases hp.symm.trans hc
      cases joins.1.symm.trans joins.2
      rw [length_eq_zero hf]
      exact zero_le _
    · have away : ∀ q ∈ publishers, q ≠ s := fun q mine same => published (same ▸ mine)
      have compared := least q (TreeSet.mem_toList.mpr hi')
      rw [hops joins hf, hops ⟨idx, joins.2⟩ foundOther, if_neg (away pick.1 hk),
        if_neg (away q hi'), cast_le] at compared
      exact compared

/-- A publisher that subscribes with a bit of its own may not be served by another. -/
theorem Ready.local_of_covered (own : OwnBits (t.lightest weights) subscribers)
    {res : PublisherFIDs} {paths : PathVectors}
    (hr : t.calculateFIDMulticastWeighted weights publishers subscribers = .ok (res, paths))
    (covered : Covered (t.lightest weights) publishers subscribers res) :
    Local (choice (fun p s => t.calculateFIDWeighted weights p s 0) publishers.toList) publishers
      subscribers := by
  intro s hm published
  obtain ⟨bit, has, others⟩ := own s hm
  obtain ⟨w, idx⟩ := mem_iff_exists.mp (knownS s hm)
  have itself : (t.lightest weights).reaches s s := ⟨w, w, ⟨idx, idx⟩, .refl⟩
  obtain ⟨p, -, ⟨v, w', path, joins, hf, least⟩, fid, val, hp⟩ :=
    covered.bit hm ⟨s, published, itself⟩ bit has
  cases idx.symm.trans joins.2
  have answers := answers weights t.graph.adjacency v w
  have direct := LightestPaths.answers weights t.graph.adjacency w w
  cases home : LightestPaths.path weights t.graph.adjacency w w with
  | none =>
    rw [home] at direct
    exact absurd .refl direct
  | some empty =>
    have hb := least s published w empty idx home
    rw [length_eq_zero home, le_zero, length_eq_zero_iff] at hb
    rw [hf, hb] at answers
    obtain rfl := answers.walk.eq_of_nil
    obtain rfl := ready.names.injective joins.1 idx
    exact (ready.weightedMeasures knownP knownS weights).chosen_of_bit hm has others hr val hp

end

end

section

variable [ShortestPaths Vertex] {W : Type} [Add W] [Zero W] [LE W] [LightestPaths W]
variable (t : TMIgraph) (resilience : Bool) (weights : Nat → W)
variable (publishers subscribers : TreeSet Node)

/-- The call returns FIDs that cover the subscribers over shortest paths. -/
def CoversShortest :
    Prop :=
  ∃ result paths, t.calculateFIDMulticast resilience publishers subscribers = .ok (result, paths) ∧
    Covered t.shortest publishers subscribers result

/-- The call returns FIDs that cover the subscribers over weighted shortest paths. -/
def CoversLightest :
    Prop :=
  ∃ result paths, t.calculateFIDMulticastWeighted weights publishers subscribers =
      .ok (result, paths) ∧ Covered (t.lightest weights) publishers subscribers result

/-- The publishers that the loop over hop counts chooses. -/
def chosenShortest : Assignment :=
  choice (fun p s => t.calculateFIDHops p s 0) publishers.toList

/-- The publishers that the loop over weighted paths chooses. -/
def chosenLightest : Assignment :=
  choice (fun p s => t.calculateFIDWeighted weights p s 0) publishers.toList

/-- The FIDs cover exactly the subscribers that are reached when the loops are undisturbed by one
that is not, and the version with weights serves no publisher by another. If every internal link has
a bit of its own there is no other case. -/
theorem multicast_covers_iff (t : TMIgraph) (ready : t.Ready) (resilience : Bool)
    (weights : Nat → W) (publishers subscribers : TreeSet Node)
    (knownP : ∀ p ∈ publishers, p ∈ t.reverseNodeIndex)
    (knownS : ∀ s ∈ subscribers, s ∈ t.reverseNodeIndex) :
    (Undisturbed (t.chosenShortest publishers) subscribers.toList →
      t.CoversShortest resilience publishers subscribers) ∧
    (Undisturbed (t.chosenLightest weights publishers) subscribers.toList ∧
        Local (t.chosenLightest weights publishers) publishers subscribers →
      t.CoversLightest weights publishers subscribers) ∧ (t.MarkedSubscribers subscribers →
      (t.CoversShortest resilience publishers subscribers ↔
        Undisturbed (t.chosenShortest publishers) subscribers.toList) ∧
      (t.CoversLightest weights publishers subscribers ↔
        Undisturbed (t.chosenLightest weights publishers) subscribers.toList ∧
          Local (t.chosenLightest weights publishers) publishers subscribers)) := by
  have measures := ready.measures knownP knownS
  have weighted := ready.weightedMeasures knownP knownS weights
  have covers : Undisturbed (t.chosenShortest publishers) subscribers.toList →
      t.CoversShortest resilience publishers subscribers := fun calm =>
    measures.covered resilience (fun s hm pick hp =>
      ready.nearest knownP knownS hm hp) calm
  have coversWeighted : Undisturbed (t.chosenLightest weights publishers) subscribers.toList ∧
        Local (t.chosenLightest weights publishers) publishers subscribers →
      t.CoversLightest weights publishers subscribers := fun ⟨calm, home⟩ =>
    weighted.covered true (fun s hm pick hp =>
      ready.weightedNearest knownP knownS hm home hp) calm
  refine ⟨covers, coversWeighted, fun marked => ⟨⟨?_, covers⟩, ⟨?_, coversWeighted⟩⟩⟩
  · rintro ⟨res, paths, hr, covered⟩
    refine measures.undisturbed (marked.ownBits knownS ?_) hr covered
    rintro p s fid ⟨v, w, path, bits, joins, -, hc, val⟩
    exact ⟨w, bits, joins.2, val, fun bit free => hc.getLsbD free⟩
  rintro ⟨res, paths, hr, covered⟩
  have own : OwnBits (t.lightest weights) subscribers := by
    apply marked.ownBits knownS
    rintro p s fid ⟨v, w, path, joins, -, val⟩
    refine ⟨w, _, joins.2, val, fun bit free => ?_⟩
    rw [← Bool.not_eq_true, getLsbD_union]
    rintro ⟨lid, hm, has⟩
    obtain ⟨eid, -, hf⟩ := mem_filterMap.mp hm
    obtain ⟨link, ht, label⟩ := bind_eq_some_iff.mp hf
    rw [free link (mem_of_getElem? ht) lid label] at has
    cases has
  exact ⟨weighted.undisturbed own hr covered, ready.local_of_covered knownP knownS own hr covered⟩

end

theorem exists_edgeWalk {edges : List (Vertex × Vertex)} {s d : Vertex} {path : List Vertex}
    (walk : IsWalk (Linked edges) s d path) :
    ∃ nums, EdgeWalk edges d s nums ∧ s :: targets edges nums = path := by
  induction path generalizing s with
  | nil => exact absurd rfl walk.ne_nil
  | cons u tail ih =>
    cases tail with
    | nil =>
      obtain ⟨rfl, rfl⟩ := isWalk_singleton_iff.mp walk
      exact ⟨[], .here, rfl⟩
    | cons =>
      obtain ⟨rfl, hl, later⟩ := isWalk_cons_cons.mp walk
      obtain ⟨nums, edgeWalk, seen⟩ := ih later
      obtain ⟨eid, edge⟩ := mem_iff_getElem?.mp hl
      refine ⟨eid :: nums, .step edge edgeWalk, ?_⟩
      rw [targets, filterMap_cons, edge]
      exact congrArg _ seen

theorem nonempty_lightestPaths : Nonempty (LightestPaths ℕ) := by
  classical
  have exist : ∀ (weights : Nat → ℕ) (edges : List (Vertex × Vertex)) (s d : Vertex),
      Relation.ReflTransGen (Linked edges) s d → ∃ path, IsLightest weights edges s d path := by
    intro weights edges s d reaches
    obtain ⟨walk, shortest⟩ := exists_isShortest reaches
    obtain ⟨nums, edgeWalk, seen⟩ := exists_edgeWalk shortest.toIsWalk
    have some_weight : ∃ n path, IsEdgePath edges s d path ∧ totalWeight weights path = n :=
      ⟨_, nums, ⟨edgeWalk, seen ▸ shortest.nodup⟩, rfl⟩
    obtain ⟨path, isPath, least⟩ := Nat.find_spec some_weight
    refine ⟨path, isPath, fun other otherPath => ?_⟩
    rw [least]
    exact Nat.find_min' some_weight ⟨other, otherPath, rfl⟩
  refine ⟨⟨fun weights edges s d => if reaches : Relation.ReflTransGen (Linked edges) s d then
    some (exist weights edges s d reaches).choose else none, fun weights edges s d => ?_⟩⟩
  by_cases reaches : Relation.ReflTransGen (Linked edges) s d
  · simp only [dif_pos reaches]
    exact (exist weights edges s d reaches).choose_spec
  · simp only [dif_neg reaches]
    exact reaches

/-- The first node has links to the next two, and the last one has none. -/
def forkLinks : Graph where
  vertices := [⟨nodeName 49, lidText 0⟩, ⟨nodeName 50, lidText 1⟩, ⟨nodeName 51, lidText 2⟩,
    ⟨nodeName 52, lidText 3⟩]
  edges := [⟨(0, 1), some (lidText 4)⟩, ⟨(0, 2), some (lidText 5)⟩]

def forkStart : TMIgraph := readTopology forkLinks (nodeName 49) (nodeName 49)

theorem forkStart_ready : forkStart.Ready := by
  apply ready_readTopology
  · intro link hm
    rcases mem_pair.mp hm with rfl | rfl
    · exact ⟨_, rfl⟩
    · exact ⟨_, rfl⟩
  · decide

theorem forkStart_index : [nodeName 49, nodeName 50, nodeName 51, nodeName 52].map
    (fun node => forkStart.reverseNodeIndex[node]?) = [some 0, some 1, some 2, some 3] := by
  decide +kernel

def forkPublishers : TreeSet Node := TreeSet.ofList [nodeName 49]

/-- The nodes that the first one has links to. -/
def reachedSubscribers : TreeSet Node := TreeSet.ofList [nodeName 50, nodeName 51]

def forkSubscribers : TreeSet Node := TreeSet.ofList [nodeName 50, nodeName 51, nodeName 52]

theorem toList_forkPublishers : forkPublishers.toList = [nodeName 49] := by decide +kernel

theorem toList_reachedSubscribers :
    reachedSubscribers.toList = [nodeName 50, nodeName 51] := by decide +kernel

theorem toList_forkSubscribers :
    forkSubscribers.toList = [nodeName 50, nodeName 51, nodeName 52] := by decide +kernel

theorem forkStart_knows {node : Node}
    (hm : node ∈ [nodeName 49, nodeName 50, nodeName 51, nodeName 52]) :
    node ∈ forkStart.reverseNodeIndex := by
  have idx := forkStart_index
  simp only [map_cons, map_nil, List.cons.injEq, and_true] at idx
  simp only [mem_cons, not_mem_nil, or_false] at hm
  rcases hm with rfl | rfl | rfl | rfl
  · exact mem_iff_exists.mpr ⟨0, idx.1⟩
  · exact mem_iff_exists.mpr ⟨1, idx.2.1⟩
  · exact mem_iff_exists.mpr ⟨2, idx.2.2.1⟩
  · exact mem_iff_exists.mpr ⟨3, idx.2.2.2⟩

theorem forkPublishers_known : ∀ p ∈ forkPublishers, p ∈ forkStart.reverseNodeIndex := by
  intro p hm
  rw [← TreeSet.mem_toList, toList_forkPublishers] at hm
  exact forkStart_knows (mem_append_left [nodeName 50, nodeName 51, nodeName 52] hm)

theorem forkSubscribers_known : ∀ s ∈ forkSubscribers, s ∈ forkStart.reverseNodeIndex := by
  intro s hm
  rw [← TreeSet.mem_toList, toList_forkSubscribers] at hm
  exact forkStart_knows (mem_cons_of_mem _ hm)

theorem reachedSubscribers_known : ∀ s ∈ reachedSubscribers, s ∈ forkStart.reverseNodeIndex := by
  intro s hm
  rw [← TreeSet.mem_toList, toList_reachedSubscribers] at hm
  refine forkStart_knows (mem_cons_of_mem _ ?_)
  exact mem_append_left [nodeName 52] hm

/-- The FID to the subscriber before the unreachable one takes the place of all that the publisher
has. -/
theorem unreachable_subscriber_disturbs : let _ : ShortestPaths Vertex := breadthFirst
    forkStart.Ready ∧ (∀ p ∈ forkPublishers, p ∈ forkStart.reverseNodeIndex) ∧
      (∀ s ∈ forkSubscribers, s ∈ forkStart.reverseNodeIndex) ∧
      ¬ forkStart.CoversShortest false forkPublishers forkSubscribers := by
  intro _
  refine ⟨forkStart_ready, forkPublishers_known, forkSubscribers_known, ?_⟩
  rintro ⟨res, paths, hr, covered⟩
  have seen : (forkStart.calculateFIDMulticast false forkPublishers forkSubscribers).map
      (fun results => results.1[nodeName 49]?) =
        .ok (some (some (twoPow 256 5 ||| twoPow 256 2))) := by
    simp only [calculateFIDMulticast, forkStart, readTopology, bits_eq_value, ofText_eq_value]
    decide +kernel
  rw [hr] at seen
  have entry : res[nodeName 49]? = some (some (twoPow 256 5 ||| twoPow 256 2)) := Except.ok.inj seen
  have idx := forkStart_index
  simp only [map_cons, map_nil, List.cons.injEq, and_true] at idx
  have hm : nodeName 50 ∈ forkSubscribers := by
    rw [← TreeSet.mem_toList, toList_forkSubscribers]
    exact mem_cons_self
  have published : nodeName 49 ∈ forkPublishers := by
    rw [← TreeSet.mem_toList, toList_forkPublishers]
    exact mem_cons_self
  have hl : Linked forkStart.graph.adjacency 0 1 := mem_cons_self
  obtain ⟨p, hi, -, fid, val, hp⟩ := covered.bit hm
    ⟨nodeName 49, published, 0, 1, ⟨idx.1, idx.2.1⟩, .single hl⟩ 1 (by
      rintro p fid ⟨v, w, path, bits, joins, -, -, rfl⟩
      cases idx.2.1.symm.trans joins.2
      have own : (forkStart.graph.ilid 1).getLsbD 1 = true := by
        change (ofText (lidText 1)).getLsbD 1 = true
        rw [ofText_eq_value]
        decide +kernel
      rw [getLsbD_or, own, Bool.or_true])
  rw [← TreeSet.mem_toList, toList_forkPublishers, mem_singleton] at hi
  subst hi
  cases entry.symm.trans val
  exact absurd hp (by decide)

theorem multicast_covers_fork : let _ : ShortestPaths Vertex := breadthFirst
    ∃ _ : LightestPaths ℕ, forkStart.CoversShortest false forkPublishers reachedSubscribers ∧
      (forkStart.MarkedSubscribers reachedSubscribers →
        (forkStart.CoversLightest (fun _ => 1) forkPublishers reachedSubscribers ↔
          Undisturbed (forkStart.chosenLightest (fun _ => 1) forkPublishers)
            reachedSubscribers.toList ∧
          Local (forkStart.chosenLightest (fun _ => 1) forkPublishers) forkPublishers
            reachedSubscribers)) := by
  intro _
  obtain ⟨weighted⟩ := nonempty_lightestPaths
  have hs : (reachedSubscribers.toList.all fun s =>
      (forkStart.chosenShortest forkPublishers s).isSome) = true := by
    rw [toList_reachedSubscribers]
    simp only [chosenShortest, forkStart, readTopology, bits_eq_value, ofText_eq_value]
    decide +kernel
  have calm : Undisturbed (forkStart.chosenShortest forkPublishers) reachedSubscribers.toList := by
    intro before s after split hu
    have hc := all_eq_true.mp hs s (by rw [split]; simp)
    rw [hu] at hc
    cases hc
  have whole := multicast_covers_iff forkStart forkStart_ready false (fun _ => (1 : ℕ))
    forkPublishers reachedSubscribers forkPublishers_known reachedSubscribers_known
  exact ⟨weighted, whole.1 calm, fun marked => (whole.2.2 marked).2⟩

end TMIgraph

end Blackadder.Topology
