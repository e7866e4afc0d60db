import Blackadder.Topology.Coverage

namespace Blackadder.Topology

open Std (TreeMap TreeSet)
open List EdgeList NestedMap Walks

/-- `map<string, string>`. -/
abbrev Paths : Type := TreeMap Node (List UInt8)

namespace TMIgraph

theorem getElem?_insertIfNew_visited {υ : Type} {map : TreeMap Node υ} {val : υ}
    {seen : List Node} (hh : ∀ s, map[s]? = if s ∈ seen then some val else none) (node s : Node) :
    (map.insertIfNew node val)[s]? = if s ∈ seen ++ [node] then some val else none := by
  rw [getElem?_insertIfNew, hh s]
  by_cases before : s ∈ seen
  · rw [if_pos before, if_pos (mem_append_left _ before), ite_self]
  by_cases same : s = node
  · have hf : node ∉ map := by simp [mem_iff_exists, hh node, same ▸ before]
    rw [same, if_pos ⟨rfl, hf⟩, if_pos (by simp)]
  · rw [if_neg fun both => same both.1, if_neg before, if_neg (by simp [before, same])]

variable [ShortestPaths Vertex]
variable (t : TMIgraph) (subscriber publisher : Node) (subscribers : TreeSet Node)
variable (result : PublisherFIDs) (paths : Paths)

/-- The measure of the other loop, with the roles of the nodes exchanged. -/
def hopsFrom : Except Fault Measured :=
  t.calculateFIDHops publisher subscriber 0

/-- The body of the loop of `UcalculateFID`. The minimum is found as in the loop over publishers. -/
def trySubscriber
    (state : (ℕ∞ × Best) × PublisherFIDs × Paths) (subscriber : Node) :
    Except Fault ((ℕ∞ × Best) × PublisherFIDs × Paths) := do
  let best ← tryPublisher t.hopsFrom true publisher state.1 subscriber
  .ok (best, state.2.1.insertIfNew subscriber none, state.2.2.insertIfNew subscriber [])

def ucalculateFID :
    Except Fault (PublisherFIDs × Paths) := do
  let ((_, best), result, paths) ←
    subscribers.toList.foldlM (t.trySubscriber publisher) ((⊤, ⟨none, 0, []⟩), ∅, ∅)
  match best.publisher with
  | none => .ok (result, paths)
  | some subscriber =>
    .ok (result.insert subscriber (some best.fid), paths.insert subscriber best.path)

/-- A node has no FID and no path. Only the subscribers have entries. -/
def Unserved (s : Node) :
    Prop :=
  result[s]? = (if s ∈ subscribers then some none else none) ∧
    paths[s]? = if s ∈ subscribers then some [] else none

/-- A subscriber has a FID and a shortest path, no longer than any to another subscriber. -/
def ServedNearest (best : Node) : Prop :=
  ∃ v w path bits names, t.Joins publisher best v w ∧
    IsShortest (Linked t.graph.adjacency) v w path ∧ Carries t.graph path bits ∧
    path.mapM t.nameOf = .ok names ∧ result[best]? = some (some (bits ||| t.graph.ilid w)) ∧
    paths[best]? = some (pathText names) ∧
    ∀ s ∈ subscribers, ∀ x walk, t.reverseNodeIndex[s]? = some x →
      IsWalk (Linked t.graph.adjacency) v x walk → path.length ≤ walk.length

/-- What the loop has found after some subscribers. -/
structure Nearest (t : TMIgraph) (publisher : Node) (visited : List Node)
    (state : (ℕ∞ × Best) × PublisherFIDs × Paths) : Prop where
  chosen : Chosen t.hopsFrom visited publisher ⟨none, 0, []⟩ state.1
  recorded : ∀ s, state.1.2.publisher = some s → ∃ m, t.hopsFrom s publisher = .ok m ∧
    state.1.2.fid = m.resultFID ∧ state.1.2.path = m.path
  fids : ∀ s, state.2.1[s]? = if s ∈ visited then some none else none
  paths : ∀ s, state.2.2[s]? = if s ∈ visited then some [] else none

variable {t : TMIgraph} {pub : Node} {subs : TreeSet Node} {seen : List Node}
  {state : (ℕ∞ × Best) × PublisherFIDs × Paths}

theorem Nearest.next (nearest : t.Nearest pub seen state) {sub : Node} {m : Measured}
    (hr : t.hopsFrom sub pub = .ok m) : ∃ next, t.trySubscriber pub state sub = .ok next ∧
      t.Nearest pub (seen ++ [sub]) next := by
  obtain ⟨best, tried, hc⟩ : ∃ best, tryPublisher t.hopsFrom true pub state.1 sub =
    .ok best ∧ _ := nearest.chosen.next hr
  refine ⟨_, bind_ok_iff.mpr ⟨best, tried, rfl⟩, hc, fun s hn => ?_,
    getElem?_insertIfNew_visited nearest.fids sub, getElem?_insertIfNew_visited nearest.paths sub⟩
  obtain ⟨m', ha, ends⟩ := bind_ok_iff.mp tried
  cases hr.symm.trans ha
  split at ends
  · cases ends
    cases hn
    exact ⟨m, hr, rfl, rfl⟩
  · cases ends
    exact nearest.recorded s hn

variable {s : Node}

theorem Ready.hopsFrom_eq (ready : t.Ready) {v w : Vertex} {path : List Vertex}
    (joins : t.Joins pub s v w) (hs : IsShortest (Linked t.graph.adjacency) v w path) :
    hopsBetween t.hopsFrom s pub = path.length :=
  ready.hopsBetween_eq joins hs

/-- The subscriber with the fewest hops is at the end of a path that is not longer than another. -/
theorem Nearest.served (ready : t.Ready) (publishes : pub ∈ t.reverseNodeIndex)
    (hk : ∀ s ∈ subs, s ∈ t.reverseNodeIndex) (nearest : t.Nearest pub subs.toList state)
    (hc : choice t.hopsFrom subs.toList pub = some (s, state.1.2.fid))
    (hn : state.1.2.publisher = some s) : s ∈ subs ∧ t.ServedNearest pub subs
      (state.2.1.insert s (some state.1.2.fid)) (state.2.2.insert s state.1.2.path) s := by
  obtain ⟨hi, -, hf, least⟩ := choice_eq_some hc
  have hm := TreeSet.mem_toList.mp hi
  obtain ⟨v, w, joins⟩ := exists_joins publishes (hk s hm)
  obtain ⟨m, hr, fid, text⟩ := nearest.recorded s hn
  obtain ⟨m', ha, ⟨top, -⟩ | ⟨path, bits, hs, -, cases, val, -, names, visits, short⟩⟩ :=
    ready.hops joins
  · rw [hopsBetween, hopsFrom, ha] at hf
    exact absurd top hf
  obtain rfl : m = m' := Except.ok.inj (hr.symm.trans ha)
  refine ⟨hm, v, w, path, bits, names, joins, hs, cases, visits, ?_, ?_, ?_⟩
  · rw [TreeMap.getElem?_insert_self, fid, val]
  · rw [TreeMap.getElem?_insert_self, text, short]
  · intro q known x walk idx isWalk
    obtain ⟨other, shortestOther⟩ := exists_isShortest isWalk.reaches
    have compared := least q (TreeSet.mem_toList.mpr known)
    rw [ready.hopsFrom_eq joins hs, ready.hopsFrom_eq ⟨joins.1, idx⟩ shortestOther,
      Nat.cast_le] at compared
    exact compared.trans (shortestOther.minimal walk isWalk)

/-- Exactly one subscriber gets a FID, if one is reached: a nearest one. -/
theorem unicast_nearest (t : TMIgraph) (ready : t.Ready) (publisher : Node)
    (knownP : publisher ∈ t.reverseNodeIndex) (subscribers : TreeSet Node)
    (knownS : ∀ s ∈ subscribers, s ∈ t.reverseNodeIndex) :
    ∃ result paths, t.ucalculateFID publisher subscribers = .ok (result, paths) ∧
      ((∃ s ∈ subscribers, t.shortest.reaches publisher s) →
        ∃ best ∈ subscribers, t.ServedNearest publisher subscribers result paths best ∧
          ∀ s, s ≠ best → Unserved subscribers result paths s) ∧
      ((∀ s ∈ subscribers, ¬ t.shortest.reaches publisher s) →
        ∀ s, Unserved subscribers result paths s) := by
  obtain ⟨⟨⟨least, found⟩, result, paths⟩, hl, nearest⟩ :=
    except_foldlM_returns subscribers.toList (t.Nearest publisher) (fun seen s rest state split
      nearest => by
        obtain ⟨v, w, joins⟩ :=
          exists_joins knownP (knownS s (TreeSet.mem_toList.mp (by simp [split])))
        obtain ⟨m, hr, -⟩ := ready.hops joins
        exact nearest.next hr) ((⊤, ⟨none, 0, []⟩), ∅, ∅)
      ⟨.inl ⟨rfl, nofun⟩, nofun, fun s => by simp, fun s => by simp⟩
  have hu : ∀ s, Unserved subscribers result paths s := by
    intro s
    simp only [Unserved, ← TreeSet.mem_toList]
    exact ⟨nearest.fids s, nearest.paths s⟩
  rcases nearest.chosen.choice with ⟨-, old, none⟩ | ⟨best, hc, hn, hf⟩
  · cases old
    refine ⟨result, paths, bind_ok_iff.mpr ⟨_, hl, rfl⟩, ?_, fun _ => hu⟩
    rintro ⟨s, hm, v, w, joins, reached⟩
    obtain ⟨path, hs⟩ := exists_isShortest reached
    have top := none s (TreeSet.mem_toList.mpr hm)
    rw [ready.hopsFrom_eq joins hs] at top
    exact absurd top (ENat.natCast_ne_top path.length)
  · obtain ⟨hm, served⟩ := nearest.served ready knownP knownS hc hn
    refine ⟨result.insert best (some found.fid), paths.insert best found.path,
      bind_ok_iff.mpr ⟨_, hl, ?_⟩, fun _ => ?_, fun none => ?_⟩
    · change (match found.publisher with
        | Option.none => _
        | some subscriber => _) = _
      rw [hn]
    · refine ⟨best, hm, served, fun s hd => ?_⟩
      rw [Unserved, NestedMap.getElem?_insert, NestedMap.getElem?_insert, if_neg hd, if_neg hd]
      exact hu s
    · obtain ⟨v, w, path, -, -, joins, hs, -⟩ := served
      exact absurd ⟨v, w, joins, hs.toIsWalk.reaches⟩ (none best hm)

omit [ShortestPaths Vertex] in
theorem unicast_nearest_fork : let _ : ShortestPaths Vertex := breadthFirst
    ∃ res paths,
      forkStart.ucalculateFID (nodeName 49) reachedSubscribers = .ok (res, paths) ∧
      ∃ best ∈ reachedSubscribers,
        forkStart.ServedNearest (nodeName 49) reachedSubscribers res paths best ∧
        ∀ s, s ≠ best → Unserved reachedSubscribers res paths s := by
  intro _
  have src := forkStart_knows (mem_cons_self (a := nodeName 49))
  obtain ⟨res, paths, hr, served, -⟩ := unicast_nearest forkStart forkStart_ready
    (nodeName 49) src reachedSubscribers reachedSubscribers_known
  refine ⟨res, paths, hr, served ⟨nodeName 50, ?_, 0, 1, ?_, .single ?_⟩⟩
  · rw [← TreeSet.mem_toList, toList_reachedSubscribers]
    exact mem_cons_self
  · have idx := forkStart_index
    simp only [map_cons, List.cons.injEq] at idx
    exact ⟨idx.1, idx.2.1⟩
  · exact mem_cons_self

end TMIgraph

end Blackadder.Topology
