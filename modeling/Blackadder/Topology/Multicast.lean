import Blackadder.Topology.Routes

namespace Blackadder.Topology

open List

open Std (TreeMap TreeSet)
open EdgeList NestedMap Walks

/-- What outlives one subscriber. The publisher is `none` while it is the empty string. -/
structure Best where
  publisher : Option Node
  fid : Bitvector
  path : List UInt8

/-- `map<string, Bitvector *>`, with `none` for `NULL`. -/
abbrev PublisherFIDs : Type := TreeMap Node (Option Bitvector)

/-- `map<string, set<string> >`. -/
abbrev PathVectors : Type := TreeMap Node (TreeSet (List UInt8))

structure Progress where
  best : Best
  result : PublisherFIDs
  pathVectors : PathVectors

section

variable (measure : Node → Node → Except Fault Measured) (keepPaths : Bool)

/-- The body of the loop over the publishers. -/
def tryPublisher (subscriber : Node) (state : ℕ∞ × Best) (publisher : Node) :
    Except Fault (ℕ∞ × Best) := do
  let measured ← measure publisher subscriber
  if state.1 > measured.numberOfHops then
    .ok (measured.numberOfHops, ⟨some publisher, measured.resultFID,
      if keepPaths then measured.path else state.2.path⟩)
  else .ok state

/-- The path is added to those of the best publisher. -/
def recordPath (best : Best) (pathVectors : PathVectors) : PathVectors :=
  match best.publisher with
  | none => pathVectors
  | some publisher =>
    if pathVectors.isEmpty then pathVectors.insertIfNew publisher (TreeSet.ofList [best.path])
    else pathVectors.modify publisher fun paths => paths.insert best.path

/-- The FID is added to that of the best publisher, or replaces it. -/
def addFID (minimumNumberOfHops : ℕ∞) (best : Best) (result : PublisherFIDs) :
    Except Fault PublisherFIDs :=
  match best.publisher with
  | none => .error .endDereferenced
  | some publisher =>
    match result[publisher]? with
    | none => .error .endDereferenced
    | some none => .ok (result.insert publisher (some best.fid))
    | some (some existing) =>
      if minimumNumberOfHops = ⊤ then .ok (result.insert publisher (some best.fid))
      else .ok (result.insert publisher (some (existing ||| best.fid)))

/-- The body of the loop over the subscribers. -/
def serveSubscriber (publishers : List Node) (progress : Progress) (subscriber : Node) :
    Except Fault Progress := do
  let (minimumNumberOfHops, best) ←
    publishers.foldlM (tryPublisher measure keepPaths subscriber) (⊤, progress.best)
  let pathVectors := if keepPaths then recordPath best progress.pathVectors
    else progress.pathVectors
  let result ← addFID minimumNumberOfHops best progress.result
  .ok ⟨best, result, pathVectors⟩

/-- All publishers without a FID. -/
def noFIDs (publishers : List Node) : PublisherFIDs :=
  publishers.foldl (fun result publisher => result.insertIfNew publisher none) ∅

def noPaths (publishers : List Node) : PathVectors :=
  publishers.foldl (fun paths publisher => paths.insertIfNew publisher ∅) ∅

def serveAll (publishers subscribers : TreeSet Node) :
    Except Fault (PublisherFIDs × PathVectors) := do
  let progress ← subscribers.toList.foldlM (serveSubscriber measure keepPaths publishers.toList)
    ⟨⟨none, 0, []⟩, noFIDs publishers.toList, noPaths publishers.toList⟩
  .ok (progress.result, progress.pathVectors)

end

namespace TMIgraph

/-- `calculateFID(publishers, subscribers, result, path_vectors)`. -/
def calculateFIDMulticast [ShortestPaths Vertex] (t : TMIgraph) (resilience : Bool)
    (publishers subscribers : TreeSet Node) : Except Fault (PublisherFIDs × PathVectors) :=
  serveAll (fun publisher subscriber => t.calculateFIDHops publisher subscriber 0) resilience
    publishers subscribers

end TMIgraph

section

variable {W : Type}

/-- The numbers of edges that lead from one vertex to another. -/
inductive EdgeWalk (edges : List (Vertex × Vertex)) (d : Vertex) : Vertex → List Nat → Prop
  | here : EdgeWalk edges d d []
  | step {u v : Vertex} {eid : Nat} {rest : List Nat} (edge : edges[eid]? = some (u, v))
      (later : EdgeWalk edges d v rest) : EdgeWalk edges d u (eid :: rest)

/-- The vertices that edges lead to. -/
def targets (edges : List (Vertex × Vertex)) (path : List Nat) : List Vertex :=
  path.filterMap fun eid => edges[eid]?.map Prod.snd

/-- A walk that comes to no vertex twice. -/
structure IsEdgePath (edges : List (Vertex × Vertex)) (s d : Vertex) (path : List Nat) : Prop where
  walk : EdgeWalk edges d s path
  once : (s :: targets edges path).Nodup

def totalWeight [Add W] [Zero W] (weights : Nat → W) (path : List Nat) : W :=
  (path.map weights).sum

structure IsLightest [Add W] [Zero W] [LE W] (weights : Nat → W) (edges : List (Vertex × Vertex))
    (s d : Vertex) (path : List Nat) : Prop extends IsEdgePath edges s d path where
  minimal : ∀ other, IsEdgePath edges s d other →
    totalWeight weights path ≤ totalWeight weights other

/-- `igraph_get_shortest_paths_dijkstra` for one target: the edges of a path, `none` when there is
none. -/
class LightestPaths (W : Type) [Add W] [Zero W] [LE W] where
  path : (Nat → W) → List (Vertex × Vertex) → Vertex → Vertex → Option (List Nat)
  answers : ∀ weights edges s d, match path weights edges s d with
    | none => ¬ Relation.ReflTransGen (Linked edges) s d
    | some found => IsLightest weights edges s d found

end

namespace TMIgraph

section

variable {W : Type} [Add W] [Zero W] [LE W] [LightestPaths W]

/-- The loop over the edges of a path. -/
def orEdges (t : TMIgraph) (path : List Nat) (result : Bitvector) : Except Fault Bitvector :=
  path.foldlM (fun result eid => do
    let lid ← t.lidOf eid
    .ok (result ||| lid)) result

/-- `calculateFID_weighted(source, destination, resultFID, numberOfHops, path, weights)`. -/
def calculateFIDWeighted (t : TMIgraph) (weights : Nat → W) (source destination : Node)
    (resultFID : Bitvector) : Except Fault Measured := do
  let start ← t.vertexOf source
  let finish ← t.vertexOf destination
  let found := LightestPaths.path weights t.graph.adjacency start finish
  let vertices := match found with
    | none => []
    | some path => start :: targets t.graph.adjacency path
  let names ← vertices.mapM t.nameOf
  let path := found.getD []
  let result ← t.orEdges path resultFID
  let numberOfHops : ℕ∞ := if path.length = 0 then ⊤ else path.length
  let numberOfHops := if source = destination then 1 else numberOfHops
  let ilid ← find t.nodeILID destination
  .ok ⟨result ||| ilid, numberOfHops, pathText names⟩

/-- `calculateFID_weighted(publishers, subscribers, result, path_vectors, weights)`. -/
def calculateFIDMulticastWeighted (t : TMIgraph) (weights : Nat → W)
    (publishers subscribers : TreeSet Node) : Except Fault (PublisherFIDs × PathVectors) :=
  serveAll (fun publisher subscriber => t.calculateFIDWeighted weights publisher subscriber 0) true
    publishers subscribers

end

end TMIgraph

/-- Which publisher a subscriber is assigned to, with a FID between them. -/
abbrev Assignment : Type := Node → Option (Node × Bitvector)

variable (assign : Assignment) (subscribers : List Node) (publisher : Node)

/-- The FIDs of the subscribers that are assigned to a publisher. -/
def share : List Bitvector :=
  (subscribers.filterMap assign).filterMap fun pick =>
    if pick.1 = publisher then some pick.2 else none

/-- Their union, or `NULL`. -/
def combined :
    Option Bitvector :=
  if share assign subscribers publisher = [] then none
  else some (Masks.union (share assign subscribers publisher))

section

variable (measure : Node → Node → Except Fault Measured)

def hopsBetween (publisher subscriber : Node) : ℕ∞ :=
  match measure publisher subscriber with
  | .ok measured => measured.numberOfHops
  | .error _ => ⊤

def fidBetween (publisher subscriber : Node) : Bitvector :=
  match measure publisher subscriber with
  | .ok measured => measured.resultFID
  | .error _ => 0

/-- The first of the publishers that are nearest to a subscriber. -/
def choice (publishers : List Node) : Assignment := fun subscriber =>
  (publishers.find? fun publisher => hopsBetween measure publisher subscriber ≠ ⊤ &&
    publishers.all fun other => hopsBetween measure publisher subscriber ≤
      hopsBetween measure other subscriber).map fun publisher =>
        (publisher, fidBetween measure publisher subscriber)

/-- The last of the subscribers that some publisher reaches. -/
def lastServed : Option (Node × Bitvector) :=
  (subscribers.filterMap assign).getLast?

/-- Before each subscriber that is not reached comes one that is, and the publisher of the last such
one serves no other yet. -/
def Undisturbed : Prop :=
  ∀ before subscriber after, subscribers = before ++ subscriber :: after →
    assign subscriber = none → ∃ last, lastServed assign before = some last ∧
      share assign before last.1 = [last.2]

end

section

variable {measure : Node → Node → Except Fault Measured} {publishers : List Node}
  {subscriber : Node} {keepPaths : Bool}

/-- What the loop over the publishers leaves. -/
def Chosen (measure : Node → Node → Except Fault Measured) (publishers : List Node)
    (subscriber : Node) (old : Best) (state : ℕ∞ × Best) : Prop :=
  (state = (⊤, old) ∧ ∀ q ∈ publishers, hopsBetween measure q subscriber = ⊤) ∨
    ∃ earlier p later, publishers = earlier ++ p :: later ∧
      state.1 = hopsBetween measure p subscriber ∧ hopsBetween measure p subscriber ≠ ⊤ ∧
      state.2.publisher = some p ∧ state.2.fid = fidBetween measure p subscriber ∧
      (∀ q ∈ earlier, hopsBetween measure p subscriber < hopsBetween measure q subscriber) ∧
      ∀ q ∈ later, hopsBetween measure p subscriber ≤ hopsBetween measure q subscriber

theorem least_of_split {hops : Node → ℕ∞} {earlier later : List Node} {p : Node}
    (before : ∀ q ∈ earlier, hops p < hops q) (after : ∀ q ∈ later, hops p ≤ hops q) :
    ∀ q ∈ earlier ++ p :: later, hops p ≤ hops q :=
  forall_mem_append.mpr ⟨fun q early => (before q early).le, forall_mem_cons.mpr ⟨le_rfl, after⟩⟩

/-- One more publisher is tried. -/
theorem Chosen.next {old : Best} {state : ℕ∞ × Best} {measured : Measured} {pub : Node}
    (hc : Chosen measure publishers subscriber old state)
    (hr : measure pub subscriber = .ok measured) :
    ∃ next, tryPublisher measure keepPaths subscriber state pub = .ok next ∧
      Chosen measure (publishers ++ [pub]) subscriber old next := by
  have hops : hopsBetween measure pub subscriber = measured.numberOfHops := by
    rw [hopsBetween, hr]
  have fid : fidBetween measure pub subscriber = measured.resultFID := by
    rw [fidBetween, hr]
  have unfolded : tryPublisher measure keepPaths subscriber state pub =
      if state.1 > measured.numberOfHops then
        .ok (measured.numberOfHops, ⟨some pub, measured.resultFID,
          if keepPaths then measured.path else state.2.path⟩)
      else .ok state := by
    rw [tryPublisher, hr]
    rfl
  rw [unfolded]
  by_cases nearer : state.1 > measured.numberOfHops
  · rw [if_pos nearer]
    refine ⟨_, rfl, .inr ⟨publishers, pub, [], rfl, hops.symm, ?_, rfl, fid.symm, ?_, nofun⟩⟩
    · rw [hops]
      exact ne_top_of_lt nearer
    intro q hm
    rw [hops]
    rcases hc with ⟨rfl, all⟩ | ⟨earlier, p, later, rfl, minimum, -, -, -, before, after⟩
    · rw [all q hm]
      exact nearer
    · rw [minimum] at nearer
      exact lt_of_lt_of_le nearer (least_of_split before after q hm)
  · rw [if_neg nearer]
    refine ⟨state, rfl, ?_⟩
    rcases hc with ⟨rfl, all⟩ | ⟨earlier, p, later, rfl, minimum, hf, best⟩
    · refine .inl ⟨rfl, fun q hm => ?_⟩
      rcases mem_append.mp hm with early | last
      · exact all q early
      · rw [mem_singleton.mp last, hops]
        exact not_lt_top_iff.mp nearer
    · obtain ⟨hn, has, before, after⟩ := best
      refine .inr ⟨earlier, p, later ++ [pub], by simp, minimum, hf, hn, has, before,
        fun q hm => ?_⟩
      rcases mem_append.mp hm with early | last
      · exact after q early
      · rw [mem_singleton.mp last, hops, ← minimum]
        exact not_lt.mp nearer

theorem tryPublishers_spec (keepPaths : Bool)
    (total : ∀ p ∈ publishers, ∃ m, measure p subscriber = .ok m) (old : Best) :
    ∃ state, publishers.foldlM (tryPublisher measure keepPaths subscriber) (⊤, old) = .ok state ∧
      Chosen measure publishers subscriber old state := by
  apply except_foldlM_returns publishers fun visited => Chosen measure visited subscriber old
  · intro visited cur rest state split hc
    obtain ⟨measured, hr⟩ := total cur (by simp [split])
    exact hc.next hr
  · exact .inl ⟨rfl, nofun⟩

/-- The loop finds the first of the nearest publishers. -/
theorem Chosen.choice {old : Best} {state : ℕ∞ × Best}
    (hc : Chosen measure publishers subscriber old state) :
    (choice measure publishers subscriber = none ∧ state = (⊤, old) ∧
      ∀ q ∈ publishers, hopsBetween measure q subscriber = ⊤) ∨
      ∃ p, choice measure publishers subscriber = some (p, state.2.fid) ∧
        state.2.publisher = some p ∧ state.1 ≠ ⊤ := by
  rcases hc with ⟨rfl, all⟩ | ⟨earlier, p, later, rfl, minimum, hf, hn, has, before, after⟩
  · refine .inl ⟨?_, rfl, all⟩
    rw [Topology.choice, Option.map_eq_none_iff, List.find?_eq_none]
    intro q hm
    simp [all q hm]
  refine .inr ⟨p, ?_, hn, minimum ▸ hf⟩
  rw [Topology.choice, has, Option.map_eq_some_iff]
  refine ⟨p, ?_, rfl⟩
  rw [List.find?_eq_some_iff_append]
  refine ⟨?_, earlier, later, rfl, fun q early => ?_⟩
  · rw [Bool.and_eq_true, decide_eq_true_eq, all_eq_true]
    exact ⟨hf, fun q hm => decide_eq_true (least_of_split before after q hm)⟩
  · rw [Bool.not_eq_true', Bool.and_eq_false_imp, all_eq_false]
    exact fun _ => ⟨p, by simp, by simpa using before q early⟩

theorem choice_eq_some {pick : Node × Bitvector}
    (hp : choice measure publishers subscriber = some pick) :
    pick.1 ∈ publishers ∧ pick.2 = fidBetween measure pick.1 subscriber ∧
      hopsBetween measure pick.1 subscriber ≠ ⊤ ∧
      ∀ q ∈ publishers, hopsBetween measure pick.1 subscriber ≤ hopsBetween
        measure q subscriber := by
  rw [choice, Option.map_eq_some_iff] at hp
  obtain ⟨p, hf, rfl⟩ := hp
  have hi := List.find?_some hf
  rw [Bool.and_eq_true, decide_eq_true_eq, all_eq_true] at hi
  exact ⟨mem_of_find?_eq_some hf, rfl, hi.1, fun q hm =>
    of_decide_eq_true (hi.2 q hm)⟩

theorem choice_eq_none (total : ∀ p ∈ publishers, ∃ m, measure p subscriber = .ok m) :
    choice measure publishers subscriber = none ↔
      ∀ q ∈ publishers, hopsBetween measure q subscriber = ⊤ := by
  obtain ⟨state, -, hc⟩ := tryPublishers_spec false total ⟨none, 0, []⟩
  rcases hc.choice with ⟨none, -, all⟩ | ⟨p, hp, -⟩
  · exact iff_of_true none all
  · obtain ⟨hm, -, hf, -⟩ := choice_eq_some hp
    refine iff_of_false (by rw [hp]; nofun) fun all => hf (all p hm)

end

variable {last : Node × Bitvector}

section

variable {assign : Assignment} {visited : List Node} {sub publisher : Node}

theorem share_append : share assign (visited ++ [sub]) publisher =
    share assign visited publisher ++ share assign [sub] publisher := by
  simp [share]

variable {pick : Node × Bitvector}

theorem share_singleton (hp : assign sub = some pick) :
    share assign [sub] publisher = if pick.1 = publisher then [pick.2] else [] := by
  by_cases same : pick.1 = publisher
  · simp [share, hp, same]
  · simp [share, hp, same]

theorem combined_other (hp : assign sub = some pick) (other : pick.1 ≠ publisher) :
    combined assign (visited ++ [sub]) publisher = combined assign visited publisher := by
  rw [combined, combined, share_append, share_singleton hp, if_neg other, append_nil]

theorem combined_same {fid : Bitvector} (hp : assign sub = some (publisher, fid)) :
    combined assign (visited ++ [sub]) publisher =
      some ((combined assign visited publisher).elim fid (· ||| fid)) := by
  rw [combined, share_append, share_singleton hp, combined, Masks.union_append]
  by_cases he : share assign visited publisher = []
  · simp [he]
  · simp [he]

theorem combined_none (hu : assign sub = none) :
    combined assign (visited ++ [sub]) publisher = combined assign visited publisher := by
  have ha : share assign [sub] publisher = [] := by simp [share, hu]
  rw [combined, combined, share_append, ha, append_nil]

theorem lastServed_append : lastServed assign (visited ++ [sub]) =
    (assign sub).or (lastServed assign visited) := by
  rw [lastServed, lastServed]
  cases hp : assign sub with
  | none => simp [hp]
  | some pick => simp [hp]

theorem exists_of_lastServed (hs : lastServed assign visited = some last) :
    ∃ s ∈ visited, assign s = some last :=
  mem_filterMap.mp (mem_of_getLast? hs)

end

/-- The publisher and FID that the double loop holds as the best. -/
def Best.held (best : Best) : Option (Node × Bitvector) :=
  best.publisher.map fun publisher => (publisher, best.fid)

section

variable {measure : Node → Node → Except Fault Measured} {pubs : List Node}
  {sub : Node} {keepPaths : Bool} {progress : Progress}

variable {pick : Node × Bitvector} {existing : Option Bitvector}

theorem addFID_spec (hops : ℕ∞) {best : Best} {res : PublisherFIDs}
    (held : best.held = some pick) (entry : res[pick.1]? = some existing) :
    addFID hops best res = .ok (res.insert pick.1 (some (if hops = ⊤ then pick.2
      else existing.elim pick.2 (· ||| pick.2)))) := by
  obtain ⟨pub, hn, rfl⟩ := Option.map_eq_some_iff.mp held
  rw [addFID, hn]
  dsimp only
  rw [entry]
  cases existing with
  | none => simp
  | some old =>
    dsimp only [Option.elim]
    split
    · rfl
    · rfl

variable (total : ∀ p ∈ pubs, ∃ m, measure p sub = .ok m)

include total

/-- A turn enters the FID of the publisher that it finds, or that of the last one found before. -/
theorem serveSubscriber_spec (keepPaths : Bool)
    (hp : (choice measure pubs sub).or progress.best.held = some pick)
    (entry : progress.result[pick.1]? = some existing) :
    ∃ next, serveSubscriber measure keepPaths pubs progress sub = .ok next ∧
      next.best.held = some pick ∧ next.result = progress.result.insert pick.1
        (some (if choice measure pubs sub = none then pick.2
          else existing.elim pick.2 (· ||| pick.2))) := by
  obtain ⟨state, hr, hc⟩ := tryPublishers_spec keepPaths total progress.best
  have held : state.2.held = some pick ∧ (state.1 = ⊤ ↔ choice measure pubs sub = none) := by
    rcases hc.choice with ⟨none, rfl, -⟩ | ⟨p, hf, hn, first⟩
    · rw [none] at hp
      exact ⟨hp, iff_of_true rfl none⟩
    rw [hf] at hp
    cases hp
    refine ⟨?_, iff_of_false first (by rw [hf]; nofun)⟩
    rw [Best.held, hn]
    rfl
  have added := addFID_spec state.1 held.1 entry
  simp only [held.2] at added
  exact ⟨_, bind_ok_iff.mpr ⟨state, hr, bind_ok_iff.mpr ⟨_, added, rfl⟩⟩, held.1, rfl⟩

theorem serveSubscriber_stops (nobody : (choice measure pubs sub).or progress.best.held = none)
    (next : Progress) : serveSubscriber measure keepPaths pubs progress sub ≠ .ok next := by
  obtain ⟨hu, nobody⟩ := Option.or_eq_none_iff.mp nobody
  obtain ⟨state, hr, hc⟩ := tryPublishers_spec keepPaths total progress.best
  rcases hc.choice with ⟨-, rfl, -⟩ | ⟨p, hf, -⟩
  · intro hs
    obtain ⟨_, ha, hs⟩ := bind_ok_iff.mp hs
    cases ha.symm.trans hr
    obtain ⟨res, added, -⟩ := bind_ok_iff.mp hs
    rw [addFID, Option.map_eq_none_iff.mp nobody] at added
    cases added
  · cases hf.symm.trans hu

end

section

variable {measure : Node → Node → Except Fault Measured} {publishers subscribers : List Node}
  {keepPaths : Bool}

theorem getElem?_noFIDs (pubs : List Node) (q : Node) :
    (noFIDs pubs)[q]? = if q ∈ pubs then some none else none := by
  rw [noFIDs, getElem?_foldl_insertIfNew (fun pub : Node => pub) (fun _ => none),
    TreeMap.getElem?_emptyc, Option.none_or]
  by_cases hm : q ∈ pubs
  · rw [if_pos hm, Option.map_eq_some_iff]
    cases hf : pubs.find? fun item => decide (compare item q = .eq) with
    | none =>
      have missing := List.find?_eq_none.mp hf q hm
      simp at missing
    | some first => exact ⟨first, rfl, rfl⟩
  · rw [if_neg hm, Option.map_eq_none_iff, List.find?_eq_none]
    intro item hi isItem
    rw [Std.LawfulEqCmp.eq_of_compare (of_decide_eq_true isItem)] at hi
    exact hm hi

/-- Where nothing is disturbed every publisher has the FIDs of the subscribers visited. -/
def Accumulated (assign : Assignment) (publishers visited : List Node) (progress : Progress) :
    Prop :=
  progress.best.held = lastServed assign visited ∧ ∀ q, progress.result[q]? =
    if q ∈ publishers then some (combined assign visited q) else none

variable {visited : List Node} {progress next init final : Progress} {subscriber owner : Node}
  {bit : Nat}

/-- One more subscriber is served, with the FIDs of all so far. -/
theorem Accumulated.serve (total : ∀ p ∈ publishers, ∃ m, measure p subscriber = .ok m)
    (calm : choice measure publishers subscriber = none → ∃ last,
      lastServed (choice measure publishers) visited = some last ∧
      share (choice measure publishers) visited last.1 = [last.2])
    (accumulated : Accumulated (choice measure publishers) publishers visited progress) :
    ∃ next, serveSubscriber measure keepPaths publishers progress subscriber = .ok next ∧
      Accumulated (choice measure publishers) publishers (visited ++ [subscriber]) next := by
  obtain ⟨held, entries⟩ := accumulated
  obtain ⟨pick, hs⟩ : ∃ pick,
      lastServed (choice measure publishers) (visited ++ [subscriber]) = some pick := by
    rw [lastServed_append]
    cases hp : choice measure publishers subscriber with
    | some pick => exact ⟨pick, rfl⟩
    | none =>
      obtain ⟨last, hs, -⟩ := calm hp
      exact ⟨last, hs⟩
  obtain ⟨s, -, hc⟩ := exists_of_lastServed hs
  have hm := (choice_eq_some hc).1
  have entry := entries pick.1
  rw [if_pos hm] at entry
  have src := hs
  rw [lastServed_append, ← held] at src
  obtain ⟨next, hr, best, res⟩ := serveSubscriber_spec total keepPaths src entry
  refine ⟨next, hr, best.trans hs.symm, fun q => ?_⟩
  rw [res, NestedMap.getElem?_insert]
  cases hp : choice measure publishers subscriber with
  | some other =>
    rw [hp] at src
    cases src
    by_cases same : q = pick.1
    · subst same
      rw [if_pos rfl, if_pos hm, combined_same hp, if_neg nofun]
    · rw [if_neg same, entries q, combined_other hp (Ne.symm same)]
  | none =>
    obtain ⟨last, before, ha⟩ := calm hp
    rw [hp, held] at src
    cases before.symm.trans src
    rw [combined_none hp]
    by_cases same : q = pick.1
    · subst same
      simp [hm, combined, ha]
    · rw [if_neg same, entries q]

/-- A bit that only the FIDs to one subscriber have. -/
structure Owns (assign : Assignment) (subscribers : List Node) (owner : Node) (bit : Nat) :
    Prop where
  has : ∀ pick, assign owner = some pick → pick.2.getLsbD bit = true
  others : ∀ s ∈ subscribers, s ≠ owner → ∀ pick, assign s = some pick →
    pick.2.getLsbD bit = false

/-- A turn enters the FID of the best publisher, the one it has found or the old one. -/
structure Turn (measure : Node → Node → Except Fault Measured) (publishers : List Node)
    (subscriber : Node) (progress next : Progress) (pick : Node × Bitvector) (value : Bitvector) :
    Prop where
  best : next.best.held = some pick
  source : choice measure publishers subscriber = some pick ∨
    choice measure publishers subscriber = none ∧ progress.best.held = some pick
  result : next.result = progress.result.insert pick.1 (some value)
  value : value = pick.2 ∨ ∃ old, progress.result[pick.1]? = some (some old) ∧
    value = old ||| pick.2

theorem exists_turn (total : ∀ p ∈ publishers, ∃ m, measure p subscriber = .ok m)
    (keys : ∀ p ∈ publishers, p ∈ progress.result)
    (hk : ∀ pick, progress.best.held = some pick → pick.1 ∈ publishers)
    (hr : serveSubscriber measure keepPaths publishers progress subscriber = .ok next) :
    ∃ pick val, Turn measure publishers subscriber progress next pick val := by
  cases hp : (choice measure publishers subscriber).or progress.best.held with
  | none => exact absurd hr (serveSubscriber_stops total hp next)
  | some pick =>
    have src := Option.or_eq_some_iff.mp hp
    have hm : pick.1 ∈ publishers :=
      src.elim (fun hf => (choice_eq_some hf).1) fun last => hk pick last.2
    obtain ⟨existing, ht⟩ := mem_iff_exists.mp (keys pick.1 hm)
    obtain ⟨next', ha, best, res⟩ := serveSubscriber_spec total keepPaths hp ht
    cases hr.symm.trans ha
    refine ⟨pick, _, best, src, res, ?_⟩
    split
    · exact .inl rfl
    · cases existing with
      | none => exact .inl rfl
      | some old => exact .inr ⟨old, ht, rfl⟩

/-- The bit is in no FID but that of the owner's publisher. -/
structure Confined (assign : Assignment) (owner : Node) (bit : Nat) (publishers visited : List Node)
    (progress : Progress) : Prop where
  held : progress.best.held = lastServed assign visited
  keys : ∀ q, q ∈ progress.result ↔ q ∈ publishers
  marked : ∀ (q : Node) (fid : Bitvector), progress.result[q]? = some (some fid) →
    fid.getLsbD bit = true → ∃ own, assign owner = some (q, own)

theorem Confined.serve (total : ∀ p ∈ publishers, ∃ m, measure p subscriber = .ok m)
    (owns : Owns (choice measure publishers) subscribers owner bit)
    (seen : ∀ s ∈ visited ++ [subscriber], s ∈ subscribers)
    (confined : Confined (choice measure publishers) owner bit publishers visited progress)
    (hr : serveSubscriber measure keepPaths publishers progress subscriber = .ok next) :
    Confined (choice measure publishers) owner bit publishers (visited ++ [subscriber]) next := by
  have hk : ∀ pick, progress.best.held = some pick → pick.1 ∈ publishers := by
    intro pick held
    obtain ⟨s, -, hp⟩ := exists_of_lastServed (confined.held.symm.trans held)
    exact (choice_eq_some hp).1
  obtain ⟨pick, val, turn⟩ := exists_turn total (fun p => (confined.keys p).mpr) hk hr
  have hs : lastServed (choice measure publishers) (visited ++ [subscriber]) = some pick := by
    rw [lastServed_append]
    rcases turn.source with hp | ⟨hu, held⟩
    · rw [hp, Option.some_or]
    · rw [hu, Option.none_or, ← confined.held, held]
  obtain ⟨s, hm, hp⟩ := exists_of_lastServed hs
  have hi := (choice_eq_some hp).1
  -- The bit comes into a FID only with a pick of its owner.
  have own : pick.2.getLsbD bit = true →
      ∃ fid, choice measure publishers owner = some (pick.1, fid) := by
    intro has
    by_cases same : s = owner
    · exact ⟨pick.2, same ▸ hp⟩
    · rw [owns.others s (seen s hm) same pick hp] at has
      cases has
  refine ⟨turn.best.trans hs.symm, fun q => ?_, fun q fid hl has => ?_⟩
  · rw [turn.result, TreeMap.mem_iff_isSome_getElem?, NestedMap.getElem?_insert]
    by_cases same : q = pick.1
    · subst same
      simp [hi]
    · rw [if_neg same, ← TreeMap.mem_iff_isSome_getElem?]
      exact confined.keys q
  rw [turn.result, NestedMap.getElem?_insert] at hl
  by_cases same : q = pick.1
  · subst same
    rw [if_pos rfl, Option.some.injEq, Option.some.injEq] at hl
    subst hl
    rcases turn.value with rfl | ⟨old, ht, rfl⟩
    · exact own has
    rw [BitVec.getLsbD_or, Bool.or_eq_true] at has
    rcases has with before | hf
    · exact confined.marked pick.1 old ht before
    · exact own hf
  · rw [if_neg same] at hl
    exact confined.marked q fid hl has

/-- The bit is in no FID. -/
structure Absent (bit : Nat) (publishers : List Node) (progress : Progress) : Prop where
  held : ∀ pick, progress.best.held = some pick →
    pick.1 ∈ publishers ∧ pick.2.getLsbD bit = false
  keys : ∀ q ∈ publishers, q ∈ progress.result
  result : ∀ (q : Node) (fid : Bitvector), progress.result[q]? = some (some fid) →
    fid.getLsbD bit = false

theorem Absent.serve (total : ∀ p ∈ publishers, ∃ m, measure p subscriber = .ok m)
    (owns : Owns (choice measure publishers) subscribers owner bit)
    (hm : subscriber ∈ subscribers) (other : subscriber ≠ owner)
    (ha : Absent bit publishers progress)
    (hr : serveSubscriber measure keepPaths publishers progress subscriber = .ok next) :
    Absent bit publishers next := by
  obtain ⟨pick, val, turn⟩ := exists_turn total ha.keys (fun pick held => (ha.held pick held).1) hr
  have clean : pick.1 ∈ publishers ∧ pick.2.getLsbD bit = false := by
    rcases turn.source with hp | ⟨-, held⟩
    · exact ⟨(choice_eq_some hp).1, owns.others subscriber hm other pick hp⟩
    · exact ha.held pick held
  refine ⟨fun other held => ?_, fun q hi => ?_, fun q fid hl => ?_⟩
  · cases held.symm.trans turn.best
    exact clean
  · rw [turn.result, TreeMap.mem_insert]
    exact .inr (ha.keys q hi)
  · rw [turn.result, NestedMap.getElem?_insert] at hl
    by_cases same : q = pick.1
    · subst same
      rw [if_pos rfl, Option.some.injEq, Option.some.injEq] at hl
      subst hl
      rcases turn.value with rfl | ⟨old, ht, rfl⟩
      · exact clean.2
      · rw [BitVec.getLsbD_or, ha.result pick.1 old ht, clean.2]
        rfl
    · rw [if_neg same] at hl
      exact ha.result q fid hl

/-- Of two subscribers of one publisher the one served last is not the first. -/
theorem exists_earlier {assign : Assignment} {before : List Node} (hd : before.Nodup)
    (hs : lastServed assign before = some last) (shared : share assign before last.1 ≠ [last.2]) :
    ∃ owner ∈ before, ∃ final ∈ before, owner ≠ final ∧ assign final = some last ∧
      ∃ fid, assign owner = some (last.1, fid) := by
  obtain ⟨earlier, split⟩ := List.getLast?_eq_some_iff.mp hs
  obtain ⟨first, second, rfl, picks, only⟩ := filterMap_eq_append_iff.mp split
  have others : ((first.filterMap assign).filterMap fun pick =>
      if pick.1 = last.1 then some pick.2 else none) ≠ [] := by
    intro none
    apply shared
    rw [share, filterMap_append, filterMap_append, none, only]
    simp
  obtain ⟨fid, hm⟩ := exists_mem_of_ne_nil _ others
  obtain ⟨pick, hi, test⟩ := mem_filterMap.mp hm
  obtain ⟨owner, early, hp⟩ := mem_filterMap.mp hi
  obtain ⟨final, late, lastPicked⟩ : ∃ s ∈ second, assign s = some last := by
    apply mem_filterMap.mp
    rw [only]
    exact mem_singleton_self last
  split at test
  · rename_i same
    refine ⟨owner, mem_append_left _ early, final, mem_append_right _ late, ?_,
      lastPicked, pick.2, ?_⟩
    · exact (nodup_append.mp hd).2.2 owner early final late
    · rw [hp, ← same]
  · cases test

/-- The state before the first subscriber. -/
def Initial (publishers : List Node) (progress : Progress) : Prop :=
  progress.best.held = none ∧
    ∀ q, progress.result[q]? = if q ∈ publishers then some none else none

theorem Initial.confined (initial : Initial publishers progress) (assign : Assignment)
    (owner : Node) (bit : Nat) : Confined assign owner bit publishers [] progress := by
  obtain ⟨held, entries⟩ := initial
  refine ⟨held, fun q => ?_, fun q fid hl => ?_⟩
  · rw [TreeMap.mem_iff_isSome_getElem?, entries]
    by_cases hm : q ∈ publishers
    · simp [hm]
    · simp [hm]
  · rw [entries] at hl
    by_cases hm : q ∈ publishers
    · rw [if_pos hm] at hl
      cases hl
    · rw [if_neg hm] at hl
      cases hl

variable (total : ∀ s ∈ subscribers, ∀ p ∈ publishers, ∃ m, measure p s = .ok m)

include total

theorem confined_run (owns : Owns (choice measure publishers) subscribers owner bit)
    {visits : List Node} (hi : ∀ s ∈ visits, s ∈ subscribers) (initial : Initial publishers init)
    (hr : visits.foldlM (serveSubscriber measure keepPaths publishers) init = .ok final) :
    Confined (choice measure publishers) owner bit publishers visits final := by
  refine except_foldlM_ok visits
    (fun visited => Confined (choice measure publishers) owner bit publishers visited) ?_ init
    (initial.confined _ owner bit) hr
  intro visited cur rest progress next split confined turn
  refine confined.serve (total cur (hi cur (by simp [split]))) owns ?_ turn
  intro s hm
  apply hi
  rw [split]
  simp only [mem_append, mem_cons, not_mem_nil, or_false] at hm ⊢
  exact hm.imp id .inl

/-- Where something is disturbed the bits of some subscriber are lost. -/
theorem lost_of_disturbed (hd : subscribers.Nodup) (initial : Initial publishers init)
    (hr : subscribers.foldlM (serveSubscriber measure keepPaths publishers) init = .ok final)
    (disturbed : ¬ Undisturbed (choice measure publishers) subscribers) :
    ∃ owner ∈ subscribers, choice measure publishers owner ≠ none ∧
      ∀ bit, Owns (choice measure publishers) subscribers owner bit →
        ∀ (q : Node) (fid : Bitvector), final.result[q]? = some (some fid) →
          fid.getLsbD bit = false := by
  simp only [Undisturbed, not_forall, not_exists, not_and] at disturbed
  obtain ⟨before, u, after, rfl, hu, bad⟩ := disturbed
  rw [foldlM_append] at hr
  obtain ⟨middle, first, hr⟩ := bind_ok_iff.mp hr
  obtain ⟨next, turn, later⟩ := bind_ok_iff.mp hr
  have early : ∀ s ∈ before, s ∈ before ++ u :: after := fun s hm =>
    mem_append_left _ hm
  have totalHere := total u (by simp)
  -- No FID has a bit past its end, so that `u` owns this one.
  have none : Owns (choice measure publishers) (before ++ u :: after) u 256 := by
    refine ⟨fun pick hp => ?_, fun _ _ _ pick _ => BitVec.getLsbD_of_ge pick.2 256 le_rfl⟩
    cases hu.symm.trans hp
  have held := (confined_run total none early initial first).held
  have last : (choice measure publishers u).or middle.best.held =
      lastServed (choice measure publishers) before := by
    rw [hu, held, Option.none_or]
  cases hs : lastServed (choice measure publishers) before with
  | none =>
    exact absurd turn (serveSubscriber_stops totalHere (last.trans hs) next)
  | some pick =>
    have distinctBefore := (nodup_append.mp hd).1
    obtain ⟨owner, hm, final', lateMember, differs, lastPicked, own, hp⟩ :=
      exists_earlier distinctBefore hs (bad pick hs)
    refine ⟨owner, early owner hm, by rw [hp]; nofun, fun bit owns => ?_⟩
    have confined := confined_run total owns early initial first
    have hi := (choice_eq_some lastPicked).1
    have clean := owns.others final' (early final' lateMember) (Ne.symm differs) pick lastPicked
    obtain ⟨existing, ht⟩ := mem_iff_exists.mp ((confined.keys pick.1).mpr hi)
    obtain ⟨next', again, best, res⟩ := serveSubscriber_spec totalHere keepPaths (last.trans hs) ht
    cases turn.symm.trans again
    rw [if_pos hu] at res
    have ha : Absent bit publishers next := by
      refine ⟨fun other same => ?_, fun q hk => ?_, fun q fid hl => ?_⟩
      · cases same.symm.trans best
        exact ⟨hi, clean⟩
      · rw [res, TreeMap.mem_insert]
        exact .inr ((confined.keys q).mpr hk)
      · rw [res, NestedMap.getElem?_insert] at hl
        by_cases same : q = pick.1
        · rw [if_pos same, Option.some.injEq, Option.some.injEq] at hl
          exact hl ▸ clean
        rw [if_neg same] at hl
        by_contra has
        obtain ⟨_, elsewhere⟩ := confined.marked q fid hl (Bool.not_eq_false _ ▸ has)
        cases hp.symm.trans elsewhere
        exact same rfl
    have ends : Absent bit publishers final := by
      refine except_foldlM_ok after (fun _ => Absent bit publishers) ?_ next ha later
      intro visited cur rest progress progress' split still step
      have mine : cur ∈ after := by simp [split]
      have inAll : cur ∈ before ++ u :: after := mem_append_right _ (mem_cons_of_mem _ mine)
      refine still.serve (total cur inAll) owns inAll ?_ step
      rintro rfl
      exact (nodup_append.mp hd).2.2 cur hm cur (mem_cons_of_mem _ mine) rfl
    exact ends.result

theorem accumulated_run (keepPaths : Bool) (initial : Initial publishers init)
    (calm : Undisturbed (choice measure publishers) subscribers) :
    ∃ final, subscribers.foldlM (serveSubscriber measure keepPaths publishers) init = .ok final ∧
      Accumulated (choice measure publishers) publishers subscribers final := by
  apply except_foldlM_returns subscribers (Accumulated (choice measure publishers) publishers)
  · intro visited cur rest progress split accumulated
    refine Accumulated.serve (total cur (by simp [split])) ?_ accumulated
    exact calm visited cur rest split
  · exact ⟨initial.1, initial.2⟩

end

end Blackadder.Topology
