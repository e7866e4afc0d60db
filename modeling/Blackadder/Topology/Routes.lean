import Blackadder.Topology.Repairs

namespace Blackadder.Topology

open List Masks Entry Prod

open Std (TreeMap)
open EdgeList Program Walks

def Graph.Reaches (g : Graph) : Vertex → Vertex → Prop :=
  Relation.ReflTransGen (Linked g.adjacency)

/-- The identifier of a vertex's internal link. -/
def Graph.ilid (g : Graph) (v : Vertex) : Bitvector :=
  match g.vertices[v]? with
  | some attributes => Masks.ofText attributes.iLID
  | none => 0

/-- The bits of the LIDs on a path of edges of the graph. -/
inductive PathFid (g : Graph) (d : Vertex) : Vertex → Bitvector → Prop
  | here : PathFid g d d 0
  | step {u v : Vertex} {lid fid : Bitvector} (link : Link) (member : link ∈ g.edges)
      (ends : link.ends = (u, v)) (bits : Link.bits link = some lid)
      (rest : PathFid g d v fid) : PathFid g d u (lid ||| fid)

/-- The bits of LIDs that lead from each vertex of a list to the next. -/
inductive Carries (g : Graph) : List Vertex → Bitvector → Prop
  | single (u : Vertex) : Carries g [u] 0
  | step {u v : Vertex} {rest : List Vertex} {lid fid : Bitvector} (link : Link)
      (member : link ∈ g.edges) (ends : link.ends = (u, v)) (bits : Link.bits link = some lid)
      (later : Carries g (v :: rest) fid) : Carries g (u :: v :: rest) (lid ||| fid)

/-- What a FID calculated between two vertices is. -/
def Graph.Routes (g : Graph) (s d : Vertex) (fid : Bitvector) : Prop :=
  (fid = 0 ∧ ¬ g.Reaches s d) ∨ ∃ bits, PathFid g d s bits ∧ fid = bits ||| g.ilid d

section

variable {g g' : Graph} {s d : Vertex} {fid : Bitvector}

theorem PathFid.reaches (path : PathFid g d s fid) : g.Reaches s d := by
  induction path with
  | here => exact .refl
  | step link hm ends _ _ ih =>
    have hl : (_, _) ∈ g.adjacency := mem_map.mpr ⟨link, hm, ends⟩
    exact .head hl ih

theorem Carries.pathFid {path : List Vertex} (hc : Carries g path fid)
    (walk : IsWalk (Linked g.adjacency) s d path) : PathFid g d s fid := by
  induction hc generalizing s with
  | single u =>
    obtain ⟨rfl, rfl⟩ := isWalk_singleton_iff.mp walk
    exact .here
  | step link member ends bits _ ih =>
    obtain ⟨rfl, -, later⟩ := isWalk_cons_cons.mp walk
    exact .step link member ends bits (ih later)

theorem PathFid.mono (path : PathFid g d s fid)
    (keeps : ∀ link ∈ g.edges, (Link.bits link).isSome → link ∈ g'.edges) : PathFid g' d s fid := by
  induction path with
  | here => exact .here
  | step link member ends bits _ ih =>
    exact .step link (keeps link member (by rw [bits]; rfl)) ends bits ih

theorem Graph.Reaches.wider (reaches : g.Reaches s d) (wider : g.adjacency ⊆ g'.adjacency) :
    g'.Reaches s d :=
  Relation.ReflTransGen.mono (fun _ _ hl => wider hl) _ _ reaches

theorem Graph.Reaches.mono (reaches : g.Reaches s d)
    (keeps : ∀ link ∈ g.edges, link ∈ g'.edges) : g'.Reaches s d := by
  apply reaches.wider
  intro ends hl
  obtain ⟨link, hm, hs⟩ := mem_map.mp hl
  exact mem_map.mpr ⟨link, keeps link hm, hs⟩

theorem Graph.Routes.eq_zero_iff (routes : g.Routes s d fid) (marked : g.ilid d ≠ 0) :
    fid = 0 ↔ ¬ g.Reaches s d := by
  rcases routes with ⟨zero, unreachable⟩ | ⟨bits, path, rfl⟩
  · exact iff_of_true zero unreachable
  · refine iff_of_false (fun zero => ?_) (not_not.mpr path.reaches)
    exact marked (BitVec.or_eq_zero_iff.mp zero).2

theorem Graph.Routes.path (routes : g.Routes s d fid) (reaches : g.Reaches s d) :
    ∃ bits, PathFid g d s bits ∧ fid = bits ||| g.ilid d :=
  routes.resolve_left fun none => none.2 reaches

end

namespace TMIgraph

variable {lids : ICNEdge → Option Bitvector} {t t1 : TMIgraph} {s d : Vertex}
variable {fid bits : Bitvector} {node : Node} {v manager : Vertex}

theorem carries_of_orTexts {path : List Vertex} {res : Bitvector} (hf : path ≠ [])
    (returns : t.orTexts path res = .ok fid) :
    ∃ bits, Carries t.graph path bits ∧ fid = res ||| bits := by
  induction path generalizing res with
  | nil => exact absurd rfl hf
  | cons u tail ih =>
    cases tail with
    | nil =>
      cases returns
      exact ⟨0, .single u, by simp⟩
    | cons v rest =>
      rw [orTexts, bind_ok_iff] at returns
      obtain ⟨eid, hf, returns⟩ := returns
      obtain ⟨text, hg, returns⟩ := bind_ok_iff.mp returns
      obtain ⟨bits, path, rfl⟩ := ih (cons_ne_nil v rest) returns
      obtain ⟨link, ht, ends⟩ := number_eq_some (getEid_eq_ok.mp hf)
      have label : Link.bits link = some (ofText text) := by
        unfold textOf at hg
        rw [ht] at hg
        dsimp only at hg
        split at hg
        · rename_i has
          cases hg
          simp [Link.bits, has]
        · cases hg
      refine ⟨ofText text ||| bits, .step link (mem_of_getElem? ht) ends label path, ?_⟩
      rw [setBits_eq_or, BitVec.or_assoc]

theorem Names.ilid (names : t.Names) (hk : t.reverseNodeIndex[node]? = some v) :
    ∃ attributes ∈ t.graph.vertices, t.graph.vertices[v]? = some attributes ∧
      t.graph.ilid v = ofText attributes.iLID := by
  obtain ⟨attributes, place, -, -⟩ := names.vertex node v hk
  refine ⟨attributes, mem_of_getElem? place, place, ?_⟩
  rw [Graph.ilid, place]

variable {src dst : Node}

theorem calculateFID_routes [ShortestPaths Vertex] (names : t.Names)
    (returns : t.calculateFID src dst = .ok fid) (head : t.reverseNodeIndex[src]? = some s)
    (tail : t.reverseNodeIndex[dst]? = some d) : t.graph.Routes s d fid := by
  rw [calculateFID, bind_ok_iff] at returns
  obtain ⟨_, start, returns⟩ := returns
  cases (find_eq_ok.mp start).symm.trans head
  obtain ⟨_, finish, returns⟩ := bind_ok_iff.mp returns
  cases (find_eq_ok.mp finish).symm.trans tail
  obtain ⟨res, hl, returns⟩ := bind_ok_iff.mp returns
  have answers := ShortestPaths.answers t.graph.adjacency s d
  by_cases hf : t.shortestPath s d = []
  · rw [hf] at hl returns
    cases hl
    cases returns
    exact .inl ⟨rfl, answers.eq_nil_iff.mp hf⟩
  · obtain ⟨bits, hc, rfl⟩ := carries_of_orTexts hf hl
    have path := hc.pathFid (answers.isShortest hf).toIsWalk
    obtain ⟨attributes, -, place, ilid⟩ := names.ilid tail
    rw [if_pos (length_pos_of_ne_nil hf), place] at returns
    cases returns
    refine .inr ⟨bits, path, ?_⟩
    simp [setBits_eq_or, ilid]

theorem mem_affectedLIDs {edge : ICNEdge} {lid : Bitvector}
    (hf : t.freedLIDs[edge]? = some lid) : lid ∈ t.affectedLIDs :=
  mem_map.mpr ⟨(edge, lid), TreeMap.mem_toList_iff_getElem?_eq_some.mpr hf, rfl⟩

theorem PathFid.survives (path : PathFid t.graph d s bits) (hs : Shrinks t t1)
    (hc : Covers fid bits) (hu : ∀ lid ∈ t1.affectedLIDs, ¬ Covers fid lid) :
    PathFid t1.graph d s bits := by
  induction path with
  | here => exact .here
  | @step u v lid bits link hm ends label _ ih =>
    have hop : Covers fid lid := hc.trans (covers_or_left lid bits)
    have rest := ih (hc.trans (covers_or_right lid bits))
    rcases hs.gone link hm with still | ⟨old, has, hf⟩
    · exact .step link still ends label rest
    · cases label.symm.trans has
      exact absurd hop (hu lid (mem_affectedLIDs hf))

theorem SameNodes.ilid (nodes : SameNodes t t1) (v : Vertex) :
    t1.graph.ilid v = t.graph.ilid v := by
  rw [Graph.ilid, Graph.ilid, nodes.vertices]

theorem Routes.survives (routes : t.graph.Routes s d fid) (nodes : SameNodes t t1)
    (hs : Shrinks t t1) (hu : ∀ lid ∈ t1.affectedLIDs, ¬ Covers fid lid) :
    t1.graph.Routes s d fid := by
  rcases routes with ⟨zero, unreachable⟩ | ⟨bits, path, rfl⟩
  · exact .inl ⟨zero, fun reaches => unreachable (reaches.mono hs.old)⟩
  · refine .inr ⟨bits, PathFid.survives path hs (covers_or_left _ _) hu, ?_⟩
    rw [nodes.ilid]

theorem Routes.grows (path : PathFid t.graph d s bits) (val : fid = bits ||| t.graph.ilid d)
    (nodes : SameNodes t t1) (grows : Grows t t1) : t1.graph.Routes s d fid := by
  refine .inr ⟨bits, path.mono grows, ?_⟩
  rw [nodes.ilid]
  exact val

/-- The internal links of all nodes have identifiers other than zero. -/
def Marked (t : TMIgraph) : Prop :=
  ∀ attributes ∈ t.graph.vertices, Masks.ofText attributes.iLID ≠ 0

/-- The topology manager's FIDs to the nodes are right. -/
structure Routed (lids : ICNEdge → Option Bitvector) (t : TMIgraph) : Prop where
  faithful : t.Faithful lids
  names : t.Names
  routes : ∀ (node : Node) (manager v : Vertex), t.reverseNodeIndex[t.nodeID]? = some manager →
    t.reverseNodeIndex[node]? = some v →
      ∃ fid, t.tmToNodeFID[node]? = some fid ∧ t.graph.Routes manager v fid

/-- The FIDs from a node that the topology manager can reach are right, and the node has them. -/
def Returns (t : TMIgraph) (told : Told) : Prop :=
  ∀ (node : Node) (manager v : Vertex), t.reverseNodeIndex[t.nodeID]? = some manager →
    t.reverseNodeIndex[node]? = some v → t.graph.Reaches manager v →
    ∀ (target : Target) (w : Vertex), t.reverseNodeIndex[target.node t]? = some w →
      ∃ fid, (t.entry told node).held target = (some fid, some fid) ∧ t.graph.Routes v w fid

/-- No node that could be reached gets a way back to a target that it did not have. -/
def Timely (t t' : TMIgraph) : Prop :=
  ∀ (node : Node) (manager v : Vertex), t.reverseNodeIndex[t.nodeID]? = some manager →
    t.reverseNodeIndex[node]? = some v → t.graph.Reaches manager v →
    ∀ (target : Target) (w : Vertex), t.reverseNodeIndex[target.node t]? = some w →
      t'.graph.Reaches v w → t.graph.Reaches v w

/-- Every node that can be reached and can reach a target has been told a path of the graph. -/
def Informed (t : TMIgraph) (told : Told) : Prop :=
  ∀ (node : Node) (manager v : Vertex), t.reverseNodeIndex[t.nodeID]? = some manager →
    t.reverseNodeIndex[node]? = some v → t.graph.Reaches manager v →
    ∀ (target : Target) (w : Vertex), t.reverseNodeIndex[target.node t]? = some w →
      t.graph.Reaches v w → ∃ fid bits, (target.fids t)[node]? = some fid ∧
        told target node = some fid ∧ fid ≠ 0 ∧ PathFid t.graph w v bits ∧
        fid = bits ||| t.graph.ilid w

theorem Names.ilid_ne_zero (names : t.Names) (marked : t.Marked)
    (hk : t.reverseNodeIndex[node]? = some v) : t.graph.ilid v ≠ 0 := by
  obtain ⟨attributes, hm, -, ilid⟩ := names.ilid hk
  rw [ilid]
  exact marked attributes hm

theorem Returns.informed {told : Told} (returns : t.Returns told) (names : t.Names)
    (marked : t.Marked) : t.Informed told := by
  intro node manager v home hk hr target w goal reaches
  obtain ⟨fid, hh, routes⟩ := returns node manager v home hk hr target w goal
  obtain ⟨bits, path, val⟩ := routes.path reaches
  have zero := routes.eq_zero_iff (names.ilid_ne_zero marked goal)
  exact ⟨fid, bits, congrArg fst hh, congrArg snd hh, fun none => zero.mp none reaches, path, val⟩

theorem Routed.reaches_iff (routed : Routed lids t) (marked : t.Marked)
    (home : t.reverseNodeIndex[t.nodeID]? = some manager)
    (hk : t.reverseNodeIndex[node]? = some v) (told : Told) :
    t.graph.Reaches manager v ↔ (t.entry told node).route ≠ some 0 := by
  obtain ⟨fid, hf, routes⟩ := routed.routes node manager v home hk
  have zero := routes.eq_zero_iff (routed.names.ilid_ne_zero marked hk)
  change _ ↔ t.tmToNodeFID[node]? ≠ some 0
  rw [hf, Ne, Option.some.injEq, zero, not_not]

theorem Routed.present (routed : Routed lids t)
    (home : t.reverseNodeIndex[t.nodeID]? = some manager)
    (hk : t.reverseNodeIndex[node]? = some v) : node ∈ t.tmToNodeFID := by
  obtain ⟨fid, hf, -⟩ := routed.routes node manager v home hk
  exact NestedMap.mem_iff_exists.mpr ⟨fid, hf⟩

section

variable {t' : TMIgraph}

/-- After changes to links and FIDs the names are the same. -/
structure SameIndex (t t' : TMIgraph) : Prop where
  vertices : t'.graph.vertices = t.graph.vertices
  reverseNodeIndex : t'.reverseNodeIndex = t.reverseNodeIndex
  nodeILID : t'.nodeILID = t.nodeILID
  nodeID : t'.nodeID = t.nodeID
  rvNodeID : t'.rvNodeID = t.rvNodeID

theorem SameIndex.ofFrames (nodes : SameNodes t t1) (links : SameLinks t1 t') : SameIndex t t' where
  vertices := by rw [links.graph, nodes.vertices]
  reverseNodeIndex := links.reverseNodeIndex.trans nodes.reverseNodeIndex
  nodeILID := links.nodeILID.trans nodes.nodeILID
  nodeID := links.nodeID.trans nodes.nodeID
  rvNodeID := links.rvNodeID.trans nodes.rvNodeID

theorem SameIndex.target (hs : SameIndex t t') (target : Target) :
    target.node t' = target.node t := by
  cases target with
  | rv => exact hs.rvNodeID
  | tm => exact hs.nodeID

theorem SameIndex.names (hs : SameIndex t t') (names : t.Names) : t'.Names where
  vertex node v hf := by
    rw [hs.reverseNodeIndex] at hf
    rw [hs.vertices, hs.nodeILID]
    exact names.vertex node v hf

theorem SameIndex.marked (hs : SameIndex t t') (marked : t.Marked) : t'.Marked := by
  rw [Marked, hs.vertices]
  exact marked

/-- A FID that is calculated after changes to links leads between nodes known before. -/
theorem SameNodes.routes [ShortestPaths Vertex] (nodes : SameNodes t t1) (names : t.Names)
    (calculated : t1.calculateFID src dst = .ok fid) (head : t.reverseNodeIndex[src]? = some s)
    (tail : t.reverseNodeIndex[dst]? = some d) : t1.graph.Routes s d fid := by
  rw [← nodes.reverseNodeIndex] at head tail
  exact calculateFID_routes (nodes.names names) calculated head tail

theorem SameNodes.target (nodes : SameNodes t t1) (target : Target) :
    target.node t1 = target.node t := by
  cases target with
  | rv => exact nodes.rvNodeID
  | tm => exact nodes.nodeID

theorem Faithful.congr (faithful : t1.Faithful lids) (links : SameLinks t1 t') :
    t'.Faithful lids := by
  obtain ⟨labels, hf, hn⟩ := faithful
  rw [← links.graph] at labels
  rw [← links.freedLIDs] at hf
  simp only [← links.edgeLID, ← links.graph] at hn
  exact ⟨labels, hf, hn⟩

end

section

variable [ShortestPaths Vertex] {t' : TMIgraph} {told told' : Told}

section

variable (step : Step lids t told t' told')

include step

theorem Step.sameIndex : SameIndex t t' := by
  cases step with
  | idle => exact ⟨rfl, rfl, rfl, rfl, rfl⟩
  | failure _ nodes _ links _ | restoration _ nodes _ links _ => exact .ofFrames nodes links

theorem Step.faithful (faithful : t.Faithful lids) :
    t'.Faithful lids := by
  cases step with
  | idle => exact faithful
  | failure after _ _ links _ | restoration after _ _ links _ => exact after.congr links

/-- Every step keeps the FIDs to the nodes right. -/
theorem Step.routed (routed : Routed lids t) :
    Routed lids t' := by
  have hs := step.sameIndex
  refine ⟨step.faithful routed.faithful, hs.names routed.names, ?_⟩
  rw [hs.reverseNodeIndex, hs.nodeID]
  intro node manager v home hk
  obtain ⟨old, hf, routes⟩ := routed.routes node manager v home hk
  cases step with
  | idle => exact ⟨old, hf, routes⟩
  | @failure t1 _ _ _ nodes shrinks links repaired =>
    rw [links.graph]
    obtain ⟨before, after, had, has, renewed⟩ := (repaired node (routed.present home hk)).route
    cases hf.symm.trans had
    refine ⟨after, has, ?_⟩
    rcases renewed with calculated | ⟨rfl, hu⟩
    · rw [nodes.nodeID] at calculated
      exact nodes.routes routed.names calculated home hk
    · exact Routes.survives routes nodes shrinks hu
  | @restoration t1 _ _ _ nodes grows links reconnected =>
    rw [links.graph]
    have visit := reconnected node (routed.present home hk)
    by_cases zero : (t.entry told node).route = some 0
    · obtain ⟨fid, calculated, has⟩ := visit.route zero
      rw [nodes.nodeID] at calculated
      exact ⟨fid, has, nodes.routes routed.names calculated home hk⟩
    have kept : t'.tmToNodeFID[node]? = t.tmToNodeFID[node]? :=
      congrArg route (visit.connected zero)
    refine ⟨old, kept.trans hf, ?_⟩
    rcases routes with ⟨rfl, -⟩ | ⟨bits, path, val⟩
    · exact absurd hf zero
    · exact Routes.grows path val nodes grows

/-- A step that gives no node its first way back keeps the FIDs from the nodes right. -/
theorem Step.returns (routed : Routed lids t) (marked : t.Marked) (returns : t.Returns told)
    (timely : Timely t t') : t'.Returns told' := by
  have hs := step.sameIndex
  have routed' := step.routed routed
  intro node manager v home hk hr target w goal
  have hc := (routed'.reaches_iff (hs.marked marked) home hk told').mp hr
  rw [hs.reverseNodeIndex] at hk
  rw [hs.reverseNodeIndex, hs.nodeID] at home
  rw [hs.reverseNodeIndex, hs.target] at goal
  cases step with
  | idle => exact returns node manager v home hk hr target w goal
  | @failure t1 _ _ _ nodes shrinks links repaired =>
    rw [links.graph] at hr ⊢
    obtain ⟨fid, hh, routes⟩ := returns node manager v home hk (hr.mono shrinks.old) target w goal
    have resent := (repaired node (routed.present home hk)).back hc target
    rcases resent with ⟨new, calculated, has⟩ | ⟨kept, hu⟩
    · rw [nodes.target] at calculated
      exact ⟨new, has, nodes.routes routed.names calculated hk goal⟩
    · refine ⟨fid, kept.trans hh, Routes.survives routes nodes shrinks ?_⟩
      exact hu fid (congrArg fst hh)
  | @restoration t1 _ _ _ nodes grows links reconnected =>
    have visit := reconnected node (routed.present home hk)
    by_cases zero : (t.entry told node).route = some 0
    · obtain ⟨fid, calculated, hh⟩ := visit.back zero hc target
      rw [nodes.target] at calculated
      rw [links.graph]
      exact ⟨fid, hh, nodes.routes routed.names calculated hk goal⟩
    have before := (routed.reaches_iff marked home hk told).mpr zero
    obtain ⟨fid, hh, routes⟩ := returns node manager v home hk before target w goal
    rw [visit.connected zero]
    refine ⟨fid, hh, ?_⟩
    rcases routes with ⟨none, unreachable⟩ | ⟨bits, path, val⟩
    · refine .inl ⟨none, fun reaches => unreachable ?_⟩
      exact timely node manager v home hk before target w goal reaches
    · rw [links.graph]
      exact Routes.grows path val nodes grows

/-- A first way back to a target is not told to a node that could be reached before. -/
theorem Step.timely (routed : Routed lids t) (marked : t.Marked) (returns : t.Returns told)
    (informed : t'.Informed told') :
    Timely t t' := by
  have hs := step.sameIndex
  intro node manager v home hk reach target w goal reaches
  cases step with
  | idle => exact reaches
  | failure _ _ shrinks links _ =>
    rw [links.graph] at reaches
    exact reaches.mono shrinks.old
  | restoration _ nodes grows links reconnected =>
    have visit := reconnected node (routed.present home hk)
    have hc := (routed.reaches_iff marked home hk told).mp reach
    obtain ⟨fid, hh, routes⟩ := returns node manager v home hk reach target w goal
    rcases routes with ⟨none, -⟩ | ⟨bits, path, -⟩
    · obtain ⟨old, hf, way⟩ := routed.routes node manager v home hk
      obtain ⟨bits, path, -⟩ := way.path reach
      have still : t'.graph.Reaches manager v := by
        rw [links.graph]
        exact (path.mono grows).reaches
      obtain ⟨new, -, hr, -, nonzero, -⟩ := informed node manager v
        (by rw [hs.reverseNodeIndex, hs.nodeID]; exact home)
        (by rw [hs.reverseNodeIndex]; exact hk) still target w
        (by rw [hs.reverseNodeIndex, hs.target]; exact goal) reaches
      have kept := congrArg (fun e => back e target) (visit.connected hc)
      have val : some new = some fid := hr.symm.trans (kept.trans (congrArg fst hh))
      exact absurd ((Option.some.inj val).trans none) nonzero
    · exact path.reaches

end

/-- Every node gets the FIDs of the ways to it and back. -/
theorem calculateRVTMFIDs_spec (t : TMIgraph) :
    wlp calculateRVTMFIDs (fun _ t' => SameLinks t t' ∧ ∀ node ∈ t.reverseNodeIndex,
      (∃ fid, t.calculateFID t.nodeID node = .ok fid ∧ t'.tmToNodeFID[node]? = some fid) ∧
      ∀ target : Target, ∃ fid, t.calculateFID node (target.node t) = .ok fid ∧
        (target.fids t')[node]? = some fid) t := by
  refine wp_post (wp_forM_visited t.reverseNodeIndex.keys _ (fun seen t' => SameLinks t t' ∧
    ∀ node ∈ seen,
      (∃ fid, t.calculateFID t.nodeID node = .ok fid ∧ t'.tmToNodeFID[node]? = some fid) ∧
      ∀ target : Target, ∃ fid, t.calculateFID node (target.node t) = .ok fid ∧
        (target.fids t')[node]? = some fid) ?_ t ⟨SameLinks.refl t, nofun⟩) ?_
  · intro seen node rest t1 _ ⟨links, done⟩
    simp only [wp_bind, wp_examine, wp_update, implies_true, and_true]
    intro rv rvCalculated tm tmCalculated route calculated
    have rvTouches := touches_set t1 node rv .rv
    have tmTouches := touches_set (Target.rv.set node rv t1) node tm .tm
    have routeTouches := touches_setTMToNodeFID (Target.tm.set node tm (Target.rv.set node rv t1))
      node route
    have rvLinks := links.trans rvTouches.links
    have tmLinks := rvLinks.trans tmTouches.links
    have touches := (rvTouches.trans tmTouches).trans routeTouches
    rw [links.calculateFID, links.rvNodeID] at rvCalculated
    rw [rvLinks.calculateFID, rvLinks.nodeID] at tmCalculated
    rw [tmLinks.calculateFID, tmLinks.nodeID] at calculated
    refine ⟨tmLinks.trans routeTouches.links, fun other hm => ?_⟩
    by_cases hs : other = node
    · subst hs
      have entries := entry_setTMToNodeFID (Target.tm.set other tm (Target.rv.set other rv t1))
        (fun _ _ => none) other route
      rw [entry_set, entry_set] at entries
      refine ⟨⟨route, calculated, congrArg Entry.route entries⟩, fun target => ?_⟩
      have back := congrFun (congrArg back entries) target
      cases target with
      | rv => exact ⟨rv, rvCalculated, back⟩
      | tm => exact ⟨tm, tmCalculated, back⟩
    · have before := (mem_append.mp hm).resolve_right fun last => hs (mem_singleton.mp last)
      obtain ⟨⟨fid, toNode, hr⟩, back⟩ := done other before
      have entries := touches.others (fun _ _ => none) other hs
      refine ⟨⟨fid, toNode, (congrArg Entry.route entries).trans hr⟩, fun target => ?_⟩
      obtain ⟨fid, fromNode, hh⟩ := back target
      exact ⟨fid, fromNode, (congrFun (congrArg Entry.back entries) target).trans hh⟩
  · rintro _ t' ⟨links, done⟩
    exact ⟨links, fun node hm => done node (TreeMap.mem_keys.mpr hm)⟩

/-- Before any notification the nodes have the FIDs that are recorded for them. -/
def initially (t : TMIgraph) : Told := fun target node => (target.fids t)[node]?

/-- A handler has dealt with a notification. -/
inductive Notified (t : TMIgraph) (told : Told) : TMIgraph → Told → Prop
  | pathManagement {t' : TMIgraph} {sent : List Publication} (moly : LinkReport → Bool)
      (ucNotification : Bool) (n : Notification)
      (returns : pathManagement moly ucNotification n t = .ok (sent, t')) :
      Notified t told t' (hearAll told sent)
  | resilience {t' : TMIgraph} {sent : List Publication} (moly : LinkReport → Bool)
      (n : Notification) (returns : resilience moly n t = .ok (sent, t')) :
      Notified t told t' (hearAll told sent)

/-- The states after any sequence of notifications. -/
inductive Run (start : TMIgraph) : TMIgraph → Told → Prop
  | start : Run start start (initially start)
  | next {t t' : TMIgraph} {told told' : Told} (run : Run start t told)
      (notified : Notified t told t' told') : Run start t' told'

/-- The states after notifications that give no node its first way back. -/
inductive TimelyRun (start : TMIgraph) : TMIgraph → Told → Prop
  | start : TimelyRun start start (initially start)
  | next {t t' : TMIgraph} {told told' : Told} (run : TimelyRun start t told)
      (notified : Notified t told t' told') (timely : Timely t t') : TimelyRun start t' told'

theorem Notified.step (notified : Notified t told t' told') (faithful : t.Faithful lids) :
    Step lids t told t' told' := by
  cases notified with
  | pathManagement moly ucNotification n returns =>
    exact wp_ok (pathManagement_step faithful moly ucNotification n) returns told
  | resilience moly n returns => exact wp_ok (resilience_step faithful moly n) returns told

variable {moly : LinkReport → Bool} {sent : List Publication} {pub : Node}

/-- A handler that returns has notified; likewise the other one. -/
theorem Notified.ofPM {ucNotification : Bool} {request : List UInt8}
    (returns : handleLinkStateNotificationPM moly ucNotification request pub t = .ok (sent, t')) :
    Notified t told t' (hearAll told sent) := by
  obtain ⟨n, middle, read, rest⟩ := bind_eq_ok.mp returns
  obtain rfl := examine_eq_ok read
  exact .pathManagement moly ucNotification n rest

theorem Notified.ofRM {request : List UInt8}
    (returns : handleLinkStateNotificationRM moly request pub t = .ok (sent, t')) :
    Notified t told t' (hearAll told sent) := by
  obtain ⟨n, middle, read, rest⟩ := bind_eq_ok.mp returns
  obtain rfl := examine_eq_ok read
  exact .resilience moly n rest

section

variable {g : Graph} {nid rv : Node} {start : TMIgraph}

theorem TimelyRun.run (run : TimelyRun start t told) : Run start t told := by
  induction run with
  | start => exact .start
  | next _ notified _ ih => exact .next ih notified

variable (unique : g.adjacency.Nodup)
  (begins : calculateRVTMFIDs (readTopology g nid rv) = .ok ((), start))

include unique begins

theorem routed_start : Routed g.lids start ∧ start.Returns (initially start) ∧ start.graph = g := by
  obtain ⟨links, done⟩ := wp_ok (calculateRVTMFIDs_spec _) begins
  have names := names_readTopology g nid rv
  have hs : SameIndex _ start := .ofFrames (SameNodes.refl _) links
  have hm : ∀ node v, (readTopology g nid rv).reverseNodeIndex[node]? = some v →
      node ∈ (readTopology g nid rv).reverseNodeIndex :=
    fun node v hk => NestedMap.mem_iff_exists.mpr ⟨v, hk⟩
  refine ⟨⟨(faithful_readTopology unique _ _).congr links, hs.names names, ?_⟩, ?_, links.graph⟩
  · rw [hs.reverseNodeIndex, hs.nodeID, links.graph]
    intro node manager v home hk
    obtain ⟨⟨fid, calculated, hr⟩, -⟩ := done node (hm node v hk)
    exact ⟨fid, hr, calculateFID_routes names calculated home hk⟩
  intro node manager v home hk reach target w goal
  rw [hs.reverseNodeIndex] at hk
  rw [hs.reverseNodeIndex, hs.target] at goal
  obtain ⟨-, back⟩ := done node (hm node v hk)
  obtain ⟨fid, calculated, hr⟩ := back target
  rw [links.graph]
  refine ⟨fid, ?_, calculateFID_routes names calculated hk goal⟩
  simp only [held, entry, initially, hr]

variable (marked : ∀ attributes ∈ g.vertices, Masks.ofText attributes.iLID ≠ 0)

include marked

theorem Run.routed (run : Run start t told) : Routed g.lids t ∧ t.Marked := by
  induction run with
  | start =>
    obtain ⟨routed, -, rfl⟩ := routed_start unique begins
    exact ⟨routed, marked⟩
  | next _ notified ih =>
    have step := notified.step ih.1.faithful
    exact ⟨step.routed ih.1, step.sameIndex.marked ih.2⟩

theorem TimelyRun.returns (run : TimelyRun start t told) : t.Returns told := by
  induction run with
  | start => exact (routed_start unique begins).2.1
  | next before notified timely ih =>
    obtain ⟨routed, marks⟩ := before.run.routed unique begins marked
    exact (notified.step routed.faithful).returns routed marks ih timely

end

/-- The FID to a node is zero where it cannot be reached, and otherwise that of a path with its
internal link. -/
theorem tm_knows_routes (g : Graph) (unique : g.adjacency.Nodup)
    (marked : ∀ attributes ∈ g.vertices, Masks.ofText attributes.iLID ≠ 0)
    (nodeID rvNodeID : Node) (start : TMIgraph)
    (begins : calculateRVTMFIDs (readTopology g nodeID rvNodeID) = .ok ((), start))
    (t : TMIgraph) (told : Told) (run : Run start t told) (manager v : Vertex) (node : Node)
    (home : t.reverseNodeIndex[t.nodeID]? = some manager)
    (known : t.reverseNodeIndex[node]? = some v) :
    ∃ fid, t.tmToNodeFID[node]? = some fid ∧ (fid = 0 ↔ ¬ t.graph.Reaches manager v) ∧
      (fid ≠ 0 → ∃ bits, PathFid t.graph v manager bits ∧ fid = bits ||| t.graph.ilid v) := by
  obtain ⟨routed, marked'⟩ := run.routed unique begins marked
  obtain ⟨fid, hf, routes⟩ := routed.routes node manager v home known
  have zero := routes.eq_zero_iff (routed.names.ilid_ne_zero marked' known)
  refine ⟨fid, hf, zero, fun nonzero => ?_⟩
  exact routes.path (not_not.mp fun unreachable => nonzero (zero.mpr unreachable))

/-- In every run of notifications that give no node its first way back, all nodes have been told.
After one more they have if and only if it is such a one too. -/
theorem nodes_told_routes (g : Graph) (unique : g.adjacency.Nodup)
    (marked : ∀ attributes ∈ g.vertices, Masks.ofText attributes.iLID ≠ 0)
    (nodeID rvNodeID : Node) (start : TMIgraph)
    (begins : calculateRVTMFIDs (readTopology g nodeID rvNodeID) = .ok ((), start))
    (t : TMIgraph) (told : Told) (run : TimelyRun start t told) :
    t.Informed told ∧ ∀ (t' : TMIgraph) (told' : Told), Notified t told t' told' →
      (t'.Informed told' ↔ Timely t t') := by
  obtain ⟨routed, marked'⟩ := run.run.routed unique begins marked
  have returns := run.returns unique begins marked
  refine ⟨returns.informed routed.names marked', fun t' told' notified => ?_⟩
  have step := notified.step routed.faithful
  constructor
  · exact step.timely routed marked' returns
  · intro timely
    have after := step.returns routed marked' returns timely
    exact after.informed (step.routed routed).names (step.sameIndex.marked marked')

end

section

theorem bits_eq_value : Link.bits = fun link => link.label.map value := by
  funext link
  simp only [Link.bits, funext ofText_eq_value]

variable [ShortestPaths Vertex]

/-- `orTexts` over the numbers that the texts stand for, to evaluate it. -/
def orValues (t : TMIgraph) : List Vertex → Bitvector → Except Fault Bitvector
  | u :: v :: rest, result => do
    let eid ← t.getEid (u, v)
    let text ← t.textOf eid
    orValues t (v :: rest) (result ||| Masks.value text)
  | _, result => .ok result

def calculateValue (t : TMIgraph) (source destination : Node) : Except Fault Bitvector := do
  let start ← t.vertexOf source
  let finish ← t.vertexOf destination
  let path := t.shortestPath start finish
  let result ← t.orValues path 0
  if path.length > 0 then
    match t.graph.vertices[finish]? with
    | some attributes => .ok (result ||| Masks.value attributes.iLID)
    | none => .error .igraphError
  else .ok result

omit [ShortestPaths Vertex] in
theorem orTexts_eq_orValues (t : TMIgraph) (path : List Vertex) (res : Bitvector) :
    t.orTexts path res = t.orValues path res := by
  induction path generalizing res with
  | nil => rfl
  | cons u tail ih =>
    cases tail with
    | nil => rfl
    | cons => simp only [orTexts, orValues, ih, setBits_eq_or, ofText_eq_value]

theorem calculateFID_eq_calculateValue : calculateFID = calculateValue := by
  funext t source destination
  simp only [calculateFID, orTexts_eq_orValues, setBits_eq_or, ofText_eq_value]
  rfl

end

/-- A name of digits. -/
def nodeName (digit : UInt8) : Node := #v[48, 48, 48, 48, 48, 48, 48, digit]

instance : NeZero 256 := ⟨by decide⟩

/-- A link attribute with a single bit. -/
def lidText (bit : Fin 256) : LidText :=
  ⟨⟨List.replicate (255 - bit) false ++ true :: List.replicate bit false⟩, by simp; omega⟩

/-- Both directions of the link to the node with this digit have changed. -/
def request (lsnType digit : UInt8) : List UInt8 := lsnType :: 1 :: (nodeName digit).toList ++ [0]

/-- Two nodes with two links in each direction. -/
def parallelLinks : Graph where
  vertices := [⟨nodeName 49, lidText 0⟩, ⟨nodeName 50, lidText 1⟩]
  edges := [⟨(0, 1), some (lidText 2)⟩, ⟨(1, 0), some (lidText 3)⟩,
    ⟨(0, 1), some (lidText 4)⟩, ⟨(1, 0), some (lidText 5)⟩]

/-- Two nodes are linked with the first one, one of them one way only, and with each other. -/
def oneWayLink : Graph where
  vertices := [⟨nodeName 49, lidText 0⟩, ⟨nodeName 50, lidText 1⟩, ⟨nodeName 51, lidText 2⟩]
  edges := [⟨(0, 1), some (lidText 3)⟩, ⟨(1, 2), some (lidText 4)⟩, ⟨(2, 1), some (lidText 5)⟩,
    ⟨(2, 0), some (lidText 6)⟩, ⟨(0, 2), some (lidText 7)⟩]

def addLink : UInt8 := 12

/-- The runs over these two graphs, evaluated. -/
theorem links_evaluated : let _ : ShortestPaths Vertex := breadthFirst
    let notify lsnType digit node :=
      handleLinkStateNotificationPM (fun _ => true) false (request lsnType digit) (nodeName node)
    outcome (calculateRVTMFIDs >>= fun _ => notify removeLink 50 49 >>= fun _ =>
        notify removeLink 50 49)
      (fun t => (t.reverseNodeIndex[t.nodeID]?, t.reverseNodeIndex[nodeName 50]?,
        t.tmToNodeFID[nodeName 50]?, t.graph.adjacency))
      (readTopology parallelLinks (nodeName 49) (nodeName 49)) =
        .ok (some 0, some 1, some (BitVec.twoPow 256 4 ||| BitVec.twoPow 256 1), []) ∧
    outcome (calculateRVTMFIDs >>= fun _ => notify removeLink 51 50)
      (fun t => (t.reverseNodeIndex[t.nodeID]?, t.reverseNodeIndex[nodeName 50]?,
        t.graph.adjacency))
      (readTopology oneWayLink (nodeName 49) (nodeName 49)) =
        .ok (some 0, some 1, [(0, 1), (2, 0), (0, 2)]) ∧
    outcome (calculateRVTMFIDs >>= fun _ => notify removeLink 51 50 >>= fun _ =>
        notify addLink 51 50)
      (fun t => ([t.nodeID, nodeName 50, t.rvNodeID].map fun node => t.reverseNodeIndex[node]?,
        t.rvFID[nodeName 50]?, t.graph.adjacency))
      (readTopology oneWayLink (nodeName 49) (nodeName 49)) =
        .ok ([some 0, some 1, some 0], some 0, [(0, 1), (2, 0), (0, 2), (2, 1), (1, 2)]) := by
  simp only [calculateRVTMFIDs, handleLinkStateNotificationPM, pathManagement, linkStateChanged,
    repairNodes, repairNode, repairRoute, repairReturn, reroute, recheck, renew, reconnectNodes,
    reconnectNode, calculateFID_eq_calculateValue, updateGraph, removeEdges, addBrokenEdges,
    readTopology, bits_eq_value]
  refine ⟨?_, ?_, ?_⟩ <;> decide +kernel

theorem not_reaches_of_no_edges {g : Graph} (none : g.adjacency = []) (reaches : g.Reaches s d) :
    s = d := by
  induction reaches with
  | refl => rfl
  | tail _ hl _ =>
    rw [Linked, none] at hl
    cases hl

/-- When both links have failed the FID over the second one is kept: the map of the freed LIDs has
room for one LID of a pair of nodes. -/
theorem stale_route_after_parallel_links : let _ : ShortestPaths Vertex := breadthFirst
    ∃ start t t' sent sent' fid,
      calculateRVTMFIDs (readTopology parallelLinks (nodeName 49) (nodeName 49)) = .ok ((), start) ∧
      handleLinkStateNotificationPM (fun _ => true) false (request removeLink 50) (nodeName 49)
        start = .ok (sent, t) ∧
      handleLinkStateNotificationPM (fun _ => true) false (request removeLink 50) (nodeName 49)
        t = .ok (sent', t') ∧
      t'.reverseNodeIndex[t'.nodeID]? = some 0 ∧ t'.reverseNodeIndex[nodeName 50]? = some 1 ∧
      t'.tmToNodeFID[nodeName 50]? = some fid ∧ fid ≠ 0 ∧ ¬ t'.graph.Reaches 0 1 := by
  intro _
  obtain ⟨sent', t', returns, seen⟩ := exists_of_outcome links_evaluated.1
  obtain ⟨_, start, begins, returns⟩ := bind_eq_ok.mp returns
  obtain ⟨sent, t, first, second⟩ := bind_eq_ok.mp returns
  simp only [Prod.mk.injEq] at seen
  obtain ⟨home, hk, hr, none⟩ := seen
  refine ⟨start, t, t', sent, sent', _, begins, first, second, home, hk, hr, by decide, ?_⟩
  exact fun reaches => absurd (not_reaches_of_no_edges none reaches) (by decide)

theorem oneWayLink_unique : oneWayLink.adjacency.Nodup := by decide

theorem oneWayLink_marked : ∀ attributes ∈ oneWayLink.vertices, ofText attributes.iLID ≠ 0 := by
  simp only [ofText_eq_value]
  decide +kernel

theorem oneWayLink_fails : let _ : ShortestPaths Vertex := breadthFirst
    ∃ start t sent,
      calculateRVTMFIDs (readTopology oneWayLink (nodeName 49) (nodeName 49)) = .ok ((), start) ∧
      handleLinkStateNotificationPM (fun _ => true) false (request removeLink 51) (nodeName 50)
        start = .ok (sent, t) ∧
      t.reverseNodeIndex[t.nodeID]? = some 0 ∧ t.reverseNodeIndex[nodeName 50]? = some 1 ∧
      t.graph.adjacency = [(0, 1), (2, 0), (0, 2)] := by
  intro _
  obtain ⟨sent, t, returns, seen⟩ := exists_of_outcome links_evaluated.2.1
  obtain ⟨_, start, begins, returns⟩ := bind_eq_ok.mp returns
  simp only [Prod.mk.injEq] at seen
  exact ⟨start, t, sent, begins, returns, seen⟩

theorem tm_knows_routes_oneWay : let _ : ShortestPaths Vertex := breadthFirst
    ∃ start t told fid,
      calculateRVTMFIDs (readTopology oneWayLink (nodeName 49) (nodeName 49)) = .ok ((), start) ∧
      Run start t told ∧ t.graph.adjacency = [(0, 1), (2, 0), (0, 2)] ∧
      t.tmToNodeFID[nodeName 50]? = some fid ∧ (fid = 0 ↔ ¬ t.graph.Reaches 0 1) ∧
      (fid ≠ 0 → ∃ bits, PathFid t.graph 1 0 bits ∧ fid = bits ||| t.graph.ilid 1) := by
  intro _
  obtain ⟨start, t, sent, begins, returns, home, hk, edges⟩ := oneWayLink_fails
  have run : Run start t (hearAll (initially start) sent) := .next .start (.ofPM returns)
  obtain ⟨fid, hf, rest⟩ := tm_knows_routes oneWayLink oneWayLink_unique oneWayLink_marked
    (nodeName 49) (nodeName 49) start begins t _ run 0 1 (nodeName 50) home hk
  exact ⟨start, t, _, fid, begins, run, edges, hf, rest⟩

theorem nodes_told_routes_oneWay : let _ : ShortestPaths Vertex := breadthFirst
    ∃ start t told,
      calculateRVTMFIDs (readTopology oneWayLink (nodeName 49) (nodeName 49)) = .ok ((), start) ∧
      TimelyRun start t told ∧ t.graph.adjacency = [(0, 1), (2, 0), (0, 2)] ∧ t.Informed told ∧
      ∀ t' told', Notified t told t' told' → (t'.Informed told' ↔ Timely t t') := by
  intro _
  obtain ⟨start, t, sent, begins, returns, home, hk, edges⟩ := oneWayLink_fails
  have graph := (routed_start oneWayLink_unique begins).2.2
  have fewer : t.graph.adjacency ⊆ start.graph.adjacency := by
    rw [edges, graph]
    decide
  have timely : Timely start t := fun _ _ _ _ _ _ _ _ _ reaches => reaches.wider fewer
  have run : TimelyRun start t (hearAll (initially start) sent) :=
    .next .start (.ofPM returns) timely
  exact ⟨start, t, _, begins, run, edges, nodes_told_routes oneWayLink oneWayLink_unique
    oneWayLink_marked (nodeName 49) (nodeName 49) start begins t _ run⟩

/-- A node that lost only its way back is not told when it has one again. -/
theorem way_back_not_told : let _ : ShortestPaths Vertex := breadthFirst
    ∃ start t t' sent sent',
      calculateRVTMFIDs (readTopology oneWayLink (nodeName 49) (nodeName 49)) = .ok ((), start) ∧
      handleLinkStateNotificationPM (fun _ => true) false (request removeLink 51) (nodeName 50)
        start = .ok (sent, t) ∧
      handleLinkStateNotificationPM (fun _ => true) false (request addLink 51) (nodeName 50)
        t = .ok (sent', t') ∧
      ¬ t'.Informed (hearAll (hearAll (initially start) sent) sent') := by
  intro _
  obtain ⟨sent', t', returns, seen⟩ := exists_of_outcome links_evaluated.2.2
  obtain ⟨_, start, begins, returns⟩ := bind_eq_ok.mp returns
  obtain ⟨sent, t, first, second⟩ := bind_eq_ok.mp returns
  simp only [Prod.mk.injEq, map_cons, map_nil, List.cons.injEq] at seen
  obtain ⟨⟨home, hk, goal, -⟩, hr, edges⟩ := seen
  refine ⟨start, t, t', sent, sent', begins, first, second, fun informed => ?_⟩
  have link : ∀ u v, (u, v) ∈ [(0, 1), (2, 0), (0, 2), (2, 1), (1, 2)] →
      Linked t'.graph.adjacency u v := by
    intro u v hm
    rw [Linked, edges]
    exact hm
  have ht : t'.graph.Reaches 0 1 := .single (link 0 1 (by decide))
  have back : t'.graph.Reaches 1 0 := .tail (.single (link 1 2 (by decide))) (link 2 0 (by decide))
  obtain ⟨fid, _, hf, -, nonzero, -⟩ := informed _ 0 1 home hk ht .rv 0 goal back
  cases hr.symm.trans hf
  exact nonzero rfl

end TMIgraph

end Blackadder.Topology
