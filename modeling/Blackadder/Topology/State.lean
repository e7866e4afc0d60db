import Blackadder.Common
import Blackadder.Library.EdgeList
import Blackadder.Library.Masks
import Blackadder.Library.NestedMap
import Blackadder.Library.Program
import Blackadder.Library.Walks

namespace Blackadder.Topology

open Option
open Std (TreeMap)

/-- A `NODEID`: a string of `NODEID_LEN` characters. -/
abbrev Node : Type := Fragment

/-- The number igraph has for a vertex. -/
abbrev Vertex : Type := Nat

/-- `Bitvector(FID_LEN * 8)`. -/
abbrev Bitvector : Type := BitVec 256

/-- The text of a `LID` or `iLID` attribute, `true` for the character `'1'`. -/
abbrev LidText : Type := Vector Bool 256

structure VertexAttributes where
  nodeID : Node
  iLID : LidText

/-- An edge with its `LID` attribute. igraph gives an edge it adds the empty string. -/
abbrev Link : Type := EdgeList.Edge Vertex (Option LidText)

structure Graph where
  vertices : List VertexAttributes
  edges : List Link

/-- The pairs of vertices that the edges lead from and to. -/
def Graph.adjacency (g : Graph) : List (Vertex × Vertex) := g.edges.map EdgeList.Edge.ends

abbrev ICNEdge : Type := Vertex × Vertex

/-- `std::pair` compares its first components first. -/
instance : Ord ICNEdge := lexOrd

inductive LinkState where
  | up | down
  deriving DecidableEq

/-- The arguments of `Moly::linkState`. The link is `none` where `lid_int` has not been set. -/
structure LinkReport where
  link : Option Nat
  destination : Node
  source : Node
  state : LinkState
  deriving DecidableEq

/-- What the code does not guard against. -/
inductive Fault where
  /-- `(*map.find(key)).second` for a key that is not in the map. -/
  | endDereferenced
  /-- Characters or bits read past the end of an empty text or bit vector. -/
  | pastTheEnd
  /-- An error of igraph, whose handler aborts. -/
  | igraphError
  /-- `std::out_of_range`, which nothing catches. -/
  | outOfRange
  deriving DecidableEq

/-- The keys of `edge_LID` are the numbers of the edges. Reports are kept in the order they were
sent. -/
structure TMIgraph where
  graph : Graph
  reverseNodeIndex : TreeMap Node Vertex
  nodeILID : TreeMap Node Bitvector
  edgeLID : List (Option Bitvector)
  freedLIDs : TreeMap ICNEdge Bitvector
  nodeID : Node
  rvNodeID : Node
  rmNodeID : Node
  tmToNodeFID : TreeMap Node Bitvector
  rvFID : TreeMap Node Bitvector
  tmFID : TreeMap Node Bitvector
  reports : List LinkReport

/-- The vector made of a `LID` attribute; of an empty one for a new edge. -/
def Link.bits (link : Link) : Option Bitvector := link.label.map Masks.ofText

/-- `readTopology`, on a graph. Of two vertices with one name the maps keep the first. -/
def readTopology (graph : Graph) (nodeID rvNodeID : Node) : TMIgraph where
  graph := graph
  reverseNodeIndex := graph.vertices.zipIdx.foldl
    (fun index vertex => index.insertIfNew vertex.1.nodeID vertex.2) ∅
  nodeILID := graph.vertices.foldl
    (fun index vertex => index.insertIfNew vertex.nodeID (Masks.ofText vertex.iLID)) ∅
  edgeLID := graph.edges.map Link.bits
  freedLIDs := ∅
  nodeID := nodeID
  rvNodeID := rvNodeID
  rmNodeID := nodeID
  tmToNodeFID := ∅
  rvFID := ∅
  tmFID := ∅
  reports := []

/-- `(*map.find(key)).second`. -/
def find {κ υ : Type} [Ord κ] (map : TreeMap κ υ) (key : κ) : Except Fault υ :=
  match map[key]? with
  | some value => .ok value
  | none => .error .endDereferenced

theorem find_eq_ok {κ υ : Type} [Ord κ] {map : TreeMap κ υ} {key : κ} {val : υ} :
    find map key = .ok val ↔ map[key]? = some val := by
  unfold find
  cases map[key]? with
  | none => exact iff_of_false nofun nofun
  | some found => rw [Except.ok.injEq, some.injEq]

namespace TMIgraph

/-- The vertex of a node name. -/
def vertexOf (t : TMIgraph) (node : Node) : Except Fault Vertex := find t.reverseNodeIndex node

/-- `igraph_get_eid` with an error for a missing edge. -/
def getEid (t : TMIgraph) (pair : ICNEdge) : Except Fault Nat :=
  match EdgeList.number t.graph.edges pair with
  | some number => .ok number
  | none => .error .igraphError

/-- The names that the maps of `readTopology` know. -/
structure Names (t : TMIgraph) : Prop where
  vertex : ∀ node v, t.reverseNodeIndex[node]? = some v →
    ∃ attributes : VertexAttributes,
      t.graph.vertices[v]? = some attributes ∧ attributes.nodeID = node ∧
      t.nodeILID[node]? = some (Masks.ofText attributes.iLID)

end TMIgraph

theorem getElem?_foldl_insertIfNew {κ υ ι : Type} [Ord κ] [Std.TransOrd κ] [Std.LawfulEqOrd κ]
    (name : ι → κ) (val : ι → υ) (items : List ι) (map : TreeMap κ υ) (key : κ) :
    (items.foldl (fun map item => map.insertIfNew (name item) (val item)) map)[key]? =
      map[key]?.or ((items.find? fun item => compare (name item) key = .eq).map val) := by
  induction items generalizing map with
  | nil => simp
  | cons first rest ih =>
    rw [List.foldl_cons, ih, TreeMap.getElem?_insertIfNew]
    by_cases here : compare (name first) key = .eq
    · have hs : name first = key := Std.LawfulEqCmp.eq_of_compare here
      subst hs
      cases hf : map[name first]? with
      | none =>
        have ha : name first ∉ map := by simp [NestedMap.mem_iff_exists, hf]
        simp [ha]
      | some old =>
        have hp : name first ∈ map := NestedMap.mem_iff_exists.mpr ⟨old, hf⟩
        simp [hp]
    · simp [here]

theorem names_readTopology (graph : Graph) (nid rv : Node) : (readTopology graph nid rv).Names where
  vertex node v hf := by
    simp only [readTopology] at hf ⊢
    rw [getElem?_foldl_insertIfNew (fun vertex : VertexAttributes × Nat => vertex.1.nodeID),
      TreeMap.getElem?_emptyc, none_or, map_eq_some_iff] at hf
    obtain ⟨⟨attributes, num⟩, first, rfl⟩ := hf
    have place := List.mem_zipIdx_iff_getElem?.mp (List.mem_of_find?_eq_some first)
    have hi := List.find?_some first
    have hn : attributes.nodeID = node := Std.LawfulEqCmp.eq_of_compare (of_decide_eq_true hi)
    refine ⟨attributes, place, hn, ?_⟩
    -- The first vertex of that name is found in both loops.
    have ha : graph.vertices.find? (fun vertex => compare vertex.nodeID node = .eq) =
        some attributes := by
      rw [← List.zipIdx_map_fst 0 graph.vertices, List.find?_map]
      exact congrArg (Option.map Prod.fst) first
    rw [getElem?_foldl_insertIfNew, TreeMap.getElem?_emptyc, ha]
    rfl

open EdgeList

/-- The arguments of `updateGraph`. -/
structure LinkUpdate where
  source : Node
  destination : Node
  bidirectional : Bool
  remove : Bool

/-- The position of the first `'1'` among the first characters of a text. -/
def firstOne (positions : Nat) (text : LidText) : Option Nat :=
  ((List.finRange 256).find? fun pos => pos.val < positions && text[pos]).map Fin.val

namespace TMIgraph

/-- A report is on its way to the monitoring agent. -/
def report (report : LinkReport) (t : TMIgraph) : TMIgraph :=
  { t with reports := t.reports ++ [report] }

/-- `freedLIDs.insert`, which leaves an entry that is there. -/
def free (edge : ICNEdge) (lid : Bitvector) (t : TMIgraph) : TMIgraph :=
  { t with freedLIDs := t.freedLIDs.insertIfNew edge lid }

def setEdges (edges : List Link) (t : TMIgraph) : TMIgraph :=
  { t with graph := { t.graph with edges } }

/-- `igraph_add_edges`. -/
def addEdges (edges : List ICNEdge) (t : TMIgraph) : TMIgraph :=
  t.setEdges (t.graph.edges ++ edges.map fun ends => ⟨ends, none⟩)

/-- `igraph_delete_edges`. -/
def deleteEdges (numbers : List Nat) (t : TMIgraph) : TMIgraph :=
  t.setEdges (delete t.graph.edges numbers)

/-- A freed LID becomes the attribute of an edge and is erased from `freedLIDs`. -/
def setLID (edge : ICNEdge) (eid : Nat) (lid : Bitvector) (t : TMIgraph) : TMIgraph :=
  { t.setEdges (relabel t.graph.edges eid (some (Masks.toText lid))) with
    freedLIDs := t.freedLIDs.erase edge }

def updateTMStates (t : TMIgraph) : TMIgraph :=
  { t with edgeLID := t.graph.edges.map Link.bits }

section

variable (t : TMIgraph) (message : LinkReport) (edge : ICNEdge) (eid : Nat) (lid : Bitvector)

@[simp] theorem report_graph : (t.report message).graph = t.graph := rfl

@[simp] theorem report_freedLIDs : (t.report message).freedLIDs = t.freedLIDs := rfl

@[simp] theorem free_graph : (t.free edge lid).graph = t.graph :=
  rfl

@[simp] theorem setLID_edges : (t.setLID edge eid lid).graph.edges =
      relabel t.graph.edges eid (some (Masks.toText lid)) := rfl

@[simp] theorem setLID_freedLIDs : (t.setLID edge eid lid).freedLIDs = t.freedLIDs.erase edge := rfl

end

variable (moly : LinkReport → Bool)

/-- `moly.linkState`, whose answer is up to the monitoring agent. -/
def linkState (message : LinkReport) : Program TMIgraph Fault Bool := do
  Program.update (report message)
  pure (moly message)

/-- `(*edge_LID.find(eid)).second`, where `eid` is -1 for an edge that is not there. -/
def usedLID (eid : Option Nat) : Program TMIgraph Fault Bitvector := do
  let number ← Program.expect .endDereferenced eid
  let entry ← Program.read fun t => t.edgeLID[number]?
  let lid ← Program.expect .endDereferenced entry
  Program.expect .pastTheEnd lid

/-- The LID of a freed edge is set as attribute of the edge igraph finds for it. -/
def restore (edge : ICNEdge) : Program TMIgraph Fault Bitvector := do
  let freed ← Program.read fun t => t.freedLIDs[edge]?
  let lid ← Program.expect .endDereferenced freed
  let eid ← Program.read fun t => number t.graph.edges edge
  let eid ← Program.expect .igraphError eid
  Program.update (setLID edge eid lid)
  pure lid

variable (link : LinkUpdate) (forward backward : ICNEdge)

/-- The edge exists and is to be removed. A refused report ends the call with `return -1`, which is
`true`. -/
def removeEdges
    (eid : Nat) : Program TMIgraph Fault Bool := do
  let lid ← usedLID (some eid)
  let lidInt := firstOne 32 (Masks.toText lid)
  Program.update (free forward lid)
  let reported ← linkState moly ⟨lidInt, link.destination, link.source, .down⟩
  if reported then do
    if link.bidirectional then do
      let back ← Program.read fun t => number t.graph.edges backward
      let lid ← usedLID back
      Program.update (free backward lid)
      let lidInt := (firstOne 256 (Masks.toText lid)).or lidInt
      let reported ← linkState moly ⟨lidInt, link.source, link.destination, .down⟩
      if reported then do
        Program.update (deleteEdges (eid :: back.toList))
        Program.update updateTMStates
        pure true
      else pure true
    else do
      Program.update (deleteEdges [eid])
      Program.update updateTMStates
      pure true
  else pure true

/-- The edges were removed before. The test `LID[pos]` holds of any first character. -/
def addBrokenEdges :
    Program TMIgraph Fault Bool := do
  Program.update (addEdges (if link.bidirectional then [forward, backward] else [forward]))
  let lid ← restore forward
  let lidInt := firstOne 32 (Masks.toText lid)
  let reported ← linkState moly ⟨lidInt, link.destination, link.source, .up⟩
  if reported then do
    if link.bidirectional then do
      let _ ← restore backward
      let reported ← linkState moly ⟨some 0, link.source, link.destination, .up⟩
      if reported then do
        Program.update updateTMStates
        pure true
      else pure true
    else do
      Program.update updateTMStates
      pure true
  else pure true

/-- All the edges of an update have been removed before. -/
def broken (t : TMIgraph) (bidirectional : Bool) (forward backward : ICNEdge) : Bool :=
  t.freedLIDs.contains forward && (!bidirectional || t.freedLIDs.contains backward)

def updateGraph : Program TMIgraph Fault Bool := do
  let source ← Program.read fun t => t.reverseNodeIndex[link.source]?
  let source ← Program.expect .endDereferenced source
  let destination ← Program.read fun t => t.reverseNodeIndex[link.destination]?
  let destination ← Program.expect .endDereferenced destination
  let broken ← Program.read fun t =>
    t.broken link.bidirectional (source, destination) (destination, source)
  let eid ← Program.read fun t => number t.graph.edges (source, destination)
  match eid with
  | some eid =>
    if link.remove then removeEdges moly link (source, destination) (destination, source) eid
    else pure false
  | none =>
    if !link.remove && broken then
      addBrokenEdges moly link (source, destination) (destination, source)
    else pure false

end TMIgraph

end Blackadder.Topology
