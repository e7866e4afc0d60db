import Mathlib.Data.ENat.Basic
import Blackadder.Topology.Conservation

namespace Blackadder.Topology

open EdgeList Program Walks List Masks Option

/-- `"a->b->c"`. -/
def pathText (names : List Node) : List UInt8 :=
  [45, 62].intercalate (names.map Vector.toList)

/-- The number of hops is that of the vertices on the path; `⊤` stands for `UINT_MAX`, which no path
reaches. -/
structure Measured where
  resultFID : Bitvector
  numberOfHops : ℕ∞
  path : List UInt8

namespace TMIgraph

/-- `igraph_get_shortest_paths` between two vertices. -/
def shortestPath [ShortestPaths Vertex] (t : TMIgraph) (source destination : Vertex) :
    List Vertex :=
  ShortestPaths.path t.graph.adjacency source destination

/-- `igraph_cattribute_VAS(&graph, "NODEID", vertex)`. -/
def nameOf (t : TMIgraph) (vertex : Vertex) : Except Fault Node :=
  match t.graph.vertices[vertex]? with
  | some attributes => .ok attributes.nodeID
  | none => .error .igraphError

/-- The `LID` attribute of an edge, of which `FID_LEN * 8` characters are read. -/
def textOf (t : TMIgraph) (eid : Nat) : Except Fault LidText :=
  match t.graph.edges[eid]? with
  | some link =>
    match link.label with
    | some text => .ok text
    | none => .error .pastTheEnd
  | none => .error .igraphError

/-- The bits of the vector that `edge_LID` has for an edge. -/
def lidOf (t : TMIgraph) (eid : Nat) : Except Fault Bitvector :=
  match t.edgeLID[eid]? with
  | some (some lid) => .ok lid
  | some none => .error .pastTheEnd
  | none => .error .endDereferenced

/-- The loop over a path that sets the bits of every `LID` attribute. -/
def orTexts (t : TMIgraph) : List Vertex → Bitvector → Except Fault Bitvector
  | u :: v :: rest, result => do
    let eid ← t.getEid (u, v)
    let text ← t.textOf eid
    orTexts t (v :: rest) (Masks.setBits result text)
  | _, result => .ok result

/-- The loop over a path that takes the vectors from `edge_LID`. -/
def orLIDs (t : TMIgraph) : List Vertex → Bitvector → Except Fault Bitvector
  | u :: v :: rest, result => do
    let eid ← t.getEid (u, v)
    let lid ← t.lidOf eid
    orLIDs t (v :: rest) (result ||| lid)
  | _, result => .ok result

/-- `calculateFID(source, destination)`. -/
def calculateFID [ShortestPaths Vertex] (t : TMIgraph) (source destination : Node) :
    Except Fault Bitvector := do
  let start ← t.vertexOf source
  let finish ← t.vertexOf destination
  let path := t.shortestPath start finish
  let result ← t.orTexts path 0
  if path.length > 0 then
    match t.graph.vertices[finish]? with
    | some attributes => .ok (Masks.setBits result attributes.iLID)
    | none => .error .igraphError
  else .ok result

/-- `calculateFID(source, destination, resultFID, numberOfHops, path)`. -/
def calculateFIDHops [ShortestPaths Vertex] (t : TMIgraph) (source destination : Node)
    (resultFID : Bitvector) : Except Fault Measured := do
  let start ← t.vertexOf source
  let finish ← t.vertexOf destination
  let path := t.shortestPath start finish
  let names ← path.mapM t.nameOf
  let result ← t.orLIDs path resultFID
  let ilid ← find t.nodeILID destination
  .ok ⟨result ||| ilid, if path.length = 0 then ⊤ else path.length, pathText names⟩

section

variable {t : TMIgraph} {path : List Vertex}

theorem getEid_eq_ok {pair : ICNEdge} {eid : Nat} :
    t.getEid pair = .ok eid ↔ number t.graph.edges pair = some eid := by
  unfold getEid
  cases number t.graph.edges pair with
  | none => exact iff_of_false nofun nofun
  | some found => rw [Except.ok.injEq, some.injEq]

theorem lidOf_eq (hr : t.Renumbered) (eid : Nat) (inside : eid < t.graph.edges.length) :
    t.lidOf eid = (t.textOf eid).map ofText := by
  rw [lidOf, hr, getElem?_map, getElem?_eq_getElem inside, textOf, getElem?_eq_getElem inside]
  cases shape : t.graph.edges[eid].label with
  | none | some text => simp [Link.bits, shape, Except.map]

theorem orLIDs_eq_orTexts (hr : t.Renumbered) (path : List Vertex) (res : Bitvector) :
    t.orLIDs path res = t.orTexts path res := by
  induction path generalizing res with
  | nil => rfl
  | cons u tail ih =>
    cases tail with
    | nil => rfl
    | cons v rest =>
      rw [orLIDs, orTexts]
      cases hf : t.getEid (u, v) with
      | error => rfl
      | ok eid =>
        obtain ⟨link, ht, -⟩ := number_eq_some (getEid_eq_ok.mp hf)
        have inside := (List.getElem?_eq_some_iff.mp ht).1
        change (t.lidOf eid >>= fun lid => _) = (t.textOf eid >>= fun text => _)
        rw [lidOf_eq hr eid inside]
        cases t.textOf eid with
        | error => rfl
        | ok text =>
          change t.orLIDs (v :: rest) (res ||| ofText text) =
            t.orTexts (v :: rest) (setBits res text)
          rw [ih, setBits_eq_or]

theorem orTexts_returns (labelled : ∀ link ∈ t.graph.edges, ∃ lid, Link.bits link = some lid)
    (chain : path.IsChain (Linked t.graph.adjacency)) (res : Bitvector) :
    ∃ fid, t.orTexts path res = .ok fid := by
  induction chain generalizing res with
  | nil | singleton => exact ⟨res, rfl⟩
  | @cons_cons u v rest hl _ ih =>
    have hp : (number t.graph.edges (u, v)).isSome := number_isSome.mpr hl
    obtain ⟨eid, hf⟩ := isSome_iff_exists.mp hp
    obtain ⟨link, ht, -⟩ := number_eq_some hf
    obtain ⟨lid, bits⟩ := labelled link (mem_of_getElem? ht)
    obtain ⟨text, label, -⟩ := map_eq_some_iff.mp bits
    have hg : t.textOf eid = .ok text := by simp only [textOf, ht, label]
    obtain ⟨fid, hr⟩ := ih (setBits res text)
    refine ⟨fid, ?_⟩
    rw [orTexts, getEid_eq_ok.mpr hf]
    change (t.textOf eid >>= fun text => _) = _
    rw [hg]
    exact hr

end

theorem mapM_nameOf {t : TMIgraph} {path : List Vertex}
    (inside : ∀ v ∈ path, v < t.graph.vertices.length) :
    ∃ names, path.mapM t.nameOf = .ok names := by
  induction path with
  | nil => exact ⟨[], rfl⟩
  | cons v rest ih =>
    obtain ⟨names, hr⟩ := ih fun w hm => inside w (mem_cons_of_mem _ hm)
    have here := inside v mem_cons_self
    refine ⟨t.graph.vertices[v].nodeID :: names, ?_⟩
    rw [mapM_cons, nameOf, getElem?_eq_getElem here, hr]
    rfl

section

/-- The states after calls whose reports the monitoring agent has all accepted. -/
inductive SuccessfulRun (start : TMIgraph) : TMIgraph → Prop
  | start : SuccessfulRun start start
  | call {t t' : TMIgraph} {updated : Bool} (moly : LinkReport → Bool) (link : LinkUpdate)
      (run : SuccessfulRun start t) (returns : updateGraph moly link t = .ok (updated, t'))
      (accepted : ¬ Refused moly t t') : SuccessfulRun start t'

variable {t t' : TMIgraph} {g : Graph}

theorem SuccessfulRun.kept (hs : g.Simple) {nid rv : Node}
    (run : SuccessfulRun (readTopology g nid rv) t) :
    t.Kept g ∧ t.Renumbered ∧ SameNodes (readTopology g nid rv) t ∧ t.Faithful g.lids := by
  induction run with
  | start =>
    exact ⟨kept_readTopology hs _ _, rfl, SameNodes.refl _, faithful_readTopology hs.unique _ _⟩
  | @call t t' _ moly link run returns accepted ih =>
    obtain ⟨kept, hr, nodes, faithful⟩ := ih
    obtain ⟨_, _, head, tail, res⟩ := wp_ok (updateGraph_spec faithful moly link) returns
    have hk : Known link t :=
      ⟨NestedMap.mem_iff_exists.mpr ⟨_, head⟩, NestedMap.mem_iff_exists.mpr ⟨_, tail⟩⟩
    have outcome := wp_ok (updateGraph_outcome kept hs moly hk) returns
    have safe : Safe moly link t := by
      by_contra notSafe
      exact accepted (outcome.broken notSafe).2
    obtain ⟨kept', nums⟩ := outcome.settled safe
    exact ⟨kept', (nums hr).resolve_right accepted, nodes.trans res.nodes, res.faithful⟩

theorem SameNodes.names (same : SameNodes t t') (names : t.Names) : t'.Names where
  vertex node v hf := by
    rw [same.reverseNodeIndex] at hf
    rw [same.vertices, same.nodeILID]
    exact names.vertex node v hf

end

end TMIgraph

/-!
The handlers of link-state notifications and the FIDs that the topology manager keeps between any
node and itself or the rendezvous node.
-/

open Std (TreeMap)
/-- A link-state notification that has been read, with the node that published it. -/
structure Notification where
  lsnType : UInt8
  netType : UInt8
  affectedNode : Node
  requestPublisher : Node

def removeLink : UInt8 := 13

/-- The call of `updateGraph` for a notification. -/
def Notification.link (n : Notification) : LinkUpdate where
  source := n.affectedNode
  destination := n.requestPublisher
  bidirectional := n.netType != 0
  remove := n.lsnType == removeLink

/-- `string(request, offset, NODEID_LEN)` makes a string of the characters before the first zero,
and then takes a part of it. No node has a shorter name. -/
def readNotification (request : List UInt8) (publisher : Node) : Except Fault Notification :=
  match request with
  | lsnType :: netType :: _ =>
    let text := request.takeWhile (· ≠ 0)
    if text.length < 2 then .error .outOfRange
    else
      let name := (text.drop 2).take 8
      if full : name.length = 8 then
        .ok ⟨lsnType, netType, ⟨name.toArray, by simpa using full⟩, publisher⟩
      else .error .endDereferenced
  | _ => .error .pastTheEnd

/-- The two nodes that every node has to reach. -/
inductive Target where
  | rv | tm
  deriving DecidableEq

/-- `UPDATE_RVFID` and `UPDATE_TMFID` for a node, a failed LID, and the request to the resilience
manager. -/
inductive Publication where
  | updateFID (target : Target) (node : Node) (route fid : Bitvector)
  | affectedLID (route lid : Bitvector)
  | discoverFailure (manager : Node) (route : Bitvector) (about : Notification)

namespace Target

/-- `RVNodeID` or the topology manager's own name. -/
def node (t : TMIgraph) : Target → Node
  | rv => t.rvNodeID
  | tm => t.nodeID

/-- `RVFID` or `TMFID`. -/
def fids (t : TMIgraph) : Target → TreeMap Node Bitvector
  | rv => t.rvFID
  | tm => t.tmFID

/-- `setRVFID` or `setTMFID`. -/
def set (node : Node) (fid : Bitvector) (t : TMIgraph) : Target → TMIgraph
  | rv => { t with rvFID := t.rvFID.insert node fid }
  | tm => { t with tmFID := t.tmFID.insert node fid }

end Target

namespace TMIgraph

def setTMToNodeFID (node : Node) (fid : Bitvector) (t : TMIgraph) : TMIgraph :=
  { t with tmToNodeFID := t.tmToNodeFID.insert node fid }

def getTMToNodeFID (node : Node) : Program TMIgraph Fault Bitvector :=
  examine fun t => find t.tmToNodeFID node

section

variable [ShortestPaths Vertex] (moly : LinkReport → Bool) (ucNotification : Bool) (target : Target)
variable (lids : List Bitvector) (node : Node) (lid : Bitvector) (link : LinkUpdate)
variable (n : Notification) (request : List UInt8) (publisher : Node)

def calculateRVTMFIDs : Program TMIgraph Fault Unit := do
  let nodes ← Program.read fun t => t.reverseNodeIndex.keys
  forM nodes fun node => do
    let rv ← examine fun t => t.calculateFID node t.rvNodeID
    Program.update fun t => Target.rv.set node rv t
    let tm ← examine fun t => t.calculateFID node t.nodeID
    Program.update fun t => Target.tm.set node tm t
    let route ← examine fun t => t.calculateFID t.nodeID node
    Program.update (setTMToNodeFID node route)

/-- A FID from a node is calculated, kept and sent to the node. -/
def renew : Program TMIgraph Fault (List Publication) := do
  let fid ← examine fun t => t.calculateFID node (target.node t)
  Program.update fun t => target.set node fid t
  let route ← getTMToNodeFID node
  pure [.updateFID target node route fid]

/-- The same, where a failed LID affects the FID. -/
def recheck :
    Program TMIgraph Fault (List Publication) := do
  let fid ← examine fun t => find (target.fids t) node
  if Masks.Covers fid lid then renew target node else pure []

/-- The FID to a node is calculated again where a failed LID affects it. -/
def reroute : Program TMIgraph Fault Unit := do
  let fid ← getTMToNodeFID node
  if Masks.Covers fid lid then do
    let fid ← examine fun t => t.calculateFID t.nodeID node
    Program.update (setTMToNodeFID node fid)
  else pure ()

/-- The loop over the failed LIDs for the direction to a node. -/
def repairRoute :
    Program TMIgraph Fault (List Publication) :=
  lids.foldlM (fun sent lid => do
    reroute node lid
    if ucNotification then do
      let route ← getTMToNodeFID node
      pure (sent ++ [.affectedLID route lid])
    else pure sent) []

/-- The loop over the failed LIDs for the directions from a node. -/
def repairReturn :
    Program TMIgraph Fault (List Publication) :=
  lids.foldlM (fun sent lid => do
    let rv ← recheck .rv node lid
    let tm ← recheck .tm node lid
    pure (sent ++ (rv ++ tm))) []

/-- The body of the loop over the nodes after a failure. -/
def repairNode :
    Program TMIgraph Fault (List Publication) := do
  let affected ← repairRoute ucNotification lids node
  let route ← getTMToNodeFID node
  if route ≠ 0 then do
    let updates ← repairReturn lids node
    pure (affected ++ updates)
  else do
    Program.update fun t => Target.rv.set node 0 t
    Program.update fun t => Target.tm.set node 0 t
    pure affected

/-- The loop over the nodes after a failure, which also collects `TM_to_all_FID`. -/
def repairNodes :
    Program TMIgraph Fault (List Publication × Bitvector) := do
  let nodes ← Program.read fun t => t.tmToNodeFID.keys
  nodes.foldlM (fun (sent, all) node => do
    let more ← repairNode ucNotification lids node
    let route ← getTMToNodeFID node
    pure (sent ++ more, all ||| route)) ([], 0)

/-- The body of the loop over the nodes after a restoration. -/
def reconnectNode : Program TMIgraph Fault (List Publication) := do
  let route ← getTMToNodeFID node
  if route = 0 then do
    let route ← examine fun t => t.calculateFID t.nodeID node
    if route ≠ 0 then do
      Program.update (setTMToNodeFID node route)
      let rv ← renew .rv node
      let tm ← renew .tm node
      pure (rv ++ tm)
    else pure []
  else pure []

def reconnectNodes : Program TMIgraph Fault (List Publication) := do
  let nodes ← Program.read fun t => t.tmToNodeFID.keys
  nodes.foldlM (fun sent node => do
    let more ← reconnectNode node
    pure (sent ++ more)) []

/-- The failed LIDs in the order of the map. -/
def affectedLIDs (t : TMIgraph) : List Bitvector := t.freedLIDs.toList.map Prod.snd

/-- What the two handlers have in common. After a failure they `finish` in different ways. -/
def linkStateChanged
    (finish : List Bitvector → List Publication × Bitvector →
      Program TMIgraph Fault (List Publication)) : Program TMIgraph Fault (List Publication) := do
  let update ← updateGraph moly link
  if update then do
    if link.remove then do
      let lids ← Program.read affectedLIDs
      let result ← repairNodes ucNotification lids
      finish lids result
    else reconnectNodes
  else pure []

/-- The path management handler, for a notification that has been read. -/
def pathManagement :
    Program TMIgraph Fault (List Publication) :=
  linkStateChanged moly ucNotification n.link fun lids result =>
    pure (if ucNotification then result.1 else result.1 ++ lids.map (.affectedLID result.2))

/-- The resilience handler, for a notification that has been read. -/
def resilience :
    Program TMIgraph Fault (List Publication) :=
  linkStateChanged moly false n.link fun _ result => do
    let manager ← Program.read fun t => t.rmNodeID
    let route ← getTMToNodeFID manager
    pure (result.1 ++ [.discoverFailure manager route n])

def handleLinkStateNotificationPM : Program TMIgraph Fault (List Publication) := do
  let n ← examine fun _ => readNotification request publisher
  pathManagement moly ucNotification n

def handleLinkStateNotificationRM : Program TMIgraph Fault (List Publication) := do
  let n ← examine fun _ => readNotification request publisher
  resilience moly n

end

end TMIgraph

/-- About one direction the second byte is zero, and the handlers stop with an exception. -/
theorem readNotification_unidirectional (lsnType : UInt8) (rest : List UInt8) (pub : Node) :
    readNotification (lsnType :: 0 :: rest) pub = .error .outOfRange := by
  have hs : (List.takeWhile (· ≠ 0) (lsnType :: 0 :: rest)).length < 2 := by
    rw [List.takeWhile_cons]
    split
    · rw [List.takeWhile_cons]
      simp
    · exact Nat.zero_lt_two
  simp only [readNotification, hs, if_true]

end Blackadder.Topology
