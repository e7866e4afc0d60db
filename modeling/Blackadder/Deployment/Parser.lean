import Mathlib.Algebra.GroupWithZero.Nat

namespace Blackadder.Deployment

open List Option Nat

inductive OverlayMode
  | mac
  | macQos
  | macMl
  /-- Every other text. -/
  | ip
deriving DecidableEq

inductive LnkType
  | pp
  | oo
  | cl
deriving DecidableEq

variable {w : Nat}

/-- A connection. An identifier that is not given yet is the empty vector. -/
structure Connection (w : Nat) where
  lnkType : Option LnkType
  lid : Option (BitVec w)

structure Node (w : Nat) where
  type : List Char
  iLid : Option (BitVec w)
  connections : List (Connection w)

structure Domain (w : Nat) where
  overlayMode : OverlayMode
  numberOfNodes : Nat := 0
  numberOfPlNodes : Nat := 0
  numberOfConnections : Nat := 0
  numberOfPConnections : Nat := 0
  networkNodes : List (Node w) := []

structure ConnectionSetting where
  /-- `to` is there, and is an address or has the right length. -/
  labelled : Bool
  srcIf : Option (List Char)
  srcPt : Option (List Char)
  srcIp : Option (List Char)
  dstIf : Option (List Char)
  dstPt : Option (List Char)
  dstIp : Option (List Char)
  outPt : Option (List Char)
  inPt : Option (List Char)

structure NodeSetting where
  /-- The checks of the other fields succeed. -/
  valid : Bool
  labelled : Bool
  type : Option (List Char)
  connections : Option (List ConnectionSetting)

structure Config where
  overlayMode : OverlayMode
  nodes : Option (List NodeSetting)
  olNodes : Option (List NodeSetting)
  plNodes : Option (List NodeSetting)

namespace ConnectionSetting

variable (connection : ConnectionSetting)

def hasSource : OverlayMode → Bool
  | .mac | .macQos => connection.srcIf.isSome || connection.srcPt.isSome
  | .macMl => connection.outPt.isSome || connection.srcIf.isSome
  | .ip => connection.srcIp.isSome

def hasDestination : OverlayMode → Bool
  | .mac | .macQos => connection.dstIf.isSome || connection.dstPt.isSome
  | .macMl => true
  | .ip => connection.dstIp.isSome

/-- The interfaces are read only where there is no port, and the MAC addresses only afterwards. -/
def lnkType : LnkType :=
  let srcIf := if connection.outPt.isSome then [] else connection.srcIf.getD []
  let dstIf := if connection.inPt.isSome then [] else connection.dstIf.getD []
  if srcIf ≠ [] ∧ dstIf ≠ [] then .pp
  else if connection.outPt.getD [] ≠ [] ∧ connection.inPt.getD [] ≠ [] then .oo
  else .cl

end ConnectionSetting

def addConnection (state : Domain w × Node w) (connection : ConnectionSetting) :
    Option (Domain w × Node w) :=
  let (dm, nn) := state
  if connection.labelled && connection.hasSource dm.overlayMode &&
      connection.hasDestination dm.overlayMode then
    let nc : Connection w :=
      { lnkType := if dm.overlayMode = .macMl then some connection.lnkType else none
        lid := none }
    some
      ({ dm with
          numberOfPConnections := dm.numberOfPConnections + if nc.lnkType = some .pp then 1 else 0
          numberOfConnections := dm.numberOfConnections + 1 },
        { nn with connections := nn.connections ++ [nc] })
  else none

def addNode (dm : Domain w) (node : NodeSetting) : Option (Domain w) :=
  if node.valid then
    let nn : Node w :=
      { type := if node.labelled then node.type.getD [] else []
        iLid := none
        connections := [] }
    match node.connections with
    | none => some { dm with networkNodes := dm.networkNodes ++ [nn] }
    | some connections => do
      let (dm, nn) ← connections.foldlM addConnection (dm, nn)
      some { dm with networkNodes := dm.networkNodes ++ [nn] }
  else none

/-- The domain of a configuration. It is empty if a multilayer one has no nodes of a layer. -/
def buildNetworkDomain (w : Nat) (config : Config) : Option (Domain w) :=
  let dm : Domain w := { overlayMode := config.overlayMode }
  if config.overlayMode = .macMl then
    match config.olNodes, config.plNodes with
    | some olNodes, some plNodes =>
      (olNodes ++ plNodes).foldlM addNode
        { dm with
          numberOfPlNodes := plNodes.length
          numberOfNodes := olNodes.length + plNodes.length }
    | _, _ => some dm
  else
    config.nodes.bind fun nodes => nodes.foldlM addNode { dm with numberOfNodes := nodes.length }

section

/-- A connection between nodes of the packet layer. -/
def Connection.isPp (nc : Connection w) : Bool := nc.lnkType = some .pp

/-- The counters agree with the nodes, and with the connections of one that is still read. -/
structure Counted (dm : Domain w) (pending : List (Connection w)) : Prop where
  connections : dm.numberOfConnections =
    (dm.networkNodes.map fun nn => nn.connections.length).sum + pending.length
  packet : dm.numberOfPConnections =
    (dm.networkNodes.map fun nn => nn.connections.countP Connection.isPp).sum +
      pending.countP Connection.isPp

variable {dm dm' : Domain w} {nn nn' : Node w}

/-- What reading the connections of a node leaves as it is. -/
structure SameNodes (dm dm' : Domain w) : Prop where
  mode : dm'.overlayMode = dm.overlayMode
  nodes : dm'.numberOfNodes = dm.numberOfNodes
  plNodes : dm'.numberOfPlNodes = dm.numberOfPlNodes
  network : dm'.networkNodes = dm.networkNodes

theorem addConnection_counted {conn : ConnectionSetting} (hc : Counted dm nn.connections)
    (added : addConnection (dm, nn) conn = some (dm', nn')) :
    Counted dm' nn'.connections ∧ SameNodes dm dm' := by
  unfold addConnection at added
  simp only at added
  split at added
  · obtain ⟨rfl, rfl⟩ := Prod.mk.inj (some.inj added)
    refine ⟨⟨?_, ?_⟩, ⟨rfl, rfl, rfl, rfl⟩⟩
    · have before := hc.connections
      simp only [length_append, length_singleton]
      omega
    · have before := hc.packet
      simp only [countP_append, countP_singleton, Connection.isPp, decide_eq_true_eq]
      omega
  · cases added

theorem addConnections_counted {conns : List ConnectionSetting} (hc : Counted dm nn.connections)
    (added : conns.foldlM addConnection (dm, nn) = some (dm', nn')) :
    Counted dm' nn'.connections ∧ SameNodes dm dm' := by
  induction conns generalizing dm nn with
  | nil =>
    cases added
    exact ⟨hc, ⟨rfl, rfl, rfl, rfl⟩⟩
  | cons _ _ ih =>
    obtain ⟨⟨middle, node⟩, first, rest⟩ := bind_eq_some_iff.mp added
    obtain ⟨own, hs⟩ := addConnection_counted hc first
    obtain ⟨last, others⟩ := ih own rest
    exact ⟨last, ⟨others.mode.trans hs.mode, others.nodes.trans hs.nodes,
      others.plNodes.trans hs.plNodes, others.network.trans hs.network⟩⟩

/-- The counters of a domain between its nodes. -/
structure Read (dm : Domain w) (mode : OverlayMode) (nodes plNodes read : Nat) : Prop where
  counted : Counted dm []
  mode : dm.overlayMode = mode
  nodes : dm.numberOfNodes = nodes
  plNodes : dm.numberOfPlNodes = plNodes
  length : dm.networkNodes.length = read

theorem Counted.push (hc : Counted dm nn.connections) :
    Counted { dm with networkNodes := dm.networkNodes ++ [nn] } [] := by
  constructor
  · have before := hc.connections
    simp only [map_append, sum_append_nat, map_singleton, sum_singleton]
    omega
  · have before := hc.packet
    simp only [map_append, sum_append_nat, map_singleton, sum_singleton, countP_nil]
    omega

variable {mode : OverlayMode} {nodes plNodes read : Nat}

theorem addNode_read {node : NodeSetting} (before : Read dm mode nodes plNodes read)
    (added : addNode dm node = some dm') : Read dm' mode nodes plNodes (read + 1) := by
  unfold addNode at added
  split at added
  · have len : ∀ nn : Node w, (dm.networkNodes ++ [nn]).length = read + 1 := by
      intro nn
      rw [length_append, before.length, length_singleton]
    cases conns : node.connections with
    | none =>
      rw [conns] at added
      cases added
      exact ⟨Counted.push before.counted, before.mode, before.nodes, before.plNodes, len _⟩
    | some list =>
      rw [conns] at added
      obtain ⟨⟨last, nn⟩, all, rest⟩ := bind_eq_some_iff.mp added
      obtain ⟨hc, hs⟩ := addConnections_counted before.counted all
      cases rest
      refine ⟨hc.push, hs.mode.trans before.mode, hs.nodes.trans before.nodes,
        hs.plNodes.trans before.plNodes, ?_⟩
      rw [hs.network, len]
  · cases added

theorem addNodes_read {list : List NodeSetting} (before : Read dm mode nodes plNodes read)
    (added : list.foldlM addNode dm = some dm') :
    Read dm' mode nodes plNodes (read + list.length) := by
  induction list generalizing dm read with
  | nil =>
    cases added
    exact before
  | cons node later ih =>
    obtain ⟨middle, first, rest⟩ := bind_eq_some_iff.mp added
    have after := ih (addNode_read before first) rest
    rw [length_cons, add_comm later.length 1, ← add_assoc]
    exact after

theorem buildNetworkDomain_read {config : Config} (built : buildNetworkDomain w config = some dm) :
    Counted dm [] ∧ dm.overlayMode = config.overlayMode ∧
      dm.numberOfNodes = dm.networkNodes.length ∧
      (dm.overlayMode = .macMl → dm.numberOfPlNodes ≤ dm.networkNodes.length) := by
  have he : ∀ nodes plNodes, Read
      ({ overlayMode := config.overlayMode, numberOfNodes := nodes, numberOfPlNodes := plNodes } :
        Domain w) config.overlayMode nodes plNodes 0 :=
    fun nodes plNodes => ⟨⟨rfl, rfl⟩, rfl, rfl, rfl, rfl⟩
  unfold buildNetworkDomain at built
  split at built
  · cases first : config.olNodes with
    | none =>
      rw [first] at built
      cases built
      exact ⟨⟨rfl, rfl⟩, rfl, rfl, fun _ => Nat.le_refl _⟩
    | some =>
      cases second : config.plNodes with
      | none =>
        rw [first, second] at built
        cases built
        exact ⟨⟨rfl, rfl⟩, rfl, rfl, fun _ => Nat.le_refl _⟩
      | some plNodes =>
        rw [first, second] at built
        have after := addNodes_read (he _ plNodes.length) built
        have len := after.length
        rw [zero_add, length_append] at len
        refine ⟨after.counted, after.mode, after.nodes.trans len.symm, fun _ => ?_⟩
        rw [after.plNodes, len]
        exact le_add_left _ _
  · rename_i plain
    obtain ⟨nodes, _, all⟩ := bind_eq_some_iff.mp built
    have after := addNodes_read (he nodes.length 0) all
    have len := after.length
    rw [zero_add] at len
    exact ⟨after.counted, after.mode, after.nodes.trans len.symm,
      fun ml => absurd (after.mode.symm.trans ml) plain⟩

end

end Blackadder.Deployment
