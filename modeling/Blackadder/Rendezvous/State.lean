import Blackadder.Common
import Blackadder.Library.HashTable
import Blackadder.Library.Program

namespace Blackadder.Rendezvous

namespace Samples

attribute [scoped instance] insertionOrder

end Samples

/-- The information graph has scopes and information items. -/
inductive Kind where
  | scope | item
  deriving DecidableEq, Repr

/-- A remote host publishes an identifier or subscribes to it. -/
inductive Role where
  | publisher | subscriber
  deriving DecidableEq, Repr

/-- Addresses of objects. None is handed out twice, so that a use of a deleted object cannot go
unnoticed. -/
abbrev Ptr : Type := Nat

/-- The hosts at one identifier. A `RemoteHost` is known by its `remoteHostID`. -/
structure RemoteHostPair where
  first : HashSet NodeID := ∅
  second : HashSet NodeID := ∅

namespace RemoteHostPair

def hosts (pair : RemoteHostPair) : Role → HashSet NodeID
  | .publisher => pair.first
  | .subscriber => pair.second

def modifyHosts (pair : RemoteHostPair) (change : HashSet NodeID → HashSet NodeID) :
    Role → RemoteHostPair
  | .publisher => { pair with first := change pair.first }
  | .subscriber => { pair with second := change pair.second }

@[grind =] theorem hosts_modifyHosts (pair : RemoteHostPair)
  (change : HashSet NodeID → HashSet NodeID)
    (role other : Role) : (pair.modifyHosts change role).hosts other =
      if other = role then change (pair.hosts other) else pair.hosts other := by
  cases role <;> cases other <;> rfl

end RemoteHostPair

/-- The fields of a `Scope` or an `InformationItem`. The last two stay empty in an item. -/
structure Node where
  kind : Kind
  strategy : Strategy
  isRoot : Bool := false
  fatherScopes : HashSet Ptr := ∅
  ids : HashTable ID RemoteHostPair := ∅
  childrenScopes : HashSet Ptr := ∅
  informationitems : HashSet Ptr := ∅

namespace Node

def children (node : Node) : Kind → HashSet Ptr
  | .scope => node.childrenScopes
  | .item => node.informationitems

def modifyChildren (node : Node) (change : HashSet Ptr → HashSet Ptr) : Kind → Node
  | .scope => { node with childrenScopes := change node.childrenScopes }
  | .item => { node with informationitems := change node.informationitems }

variable (node : Node) (change : HashSet Ptr → HashSet Ptr) (kind : Kind)

@[grind =] theorem children_modifyChildren (other : Kind) :
    (node.modifyChildren change kind).children other =
      if other = kind then change (node.children other) else node.children other := by
  cases kind <;> cases other <;> rfl

theorem modifyChildren_fields : (node.modifyChildren change kind).kind = node.kind ∧
      (node.modifyChildren change kind).strategy = node.strategy ∧
      (node.modifyChildren change kind).isRoot = node.isRoot ∧
      (node.modifyChildren change kind).fatherScopes = node.fatherScopes ∧
      (node.modifyChildren change kind).ids = node.ids := by
  cases kind <;> exact ⟨rfl, rfl, rfl, rfl, rfl⟩

grind_pattern modifyChildren_fields => node.modifyChildren change kind

@[grind =] theorem children_withFathers (fathers : HashSet Ptr) (kind : Kind) :
    ({ node with fatherScopes := fathers } : Node).children kind = node.children kind := by
  cases kind <;> rfl

@[grind =] theorem children_withIDs (ids : HashTable ID RemoteHostPair) (kind : Kind) :
    ({ node with ids := ids } : Node).children kind = node.children kind := by
  cases kind <;> rfl

end Node

/-- What a `RemoteHost` has published and subscribed to. -/
structure RemoteHost where
  publishedScopes : HashSet ID := ∅
  subscribedScopes : HashSet ID := ∅
  publishedInformationItems : HashSet ID := ∅
  subscribedInformationItems : HashSet ID := ∅

namespace RemoteHost

def record (host : RemoteHost) : Kind → Role → HashSet ID
  | .scope, .publisher => host.publishedScopes
  | .scope, .subscriber => host.subscribedScopes
  | .item, .publisher => host.publishedInformationItems
  | .item, .subscriber => host.subscribedInformationItems

def modifyRecord (host : RemoteHost) (change : HashSet ID → HashSet ID) :
    Kind → Role → RemoteHost
  | .scope, .publisher => { host with publishedScopes := change host.publishedScopes }
  | .scope, .subscriber => { host with subscribedScopes := change host.subscribedScopes }
  | .item, .publisher =>
    { host with publishedInformationItems := change host.publishedInformationItems }
  | .item, .subscriber =>
    { host with subscribedInformationItems := change host.subscribedInformationItems }

@[grind =] theorem record_modifyRecord (host : RemoteHost) (change : HashSet ID → HashSet ID)
    (kind kind' : Kind) (role role' : Role) :
    (host.modifyRecord change kind role).record kind' role' =
      if kind' = kind ∧ role' = role then change (host.record kind' role')
      else host.record kind' role' := by
  cases kind <;> cases role <;> cases kind' <;> cases role' <;> rfl

end RemoteHost

/-- A request about an information item carries the item whose `InformationItem *` the source passes
along. -/
inductive Out where
  | matchRequest (pub : Ptr) (type : MessageType) (publishers subscribers : List NodeID)
      (ids : List ID)
  | unicastRequest (pub : Ptr) (type : MessageType) (publisher : NodeID)
      (subscribers : List NodeID) (ids : List ID)
  | localPublisher (pub : Ptr) (type : MessageType) (ids : List ID)
  | scopeNotification (type : MessageType) (ids : List ID) (subscribers : List NodeID)
      (strategy : Strategy)
  | localSubscriber (type : MessageType) (ids : List ID)
  | iSubscriptionRequest (type : MessageType) (isubscribers : List NodeID)
  deriving DecidableEq

/-- A handler uses a pointer or a table entry that is not there, or a recursion is cut off. -/
inductive Fault where
  | missing
  | outOfFuel
  deriving DecidableEq, Repr

/-- The `LocalRV` element. `heap` holds the live nodes, `out` all packets pushed so far. -/
structure LocalRV where
  localProxy : NodeID
  heap : Ptr → Option Node := fun _ => none
  next : Ptr := 0
  scopeIndex : HashTable ID Ptr := ∅
  pubIndex : HashTable ID Ptr := ∅
  pubSubIndex : HashTable NodeID RemoteHost := ∅
  out : List Out := []

namespace LocalRV

def index (s : LocalRV) : Kind → HashTable ID Ptr
  | .scope => s.scopeIndex
  | .item => s.pubIndex

def modifyIndex (s : LocalRV) (change : HashTable ID Ptr → HashTable ID Ptr) : Kind → LocalRV
  | .scope => { s with scopeIndex := change s.scopeIndex }
  | .item => { s with pubIndex := change s.pubIndex }

def store (s : LocalRV) (ptr : Ptr) (node : Option Node) : LocalRV :=
  { s with heap := fun other => if other = ptr then node else s.heap other }

end LocalRV

abbrev RV (α : Type) : Type := Program LocalRV Fault α

/-- Follow a `Scope *` or an `InformationItem *`. -/
def deref (ptr : Ptr) : RV Node := do
  let found ← Program.read (·.heap ptr)
  Program.expect .missing found

/-- Change the fields of the object `ptr` points at. -/
def assign (ptr : Ptr) (change : Node → Node) : RV Unit := do
  let node ← deref ptr
  Program.update (·.store ptr (some (change node)))

/-- Change the identifiers a host has published or subscribed to. -/
def assignRecord (host : NodeID) (kind : Kind) (role : Role)
    (change : HashSet ID → HashSet ID) : RV Unit :=
  Program.update fun s =>
    { s with pubSubIndex := s.pubSubIndex.modify host (·.modifyRecord change kind role) }

def emit (packet : Out) : RV Unit :=
  Program.update fun s => { s with out := s.out ++ [packet] }

variable [IterationOrder] (node : Node) (kind : Kind) (role : Role) (ptr father pub : Ptr)
variable (publishers subscribers : HashSet NodeID) (updateOnly : Bool) (strategy : Strategy)
variable (fullID : ID) (host : NodeID)

/-- `new Scope(strategy, father)` or `new InformationItem(strategy, father)`. -/
def newNode (father : Option Ptr) : RV Ptr := do
  let ptr ← Program.read (·.next)
  Program.update fun s => { s with next := ptr + 1 }
  match father with
  | none =>
    Program.update (·.store ptr (some { kind, strategy, isRoot := true }))
  | some father =>
    let fatherScopes := (∅ : HashSet Ptr).insert father
    Program.update (·.store ptr (some { kind, strategy, fatherScopes }))
    assign father (·.modifyChildren (·.insert ptr) kind)
  pure ptr

def newScope (father : Option Ptr) : RV Ptr :=
  newNode .scope strategy father

def newInformationItem (father : Ptr) : RV Ptr :=
  newNode .item strategy (some father)

/-- `updatePublishers` and `updateSubscribers`: false when the host was there already. -/
def updateHosts : RV Bool := do
  let node ← deref ptr
  match node.ids.get fullID with
  | some pair =>
    if host ∈ pair.hosts role then
      pure false
    else
      assign ptr fun node =>
        { node with ids := node.ids.modify fullID (·.modifyHosts (·.insert host) role) }
      pure true
  | none =>
    let pair := ({} : RemoteHostPair).modifyHosts (·.insert host) role
    assign ptr fun node => { node with ids := node.ids.set fullID pair }
    pure true

/-- `Scope::updateSubscribers` has its `return false` commented out. -/
def scopeUpdateSubscribers : RV Bool := do
  let _ ← updateHosts .subscriber ptr fullID host
  pure true

/-- The update method of the node's class. -/
def updateNodeHosts : Kind → Role → Ptr → ID → NodeID → RV Bool
  | .scope, .publisher => updateHosts .publisher
  | .scope, .subscriber => scopeUpdateSubscribers
  | .item, role => updateHosts role

/-- `(*ids.begin()).first`. -/
def firstID : RV ID := Program.expect .missing node.ids.first?

/-- One turn of the identifier loops: index a new identifier of the node. -/
def addID : RV Unit := do
  let node ← deref ptr
  if fullID ∈ node.ids then
    pure ()
  else
    Program.update (·.modifyIndex (·.set fullID ptr) kind)
    assign ptr fun node => { node with ids := node.ids.set fullID {} }

/-- `InformationItem::updateIDs`, and the first loop of `Scope::recursivelyUpdateIDs`. -/
def updateIDs (suffixID : ID) : RV Unit := do
  let node ← deref ptr
  forM node.fatherScopes.keys fun father => do
    let fatherScope ← deref father
    forM fatherScope.ids.keys fun id => addID kind ptr (id ++ suffixID)

/-- The recursion has no visited set; `fuel` bounds its depth. -/
def recursivelyUpdateIDs : Nat → Ptr → ID → RV Unit
  | 0, _, _ => Program.fail .outOfFuel
  | fuel + 1, ptr, suffixID => do
    updateIDs .scope ptr suffixID
    let node ← deref ptr
    forM node.childrenScopes.keys fun child => do
      let childScope ← deref child
      let id ← firstID childScope
      recursivelyUpdateIDs fuel child (lastFragment id)
    forM node.informationitems.keys fun pub => do
      let item ← deref pub
      let id ← firstID item
      updateIDs .item pub (lastFragment id)

def RemoteHostPair.occupied (pair : RemoteHostPair) : Bool :=
  0 < pair.first.size || 0 < pair.second.size

/-- `checkForOtherPubSub(fatherScope)`: hosts left at an identifier the father gives. -/
def checkForOtherPubSub : RV Bool := do
  let node ← deref ptr
  let id ← firstID node
  let fatherScope ← deref father
  fatherScope.ids.keys.anyM fun fatherID => do
    let pair ← Program.expect .missing (node.ids.get (fatherID ++ lastFragment id))
    pure pair.occupied

/-- `Scope::checkForOtherPubSub(NULL)`. -/
def checkRootForOtherPubSub : RV Bool := do
  let node ← deref ptr
  pure (node.ids.values.any (·.occupied))

namespace Node

/-- `getPublishers` and `getSubscribers`: add the hosts of all identifiers to a set. -/
def collectHosts (hosts : HashSet NodeID) : HashSet NodeID :=
  node.ids.values.foldl (fun hosts pair => hosts.insertAll (pair.hosts role).keys) hosts

def getPublishers : HashSet NodeID :=
  node.collectHosts .publisher publishers

def getSubscribers : HashSet NodeID :=
  node.collectHosts .subscriber subscribers

def getIDs : HashSet ID := (∅ : HashSet ID).insertAll node.ids.keys

/-- `getRootScopes(StringSet &)`: add the root fragment of every identifier. -/
def getRootScopes (rootScopes : HashSet ID) : HashSet ID :=
  rootScopes.insertAll (node.ids.keys.map rootFragment)

theorem mem_collectHosts {node : Node} {role : Role} {hosts : HashSet NodeID} {host : NodeID} :
    host ∈ node.collectHosts role hosts ↔
      host ∈ hosts ∨ ∃ id pair, node.ids.get id = some pair ∧ host ∈ pair.hosts role := by
  have folded : ∀ (pairs : List RemoteHostPair) (hosts : HashSet NodeID),
      host ∈ pairs.foldl (fun hosts pair => hosts.insertAll (pair.hosts role).keys) hosts ↔
        host ∈ hosts ∨ ∃ pair ∈ pairs, host ∈ pair.hosts role := by
    intro pairs
    induction pairs with
    | nil => simp
    | cons pair rest ih =>
      intro hosts
      rw [List.foldl_cons, ih, HashSet.mem_insertAll]
      simp only [List.mem_cons, exists_eq_or_imp]
      tauto
  rw [collectHosts, folded]
  simp only [HashTable.mem_values]
  constructor
  · rintro (hh | ⟨pair, ⟨id, hf⟩, hi⟩)
    · exact Or.inl hh
    · exact Or.inr ⟨id, pair, hf, hi⟩
  · rintro (hh | ⟨id, pair, hf, hi⟩)
    · exact Or.inl hh
    · exact Or.inr ⟨pair, ⟨id, hf⟩, hi⟩

end Node

/-- `known_rootscopes` after `initialize`. -/
def knownRootScopes : HashSet ID := ((∅ : HashSet ID).insert ipRootScope).insert httpRootScope

/-- `rootScope_namesapce_Index` after `initialize`. -/
def rootScopeNamespaceIndex : HashTable ID UInt8 :=
  ((∅ : HashTable ID UInt8).findInsert ipRootScope namespaceIp).findInsert
    httpRootScope namespaceHttp

/-- A missing key gives the default value of the table, and the default value is read as a missing
key. -/
def getRootNamespace : RV UInt8 := do
  let id ← firstID node
  let ns := rootScopeNamespaceIndex.getD (rootFragment id) 0
  pure (if ns = 0 then namespaceUnknown else ns)

/-- `known_rootscopes.find((*_RootScopeids.begin())._strData) != known_rootscopes.end()`. -/
def firstIsKnown (rootScopes : HashSet ID) : RV Bool := do
  let root ← Program.expect .missing rootScopes.first?
  pure (root ∈ knownRootScopes)

@[simp] theorem mem_knownRootScopes {root : ID} :
    root ∈ knownRootScopes ↔ root = httpRootScope ∨ root = ipRootScope := by
  simp [knownRootScopes]

/-- The request type of both forms of `requestTMAssistanceForRendezvous`. -/
def requestType : MessageType :=
  if updateOnly then .updateFid else .matchPubSubs

/-- `requestTMAssistanceForRendezvous` for a set of publishers. -/
def requestTMAssistanceForRendezvous
    (ids : List ID) (updateOnly : Bool) : RV Unit :=
  emit (.matchRequest pub (requestType updateOnly) publishers.keys subscribers.keys ids)

/-- `requestTMAssistanceForRendezvous` for a single publisher. -/
def requestTMAssistanceForPublisher (publisher : NodeID)
    (subscribers : HashSet NodeID) (ids : List ID) (updateOnly : Bool) : RV Unit :=
  emit (.unicastRequest pub (requestType updateOnly) publisher subscribers.keys ids)

def requestTMAssistanceForiSubscription (isubscribers : HashSet NodeID) (updateOnly : Bool) :
    RV Unit :=
  emit (.iSubscriptionRequest (if updateOnly then .updateFid else .matchPubISubs)
    isubscribers.keys)

/-- `connected` tells the call with `&gc->iLID` from the call with `NULL`. -/
def notifyLocalPublisher (connected : Bool) (updateOnly : Bool) : RV Unit := do
  let item ← deref pub
  let type : MessageType :=
    if connected then (if updateOnly then .updateFid else .startPublish) else .stopPublish
  emit (.localPublisher pub type item.ids.keys)

def notifySubscribers (type : MessageType) (ids : HashSet ID) (strategy : Strategy)
    (subscribers : HashSet NodeID) : RV Unit := do
  if strategy = Strategy.nodeLocal then
    let localProxy ← Program.read (·.localProxy)
    if localProxy ∈ subscribers then emit (.localSubscriber type ids.keys) else pure ()
  else if 0 < subscribers.size then
    emit (.scopeNotification type ids.keys subscribers.keys strategy)
  else
    pure ()

def rendezvous : RV Unit := do
  let item ← deref pub
  let rootScopes := item.getRootScopes ∅
  let publishers := item.getPublishers ∅
  if 0 < publishers.size then
    if item.strategy = Strategy.nodeLocal then
      notifyLocalPublisher pub (0 < subscribers.size) updateOnly
    else if item.strategy = Strategy.domainLocal then
      let known ← firstIsKnown rootScopes
      if known then
        forM publishers.keys fun publisher =>
          requestTMAssistanceForPublisher pub publisher subscribers item.ids.keys updateOnly
      else
        requestTMAssistanceForRendezvous pub publishers subscribers item.ids.keys updateOnly
    else
      pure ()
  else
    pure ()

/-- The subscribers of an item and of all its fathers ("I have multiple fathers"). -/
def allSubscribers : RV (HashSet NodeID) := do
  let item ← deref pub
  item.fatherScopes.keys.foldlM
    (fun subscribers father => do
      let fatherScope ← deref father
      pure (fatherScope.getSubscribers subscribers))
    (item.getSubscribers ∅)

def rendezvousAll : RV Unit := do
  let subscribers ← allSubscribers pub
  rendezvous pub subscribers updateOnly

def getHTTPgw : RV (HashSet NodeID) := do
  let found ← Program.read (·.pubIndex.get httpDefaultIid)
  match found with
  | some pub =>
    let item ← deref pub
    pure (item.getSubscribers subscribers)
  | none => pure subscribers

/-- Return codes of the handlers, `enum RvReturnCodes`. -/
inductive RvReturnCode where
  | success | wrongIds | strategyMismatch | «exists» | fatherDoesNotExist
  | infoItemWithSameId | scopeDoesNotExist | scopeWithSameId | infoDoesNotExist | doesNotExist
  | unknownRequestType
  deriving DecidableEq, Repr

/-- Add a host to a node and the identifier to its record, and go on when the host is new there. -/
def register
    (onSuccess : RV Unit) : RV RvReturnCode := do
  let added ← updateNodeHosts kind role ptr fullID host
  if added then
    assignRecord host kind role (·.insert fullID)
    onSuccess
    pure .success
  else
    pure .exists

/-- Remove a host from a node and the identifier from its record, and go on when it was there. -/
def unregister
    (onSuccess : RV Unit) : RV RvReturnCode := do
  let node ← deref ptr
  let pair ← Program.expect .missing (node.ids.get fullID)
  if host ∈ pair.hosts role then
    assign ptr fun node =>
      { node with ids := node.ids.modify fullID (·.modifyHosts (·.erase host) role) }
    assignRecord host kind role (·.erase fullID)
    onSuccess
    pure .success
  else
    pure .doesNotExist

/-- Delete a node: its identifiers in the index, then the object. -/
def deleteNode : RV Unit := do
  let node ← deref ptr
  forM node.ids.keys fun id => Program.update (·.modifyIndex (·.erase id) kind)
  Program.update (·.store ptr none)

/-- Take a node with one father out of that father and delete it. -/
def deleteUnder : RV Unit := do
  assign father (·.modifyChildren (·.erase ptr) kind)
  deleteNode kind ptr

/-- Delete one branch of a node: the link to the father and the identifiers it gives. -/
def deleteBranch : RV Unit := do
  assign father (·.modifyChildren (·.erase ptr) kind)
  assign ptr fun node => { node with fatherScopes := node.fatherScopes.erase father }
  let node ← deref ptr
  let first ← firstID node
  let fatherScope ← deref father
  forM fatherScope.ids.keys fun id => do
    assign ptr fun node => { node with ids := node.ids.erase (id ++ lastFragment first) }
    Program.update (·.modifyIndex (·.erase (id ++ lastFragment first)) kind)

end Blackadder.Rendezvous
