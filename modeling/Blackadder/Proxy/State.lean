import Blackadder.Wire.Codec

namespace Blackadder.Proxy

open Wire (Buffer Fid Request)

/-- Addresses of `LocalHost` objects. -/
abbrev Ptr : Type := Nat

/-- `new` gives an address that no live object has. It may well have been in use before. -/
class Allocator where
  address : List Ptr → Ptr
  address_free : ∀ live, address live ∉ live

theorem le_foldr_max {live : List Nat} {p : Nat} (hm : p ∈ live) : p ≤ live.foldr max 0 := by
  induction live with
  | nil => cases hm
  | cons _ _ ih =>
    rcases List.mem_cons.mp hm with rfl | hi
    · exact Nat.le_max_left _ _
    · exact Nat.le_trans (ih hi) (Nat.le_max_right _ _)

/-- An allocator that hands out the first address again as soon as it is free. -/
@[reducible] def firstFree : Allocator where
  address live := if 0 ∈ live then live.foldr max 0 + 1 else 0
  address_free live := by
    split
    · intro member
      exact Nat.not_succ_le_self _ (le_foldr_max member)
    · rename_i free
      exact free

namespace Samples

attribute [scoped instance] insertionOrder firstFree

end Samples

/-- `BABitvector`, which is either empty or `FID_LEN * 8` bits long here. -/
abbrev BABitvector : Type := Option Fid

namespace BABitvector

/-- `BABitvector(FID_LEN * 8)`. -/
def zeros : BABitvector := some (Vector.replicate 32 0)

/-- All bits are false. The comparison with `NULL` comes to the same, through a truth value. -/
def zero : BABitvector → Bool
  | none => true
  | some fid => fid.all (· == 0)

def negated : BABitvector := some (Vector.replicate 32 255)

end BABitvector

/-- `LOCAL_PROCESS` and `CLICK_ELEMENT`. -/
inductive ElementType where
  | localProcess | clickElement
  deriving DecidableEq, Repr

structure LocalHost where
  type : ElementType
  id : Nat
  activePublications : HashSet ID := ∅
  activeSubscriptions : HashSet ID := ∅

/-- `publishers` has the state of each publisher, such as `START_PUBLISH`. -/
structure ActivePublication where
  fullID : ID
  strategy : Strategy
  isScope : Bool
  publishers : HashTable Ptr MessageType := ∅
  allKnownIDs : List ID := []
  fidToSubscribers : BABitvector := none
  rvFid : BABitvector

structure ActiveSubscription where
  fullID : ID
  strategy : Strategy
  isScope : Bool
  subscribers : HashSet Ptr := ∅
  rvFid : BABitvector

structure ActiveNode where
  nodeID : NodeID
  publishers : HashTable Ptr MessageType := ∅
  fidToNode : BABitvector

/-- The fields of `GlobalConf` that the proxy reads, three of which it also changes. -/
structure GlobalConf where
  nodeID : Fragment
  isRV : Bool
  defaultRV : BABitvector
  tmFid : BABitvector
  status : UInt8

/-- A fragment that is all ones but for its last byte. -/
def reservedFragment (byte : UInt8) : Fragment := #v[255, 255, 255, 255, 255, 255, 255, byte]

namespace GlobalConf

variable (gc : GlobalConf)

def nodeRVScope : ID := [reservedFragment 255, gc.nodeID]
def nodeTMScope : ID := [reservedFragment 254, gc.nodeID]
def nodeTMScopeUC : ID := [reservedFragment 254, reservedFragment 253, gc.nodeID]
def notificationIID : ID := [reservedFragment 253, gc.nodeID]
def pathMgmtIID : ID := [reservedFragment 249, reservedFragment 249]
def controlReliabilityScope : ID := [reservedFragment 252]

end GlobalConf

/-- A route to the rendezvous is the element of this node or a path to another one. -/
inductive Out where
  | event (host : ElementType) (id : Nat) (type : MessageType) (name : ID) (data : List UInt8)
  | controlFailure (id : Nat) (name : ID) (request strategy : UInt8)
  | request (route : Option BABitvector) (request : Request)
  | withdrawal (route : Option BABitvector) (type : MessageType) (idLength : UInt8) (id : ID)
      (prefixIDLength : UInt8) (prefixID : ID) (strategy : Strategy)
  | iRequest (nodeIDs : List NodeID)
  | publication (fid : BABitvector) (ids : List ID) (type : Option MessageType)
      (data : List UInt8)
  | nodeIDIs (id : Nat) (nodeID : Fragment)
  | rvTmFidIs (id : Nat) (fid : BABitvector)
  deriving DecidableEq

/-- A packet that the element was given, or a copy that it has made. -/
inductive Handle where
  | given
  | copy (number : Nat)
  deriving DecidableEq, Repr

/-- What happens to a packet: it is looked at, copied, given back or handed on. -/
inductive Use where
  | look (packet : Handle)
  | clone (packet : Handle) (copy : Handle)
  | kill (packet : Handle)
  | handOn (packet : Handle)
  deriving DecidableEq, Repr

structure Packet extends Buffer where
  handle : Handle

def Packet.pull (p : Packet) (n : Nat) : Packet := { p with toBuffer := p.toBuffer.pull n }

/-- Why a handler fails: something is not there, or bit vectors have different lengths. -/
inductive Fault where
  | missing
  | assertion
  deriving DecidableEq, Repr

/-- `heap` has the live hosts, `out` all packets pushed so far, and `uses` what has been done with
the packets since the last one came in. -/
structure LocalProxy where
  gc : GlobalConf
  heap : HashTable Ptr LocalHost := ∅
  localPubSubIndex : HashTable Nat Ptr := ∅
  activePublicationIndex : HashTable ID ActivePublication := ∅
  activeSubscriptionIndex : HashTable ID ActiveSubscription := ∅
  activeNodeIndex : HashTable NodeID ActiveNode := ∅
  out : List Out := []
  uses : List Use := []

abbrev LP (α : Type) : Type := Program LocalProxy Fault α

variable (host : Ptr) (p : Packet) (packet : Out)

/-- Follow a `LocalHost *`. -/
def deref : LP LocalHost := do
  let found ← Program.read (·.heap.get host)
  Program.expect .missing found

def assign (change : LocalHost → LocalHost) : LP Unit := do
  let _ ← deref host
  Program.update fun s => { s with heap := s.heap.modify host change }

def assignPublication (id : ID) (change : ActivePublication → ActivePublication) : LP Unit :=
  Program.update fun s =>
    { s with activePublicationIndex := s.activePublicationIndex.modify id change }

def assignSubscription (id : ID) (change : ActiveSubscription → ActiveSubscription) : LP Unit :=
  Program.update fun s =>
    { s with activeSubscriptionIndex := s.activeSubscriptionIndex.modify id change }

def assignNode (nodeID : NodeID) (change : ActiveNode → ActiveNode) : LP Unit :=
  Program.update fun s => { s with activeNodeIndex := s.activeNodeIndex.modify nodeID change }

/-- The assignment `(*publishers_it).second = state` to an entry that is there. -/
def setState (publishers : HashTable Ptr MessageType) (host : Ptr) (state : MessageType) :
    HashTable Ptr MessageType :=
  publishers.modify host fun _ => state

def setPublisher (id : ID) (host : Ptr) (state : MessageType) : LP Unit :=
  assignPublication id fun ap => { ap with publishers := setState ap.publishers host state }

def emit : LP Unit :=
  Program.update fun s => { s with out := s.out ++ [packet] }

def note (use : Use) : LP Unit :=
  Program.update fun s => { s with uses := s.uses ++ [use] }

def look : LP Unit := note (.look p.handle)

def kill : LP Unit := note (.kill p.handle)

/-- The packet itself becomes what is pushed. -/
def handOn : LP Unit := do
  note (.handOn p.handle)
  emit packet

/-- `p->clone()->uniqueify()`. -/
def clone : LP Packet := do
  let uses ← Program.read (·.uses)
  let copy := Handle.copy uses.length
  note (.clone p.handle copy)
  pure { p with handle := copy }

variable [IterationOrder]

def getLocalHost [Allocator] (type : ElementType) (id : Nat) : LP Ptr := do
  let found ← Program.read (·.localPubSubIndex.get id)
  match found with
  | some host => pure host
  | none =>
    let host ← Program.read fun s => Allocator.address s.heap.keys
    Program.update fun s =>
      { s with
        heap := s.heap.set host { type, id }
        localPubSubIndex := s.localPubSubIndex.set id host }
    pure host

variable (publisher subscriber : Ptr) (id name : ID) (strategy : Strategy) (rvFid : BABitvector)

/-- The rendezvous element of this node, unless the path leads to another one. -/
def routeToRV : LP (Option BABitvector) := do
  let isRV ← Program.read (·.gc.isRV)
  pure (if rvFid.zero ∨ isRV then none else some rvFid)

def publishReqToRV (p : Packet) (request : Request) (rvFid : BABitvector) : LP Unit := do
  let route ← routeToRV rvFid
  handOn p (.request route request)

def createAndSendPacketToRV (type : MessageType) (idLength : UInt8) (id : ID)
    (prefixIDLength : UInt8) (prefixID : ID) (rvFid : BABitvector) (strategy : Strategy) :
    LP Unit := do
  let route ← routeToRV rvFid
  emit (.withdrawal route type idLength id prefixIDLength prefixID strategy)

/-- The request of the `deleteAll` methods. The prefix length of an empty identifier wraps. -/
def withdrawFromRV (type : MessageType) (fullID : ID) (rvFid : BABitvector) (strategy : Strategy) :
    LP Unit :=
  createAndSendPacketToRV type 1 (lastFragment fullID) (UInt8.ofNat fullID.length - 1)
    (fatherID fullID) rvFid strategy

/-- The strategies whose subscriptions the rendezvous is told about. -/
def forwards : Bool :=
  strategy ≠ Strategy.implicitRendezvous ∧ strategy ≠ Strategy.linkLocal
    ∧ strategy ≠ Strategy.broadcastIf

def publicationAt : LP ActivePublication := do
  let found ← Program.read (·.activePublicationIndex.get id)
  Program.expect .missing found

/-- A publisher joins an active publication, and the publication its list. -/
def joinPublication : LP Unit := do
  assignPublication id fun ap =>
    { ap with publishers := ap.publishers.findInsert publisher .stopPublish }
  assign publisher fun host =>
    { host with activePublications := host.activePublications.insert id }

def storeActivePublication (fullID : ID) (strategy : Strategy)
    (rvFid : BABitvector) (isScope : Bool) : LP Bool := do
  if strategy = Strategy.nodeLocal ∨ strategy = Strategy.domainLocal then
    let found ← Program.read (·.activePublicationIndex.get fullID)
    match found with
    | none =>
      Program.update fun s =>
        { s with
          activePublicationIndex :=
            s.activePublicationIndex.set fullID { fullID, strategy, isScope, rvFid } }
      joinPublication publisher fullID
      pure true
    | some ap =>
      let state := ap.publishers.get publisher
      if state = some .rePublish ∨ state = some .resumePublish then
        pure true
      else if ap.strategy = strategy then
        joinPublication publisher fullID
        pure false
      else
        pure false
  else
    pure false

/-- A publisher leaves a publication, which is erased under `name` when nobody is left. -/
def leavePublication : LP Bool := do
  assign publisher fun host =>
    { host with activePublications := host.activePublications.erase id }
  assignPublication id fun ap => { ap with publishers := ap.publishers.erase publisher }
  let ap ← publicationAt id
  if ap.publishers.size = 0 then
    Program.update fun s =>
      { s with activePublicationIndex := s.activePublicationIndex.erase name }
    pure true
  else
    pure false

def removeActivePublication (fullID : ID) (strategy : Strategy) : LP Bool := do
  if strategy = Strategy.nodeLocal ∨ strategy = Strategy.domainLocal then
    let found ← Program.read (·.activePublicationIndex.get fullID)
    match found with
    | none => pure false
    | some ap =>
      if ap.strategy = strategy then leavePublication publisher fullID fullID else pure false
  else
    pure false

def subscriptionAt : LP ActiveSubscription := do
  let found ← Program.read (·.activeSubscriptionIndex.get id)
  Program.expect .missing found

def addSubscriber : LP Unit :=
  assignSubscription id fun as => { as with subscribers := as.subscribers.insert subscriber }

def recordSubscription : LP Unit :=
  assign subscriber fun host =>
    { host with activeSubscriptions := host.activeSubscriptions.insert id }

/-- A subscription takes the place of whatever is stored under the identifier. -/
def newSubscription
    (isScope : Bool) : LP Unit := do
  Program.update fun s =>
    { s with
      activeSubscriptionIndex :=
        s.activeSubscriptionIndex.set id { fullID := id, strategy, isScope, rvFid } }
  addSubscriber subscriber id
  recordSubscription subscriber id

/-- A subscription to the wildcard item of the HTTP namespace is one to its root scope as well,
which the second branch does not record. -/
def storeActiveSubscription (fullID : ID) (strategy : Strategy)
    (rvFid : BABitvector) (isScope : Bool) : LP Bool := do
  let found ← Program.read (·.activeSubscriptionIndex.get fullID)
  match found with
  | none =>
    newSubscription subscriber fullID strategy rvFid isScope
    if fullID = httpDefaultIid then
      newSubscription subscriber (fatherID fullID) strategy rvFid true
    pure (forwards strategy)
  | some as =>
    if as.strategy = strategy then
      addSubscriber subscriber fullID
      recordSubscription subscriber fullID
      if fullID = httpDefaultIid then
        let _ ← subscriptionAt (fatherID fullID)
        addSubscriber subscriber (fatherID fullID)
      pure true
    else
      pure false

/-- A subscriber leaves a subscription, which is erased under `name` when nobody is left. -/
def leaveSubscription : LP Bool := do
  assign subscriber fun host =>
    { host with activeSubscriptions := host.activeSubscriptions.erase id }
  assignSubscription id fun as => { as with subscribers := as.subscribers.erase subscriber }
  let as ← subscriptionAt id
  if as.subscribers.size = 0 then
    Program.update fun s =>
      { s with activeSubscriptionIndex := s.activeSubscriptionIndex.erase name }
    pure true
  else
    pure false

def removeActiveSubscription (fullID : ID) (strategy : Strategy) :
    LP Bool := do
  let found ← Program.read (·.activeSubscriptionIndex.get fullID)
  match found with
  | none => pure false
  | some as =>
    if as.strategy = strategy then
      let last ← leaveSubscription subscriber fullID fullID
      pure (last && forwards strategy)
    else
      pure false

/-- The identifier a request is about: the prefix, and the last fragment of what it names. -/
def fullID (request : Request) : ID :=
  if request.id.length = 1 then request.prefixID ++ request.id
  else request.prefixID ++ lastFragment request.id

def handleLocalRequest (host : Ptr) (request : Request) (rvFid : BABitvector) : LP Bool :=
  let name := fullID request
  if request.type = MessageType.publishScope.code then
    storeActivePublication host name request.strategy rvFid true
  else if request.type = MessageType.publishInfo.code then
    storeActivePublication host name request.strategy rvFid false
  else if request.type = MessageType.unpublishScope.code then
    removeActivePublication host name request.strategy
  else if request.type = MessageType.unpublishInfo.code then
    removeActivePublication host name request.strategy
  else if request.type = MessageType.subscribeScope.code then
    storeActiveSubscription host name request.strategy rvFid true
  else if request.type = MessageType.subscribeInfo.code then
    storeActiveSubscription host name request.strategy rvFid false
  else if request.type = MessageType.unsubscribeScope.code then
    removeActiveSubscription host name request.strategy
  else if request.type = MessageType.unsubscribeInfo.code then
    removeActiveSubscription host name request.strategy
  else if request.type = MessageType.publishDataISub.code then
    storeActiveSubscription host name request.strategy rvFid false
  else
    pure false

end Blackadder.Proxy
