import Blackadder.Proxy.State

namespace Blackadder.Proxy

open Wire (Fid)

/-! The arguments of the handlers; each takes those it uses. -/

variable [IterationOrder] (subscriptions : HashTable ID ActiveSubscription) (type : MessageType)
variable (publisher subscriber host : Ptr) (ids : List ID) (id : ID) (fid : BABitvector)
variable (p : Packet) (apiType : MessageType) (nodeIDs : List NodeID)

def sendNotificationLocally : LP Unit := do
  let target ← deref host
  emit (.event target.type target.id type id [])

/-- The nodes that need new paths, as a request to the rendezvous element of this node. -/
def publishiReqToRV (nodeIDs : HashSet NodeID) : LP Unit := emit (.iRequest nodeIDs.keys)

/-- The first publisher that is left is told to start. -/
def notifyNext : LP Unit := do
  let ap ← publicationAt id
  let next ← Program.expect .missing ap.publishers.first?
  setPublisher id next .startPublish
  sendNotificationLocally .startPublish next ap.fullID

/-- One turn of `deleteAllActiveInformationItemPublications`. -/
def dropItemPublication : LP Unit := do
  let ap ← publicationAt id
  if ap.isScope then
    pure ()
  else
    let shouldNotify := ap.publishers.get publisher ≠ some .stopPublish
    let last ← leavePublication publisher id ap.fullID
    if last then
      withdrawFromRV .unpublishInfo ap.fullID ap.rvFid ap.strategy
    else if shouldNotify then
      notifyNext id

def deleteAllActiveInformationItemPublications : LP Unit := do
  let host ← deref publisher
  forM host.activePublications.keys (dropItemPublication publisher)

/-- A subscriber leaves, and the rendezvous is told when nobody is left. -/
def dropSubscription (as : ActiveSubscription) :
    LP Unit := do
  let last ← leaveSubscription subscriber id as.fullID
  if last ∧ forwards as.strategy then withdrawFromRV type as.fullID as.rvFid as.strategy

/-- One turn of `deleteAllActiveInformationItemSubscriptions`. -/
def dropItemSubscription : LP Unit := do
  let as ← subscriptionAt id
  if as.isScope then pure () else dropSubscription .unsubscribeInfo subscriber id as

def deleteAllActiveInformationItemSubscriptions : LP Unit := do
  let host ← deref subscriber
  forM host.activeSubscriptions.keys (dropItemSubscription subscriber)

/-- The number of fragments of the longest identifier of a scope. -/
def maxLevel (isScope : ID → LP Bool) (ids : List ID) : LP Nat :=
  ids.foldlM (fun level id => do
    let scope ← isScope id
    pure (if scope ∧ level < id.length then id.length else level)) 0

/-- The loop over the levels, longest identifiers first. It stops short of level 0. -/
def sweepLevels (listed : LP (List ID)) (visit : ID → LP Unit) : Nat → LP Unit
  | 0 => pure ()
  | level + 1 => do
    let ids ← listed
    forM ids fun id => if id.length = level + 1 then visit id else pure ()
    sweepLevels listed visit level

/-- What `deleteAllActiveScopePublications` does with an identifier of the current level. -/
def dropScopePublication : LP Unit := do
  let ap ← publicationAt id
  if ap.isScope then
    let last ← leavePublication publisher id ap.fullID
    if last then withdrawFromRV .unpublishScope ap.fullID ap.rvFid ap.strategy
  else
    pure ()

def deleteAllActiveScopePublications : LP Unit := do
  let host ← deref publisher
  let level ← maxLevel (fun id => do
    let ap ← publicationAt id
    pure ap.isScope) host.activePublications.keys
  sweepLevels (do
    let host ← deref publisher
    pure host.activePublications.keys) (dropScopePublication publisher) level

/-- What `deleteAllActiveScopeSubscriptions` does with an identifier of the current level. -/
def dropScopeSubscription : LP Unit := do
  let as ← subscriptionAt id
  if as.isScope then dropSubscription .unsubscribeScope subscriber id as else pure ()

def deleteAllActiveScopeSubscriptions : LP Unit := do
  let host ← deref subscriber
  let level ← maxLevel (fun id => do
    let as ← subscriptionAt id
    pure as.isScope) host.activeSubscriptions.keys
  sweepLevels (do
    let host ← deref subscriber
    pure host.activeSubscriptions.keys) (dropScopeSubscription subscriber) level

/-- `local_pub_sub_Index.erase(_localhost->id)` and `delete _localhost`. -/
def forgetHost : LP Unit := do
  let gone ← deref host
  Program.update fun s =>
    { s with
      heap := s.heap.erase host
      localPubSubIndex := s.localPubSubIndex.erase gone.id }

def disconnect : LP Unit := do
  deleteAllActiveInformationItemPublications host
  deleteAllActiveInformationItemSubscriptions host
  deleteAllActiveScopePublications host
  deleteAllActiveScopeSubscriptions host
  forgetHost host

/-- The subscribers of the scope that an identifier is under. -/
def findActiveSubscriptions :
    HashSet Ptr :=
  match subscriptions.get (fatherID id) with
  | some as => if as.isScope then HashSet.insertAll ∅ as.subscribers.keys else ∅
  | none => ∅

def notifyScopeSubscribers : LP Unit :=
  forM ids fun id => do
    let subscriptions ← Program.read (·.activeSubscriptionIndex)
    forM (findActiveSubscriptions subscriptions id).keys fun host =>
      sendNotificationLocally type host id

/-- The first loop of `START_PUBLISH` and `UPDATE_FID`. -/
def storeFid : LP Unit :=
  forM ids fun id =>
    assignPublication id fun ap => { ap with allKnownIDs := ids, fidToSubscribers := fid }

/-- The second loop of `START_PUBLISH`: the publisher that comes first is told to start. -/
def startFirst : LP Unit := do
  let found ← Program.read (·.activePublicationIndex.get id)
  match found.bind (·.publishers.first?) with
  | some first =>
    setPublisher id first .startPublish
    sendNotificationLocally .startPublish first id
  | none => pure ()

/-- The second loop of `UPDATE_FID`, which looks at the first publisher only. -/
def updateFirst : LP Unit := do
  let found ← Program.read (·.activePublicationIndex.get id)
  match found.bind fun ap => ap.publishers.first?.filter (ap.publishers.get · = some .startPublish)
  with
  | some first => sendNotificationLocally .updatePublish first id
  | none => pure ()

/-- `STOP_PUBLISH` for one identifier: every publisher that has been started is stopped. -/
def stopStarted : LP Unit := do
  let found ← Program.read (·.activePublicationIndex.get id)
  match found with
  | some ap =>
    assignPublication id fun ap =>
      { ap with allKnownIDs := ids, fidToSubscribers := .zeros }
    forM ap.publishers.keys fun host =>
      if ap.publishers.get host = some .startPublish then do
        setPublisher id host .stopPublish
        sendNotificationLocally .stopPublish host id
      else
        pure ()
  | none => pure ()

/-- `UPDATE_FID_iSUB` for one node: the publisher that comes first is told. -/
def updateNode (nodeID : NodeID) (fid : Fid) : LP Unit := do
  let found ← Program.read (·.activeNodeIndex.get nodeID)
  match found with
  | some an =>
    assignNode nodeID fun an => { an with fidToNode := some fid }
    let state : MessageType :=
      if BABitvector.zero (some fid) then .stopPublishISub else .startPublishISub
    match an.publishers.first? with
    | some first =>
      assignNode nodeID fun an => { an with publishers := setState an.publishers first state }
      sendNotificationLocally state first nodeID
    | none => pure ()
  | none => pure ()

def handleRVNotification : LP Unit := do
  look p
  let notification := Wire.readNotification p.data
  let type := notification.type
  let ids := notification.ids
  if type = MessageType.scopePublished.code then
    notifyScopeSubscribers .scopePublished ids
  else if type = MessageType.scopeUnpublished.code then
    notifyScopeSubscribers .scopeUnpublished ids
  else if type = MessageType.startPublish.code then
    storeFid ids notification.fid
    forM ids startFirst
  else if type = MessageType.updateFid.code then
    storeFid ids notification.fid
    forM ids updateFirst
  else if type = MessageType.updateRvFid.code then
    Program.update fun s => { s with gc := { s.gc with defaultRV := some (Wire.readFid p.data) } }
  else if type = MessageType.updateTmFid.code then
    Program.update fun s => { s with gc := { s.gc with tmFid := some (Wire.readFid p.data) } }
  else if type = MessageType.stopPublish.code then
    forM ids (stopStarted ids)
  else if type = MessageType.updateFidISub.code then
    forM (Wire.readISubscribers p.data) fun (nodeID, fid) => updateNode nodeID fid
  else
    pure ()

/-- A link is on a path when the bits of its identifier are all set there. -/
def onPath (lid fid : Fid) : Bool := lid.zipWith (· &&& ·) fid = lid

/-- What a failed link does to one active publication. -/
def invalidate (lid : Fid) (id : ID) : LP Unit := do
  let ap ← publicationAt id
  match ap.isScope, ap.fidToSubscribers with
  | false, some fid =>
    if ¬ BABitvector.zero (some fid) ∧ onPath lid fid then
      assignPublication id fun ap =>
        { ap with
          fidToSubscribers := none
          publishers := ap.publishers.mapValues fun state =>
            if state = .startPublish then .rePublish else state }
    else
      pure ()
  | _, _ => pure ()

/-- The nodes whose paths go over a link. Operands of different lengths fail an assertion. -/
def affectedNodes (lid : Fid) (nodes : List ActiveNode) : LP (HashSet NodeID) :=
  nodes.foldlM (fun affected an => do
    let fid ← Program.expect .assertion an.fidToNode
    pure (if onPath lid fid then affected.insert an.nodeID else affected)) ∅

def processTMNotification : LP Unit := do
  look p
  let lid : Fid := Wire.vectorAt p.data 0
  kill p
  let publications ← Program.read (·.activePublicationIndex.keys)
  forM publications (invalidate lid)
  let nodes ← Program.read (·.activeNodeIndex.values)
  let affected ← affectedNodes lid nodes
  if 0 < affected.size then publishiReqToRV affected else pure ()

/-- `DISCONNECTED` for one active publication. -/
def pause : LP Unit := do
  let ap ← publicationAt id
  if ap.isScope then
    pure ()
  else
    assignPublication id fun ap =>
      { ap with
        fidToSubscribers := none
        publishers := ap.publishers.mapValues fun state =>
          if state = .stopPublish then state else .pausePublish }

/-- `RECONNECTED` for one active publication. -/
def resume : LP Unit := do
  let ap ← publicationAt id
  if ap.isScope then
    pure ()
  else
    forM ap.publishers.keys fun host =>
      if ap.publishers.get host = some .pausePublish then do
        setPublisher id host .resumePublish
        let name ← Program.expect .missing ap.allKnownIDs.head?
        sendNotificationLocally .resumePublish host name
      else
        pure ()

def updateStates (state : UInt8) : LP Unit := do
  let publications ← Program.read (·.activePublicationIndex.keys)
  let nodes ← Program.read (·.activeNodeIndex)
  if state = MessageType.disconnected.code then
    Program.update fun s => { s with gc := { s.gc with defaultRV := none } }
    forM publications pause
    forM nodes.keys fun nodeID => assignNode nodeID fun an => { an with fidToNode := none }
  else if state = MessageType.reconnected.code then
    forM publications resume
    let nodeIDs := HashSet.insertAll ∅ (nodes.values.map (·.nodeID))
    if 0 < nodes.size then publishiReqToRV nodeIDs else pure ()
  else
    pure ()

/-- The local subscribers of some identifiers, each with the last one it was found for. -/
def findLocalSubscribers :
    HashTable Ptr ID :=
  let add (found : HashTable Ptr ID) (known name : ID) : HashTable Ptr ID :=
    match subscriptions.get name with
    | some as => as.subscribers.keys.foldl (fun found host => found.set host known) found
    | none => found
  ids.foldl (fun found known => add (add found known known) known (fatherID known)) ∅

def pushDataToLocalSubscriber :
    LP Unit := do
  let target ← deref host
  handOn p (.event target.type target.id apiType id p.contents)

/-- The older `pushDataToRemoteSubscribers`: the packet itself gets the header. -/
def pushDataToRemoteSubscribers : LP Unit :=
  handOn p (.publication fid ids none p.contents)

/-- A new packet goes out; the old one is given back for `PUBLISH_DATA` and kept for
`PUBLISH_DATA_iSUB`. -/
def pushTypedDataToRemoteSubscribers (type : MessageType) (fid : BABitvector)
    (p : Packet) : LP Unit := do
  look p
  match type with
  | .publishData => do
    kill p
    emit (.publication fid ids (some type) p.contents)
  | .publishDataISub => emit (.publication fid ids (some type) p.contents)
  | _ => Program.fail .missing

/-- The last subscriber gets the packet itself, the others get copies. -/
def deliver (p : Packet) (apiType : MessageType) : List (Ptr × ID) → LP Unit
  | [] => pure ()
  | [(host, id)] => pushDataToLocalSubscriber host id p apiType
  | (host, id) :: next :: rest => do
    let copy ← clone p
    pushDataToLocalSubscriber host id copy apiType
    deliver p apiType (next :: rest)

def handleNetworkPublication : LP Unit := do
  let subscriptions ← Program.read (·.activeSubscriptionIndex)
  let subscribers := findLocalSubscribers subscriptions ids
  if 0 < subscribers.size then
    deliver p apiType (subscribers.table.entries.map fun entry => (entry.1, entry.2))
  else
    kill p

/-- The local subscribers but for the publisher, with the identifier of the publication. -/
def otherSubscribers (publisher : Ptr) (id : ID) : LP (List (Ptr × ID)) := do
  let subscriptions ← Program.read (·.activeSubscriptionIndex)
  pure (((findLocalSubscribers subscriptions ids).erase publisher).keys.map fun host => (host, id))

/-- A zero forwarding identifier compares equal to `NULL`, so that the branches for it inside the
first case are dead. -/
def handleUserPublication (type : MessageType) (p : Packet) (host : Ptr)
    (apiType : MessageType) : LP Unit := do
  let publications ← Program.read (·.activePublicationIndex)
  let own := publications.get id
  let found := own.orElse fun _ => publications.get (fatherID id)
  match found with
  | none => kill p
  | some ap =>
    if ap.fidToSubscribers.zero then
      match ap.publishers.get host with
      | some .rePublish => sendNotificationLocally .rePublish host id
      | some .pausePublish => sendNotificationLocally .pausePublish host id
      | some .stopPublish => pure ()
      | _ => kill p
    else
      let ids := if own.isSome then ap.allKnownIDs else [id]
      let subscribers ← otherSubscribers ids host id
      if subscribers.isEmpty then
        pushTypedDataToRemoteSubscribers ids type ap.fidToSubscribers p
      else
        let copy ← clone p
        pushTypedDataToRemoteSubscribers ids type ap.fidToSubscribers copy
        deliver p apiType subscribers

/-- The identifiers of a publication under the known identifiers of its father. -/
def augmentedIDs : LP (List ID) := do
  let father ← Program.read (·.activePublicationIndex.get (fatherID id))
  let known := (father.map (·.allKnownIDs)).getD []
  pure ((known.map (· ++ lastFragment id)).filter (· ≠ id) ++ [id])

/-- A path that leads to the topology manager is not used when there are local subscribers. -/
def pushCopy (remote : Packet → LP Unit) : LP Unit := do
  let tmFid ← Program.read (·.gc.tmFid)
  if ¬ tmFid.zero ∧ fid = tmFid then
    pure ()
  else
    let copy ← clone p
    remote copy

/-- The two forms of `handleUserPublication` with a forwarding identifier of the publisher. -/
def handleImplicitPublication (host : Ptr)
    (apiType : MessageType) (remote : List ID → Packet → LP Unit) : LP Unit := do
  let ids ← augmentedIDs id
  let subscribers ← otherSubscribers ids host id
  if subscribers.isEmpty then
    remote ids p
  else
    pushCopy fid p (remote ids)
    deliver p apiType subscribers

def handleUserTMPublication (type : MessageType) (fid : BABitvector) (p : Packet)
    (host : Ptr) : LP Unit := do
  let ids ← augmentedIDs id
  let subscribers ← otherSubscribers ids host id
  if subscribers.isEmpty then
    pushTypedDataToRemoteSubscribers ids type fid p
  else
    pushCopy fid p (pushTypedDataToRemoteSubscribers ids type fid)
  processTMNotification p

/-- The union of the paths to the nodes that are known. -/
def multicastFid (nodes : HashTable NodeID ActiveNode) (nodeIDs : List NodeID) : LP Fid :=
  nodeIDs.foldlM (fun fid nodeID =>
    match nodes.get nodeID with
    | some an => do
      let path ← Program.expect .missing an.fidToNode
      pure (fid.zipWith (· ||| ·) path)
    | none => pure fid) (Vector.replicate 32 0)

/-- The publication whose identifiers a multicast sets: its own, or else that of the father. -/
def multicastTarget (publications : HashTable ID ActivePublication) (id : ID) : Option ID :=
  if id ∈ publications then some id
  else if fatherID id ∈ publications then some (fatherID id)
  else none

/-- Without a publication the packet is given back twice. -/
def handleUserMulticastRequest : LP Unit := do
  let publications ← Program.read (·.activePublicationIndex)
  match multicastTarget publications id with
  | none => do
    kill p
    kill p
  | some target =>
    assignPublication target fun ap => { ap with allKnownIDs := [id] }
    let nodes ← Program.read (·.activeNodeIndex)
    let fid ← multicastFid nodes (HashSet.insertAll ∅ nodeIDs).keys
    pushTypedDataToRemoteSubscribers [id] .publishData (some fid) p

/-- The node that has sent an implicit subscription. Tells whether a path to it is needed. -/
def storeActiveNode (nodeID : NodeID) (ids : List ID) : LP Bool := do
  let subscriptions ← Program.read (·.activeSubscriptionIndex)
  let subscribers := findLocalSubscribers subscriptions ids
  let found ← Program.read (·.activeNodeIndex.get nodeID)
  match found with
  | none =>
    let publishers : HashTable Ptr MessageType :=
      subscribers.keys.foldl (fun publishers host => publishers.findInsert host .stopPublishISub) ∅
    Program.update fun s =>
      { s with
        activeNodeIndex := s.activeNodeIndex.set nodeID
          { nodeID, fidToNode := .zeros, publishers } }
    pure true
  | some an => pure an.fidToNode.zero

/-- The strategy of the report is a signed `char`, which no strategy from 128 on is equal to. -/
def reportedHosts (s : LocalProxy) (type : UInt8) (strategy : UInt8) (name : ID) : List Ptr :=
  if type ∈ [MessageType.publishScope.code, MessageType.unpublishScope.code,
      MessageType.publishInfo.code, MessageType.unpublishInfo.code] then
    match s.activePublicationIndex.get name with
    | some ap => if ap.strategy = strategy ∧ strategy < 128 then ap.publishers.keys else []
    | none => []
  else if type ∈ [MessageType.subscribeScope.code, MessageType.unsubscribeScope.code,
      MessageType.subscribeInfo.code, MessageType.unsubscribeInfo.code] then
    match s.activeSubscriptionIndex.get name with
    | some as => if as.strategy = strategy ∧ strategy < 128 then as.subscribers.keys else []
    | none => []
  else
    []

def handleControlReliabilityNotification : LP Unit := do
  look p
  let report := Wire.readReport p.data
  let gc ← Program.read (·.gc)
  let named := report.ids = [gc.nodeRVScope]
  let name : Option ID := if named then report.prefixID.map (· ++ report.id) else some []
  let strategy := if named then report.strategy else 0
  if report.type = MessageType.matchPubSubs.code then
    kill p
  else
    match name with
    | none => pure ()
    | some name =>
      let hosts ← Program.read fun s => reportedHosts s report.type strategy name
      forM hosts fun host => do
        let target ← deref host
        emit (.controlFailure target.id name report.type strategy)

section

variable [Allocator] (p : Packet) (host : Ptr)

/-- A packet from the network. Only `PUBLISH_DATA` and `PUBLISH_DATA_iSUB` lose their type. -/
def pushFromNetwork : LP Unit := do
  look p
  let (ids, offset) := Wire.readNetworkIDs p.data
  let p := p.pull offset
  let gc ← Program.read (·.gc)
  if ids = [GlobalConf.controlReliabilityScope] then
    handleControlReliabilityNotification p
  else
    let type := p.data 0
    if type = MessageType.publishData.code then
      let p := p.pull 1
      if ids = [gc.notificationIID] then
        handleRVNotification p
        kill p
      else if ids = [GlobalConf.pathMgmtIID] then
        processTMNotification p
      else
        handleNetworkPublication ids p .publishedData
    else if type = MessageType.publishDataISub.code then
      let p := p.pull 1
      let nodeID := Wire.idAt p.data 0 1
      let forward ← storeActiveNode nodeID ids
      if forward then publishiReqToRV (HashSet.insertAll ∅ [nodeID])
      handleNetworkPublication ids p .publishedDataISub
    else
      handleNetworkPublication ids p .publishedData

def handleMappRequest : LP Unit := do
  look p
  let type := p.data 0
  let gc ← Program.read (·.gc)
  if type = 0 then
    let target ← deref host
    emit (.nodeIDIs target.id gc.nodeID)
    kill p
  else if type = 1 then
    let target ← deref host
    emit (.rvTmFidIs target.id gc.defaultRV)
    kill p
  else if type = 2 then
    Program.update fun s => { s with gc := { s.gc with status := p.data 1 } }
    updateStates (p.data 1)
    kill p
  else if type = MessageType.disconnect.code then
    disconnect host
    kill p
  else
    kill p

/-- `PUBLISH_DATA` of an application or an element. -/
def publishData : LP Unit := do
  let header := Wire.readHeader p.data
  let id := header.id
  let gc ← Program.read (·.gc)
  if header.strategy = Strategy.implicitRendezvous then
    let fid : BABitvector := some header.fid
    let p := p.pull (header.length + Wire.fidLen)
    if id = gc.notificationIID then
      handleRVNotification p
      kill p
    else if id = gc.nodeTMScope ∨ id = gc.nodeTMScopeUC then
      handleImplicitPublication id fid p host .publishedData fun ids =>
        pushDataToRemoteSubscribers ids fid
    else if id = GlobalConf.pathMgmtIID then
      handleUserTMPublication id .publishData fid p host
    else
      handleImplicitPublication id fid p host .publishedData fun ids =>
        pushTypedDataToRemoteSubscribers ids .publishData fid
  else if header.strategy = Strategy.linkLocal then
    let fid : BABitvector := some header.fid
    handleImplicitPublication id fid (p.pull (header.length + Wire.fidLen)) host .publishedData
      fun ids => pushTypedDataToRemoteSubscribers ids .publishData fid
  else if header.strategy = Strategy.broadcastIf then
    handleImplicitPublication id .negated (p.pull header.length) host .publishedData
      fun ids => pushTypedDataToRemoteSubscribers ids .publishData .negated
  else
    handleUserPublication id .publishData (p.pull header.length) host .publishedData

/-- Only `DOMAIN_LOCAL`. What is subscribed to is read from the data, once that is published. -/
def publishDataISub : LP Unit := do
  let header := Wire.readHeader p.data
  if header.strategy = Strategy.domainLocal then
    let p := p.pull header.length
    handleUserPublication header.id .publishDataISub p host .publishedDataISub
    let rvFid ← Program.read (·.gc.defaultRV)
    look p
    let id := Wire.readSubscription p.data
    let _ ← handleLocalRequest host
      ⟨MessageType.publishDataISub.code, id, fatherID id, header.strategy⟩ rvFid
    kill p
  else
    pure ()

def publishDataIMulticast : LP Unit :=
  let header := Wire.readHeader p.data
  let nodeIDs := Wire.readNodeIDs p.data header.length
  let count := (p.data header.length).toNat
  handleUserMulticastRequest header.id (p.pull (header.length + 1 + count * Wire.nodeIDLen))
    nodeIDs

/-- The path to the rendezvous that a request is stored with. -/
def requestRoute (gc : GlobalConf) (strategy : Strategy) : BABitvector :=
  if strategy = Strategy.domainLocal then gc.defaultRV else .zeros

def pushFromHost (p : Packet) (host : Ptr) : LP Unit := do
  look p
  let type := p.data 0
  if type = MessageType.disconnect.code then
    disconnect host
    kill p
  else if type = MessageType.publishData.code then
    publishData p host
  else if type = MessageType.publishDataISub.code then
    publishDataISub p host
  else if type = MessageType.publishDataIMulticast.code then
    publishDataIMulticast p
  else
    let request := Wire.readRequest p.data
    let gc ← Program.read (·.gc)
    let rvFid := requestRoute gc request.strategy
    let forward ← handleLocalRequest host request rvFid
    if forward then publishReqToRV p request rvFid else kill p

/-- A packet that Click pushes, with the annotation for the descriptor of an application. -/
structure Arrival extends Wire.Buffer where
  port : Nat
  anno : Nat

/-- Who a packet comes from, unless it comes from the network. -/
def Arrival.sender (arrival : Arrival) : ElementType × Nat :=
  if arrival.port = 0 ∨ arrival.port = 3 then (.localProcess, arrival.anno)
  else (.clickElement, arrival.port)

def push (arrival : Arrival) : LP Unit := do
  Program.update fun s => { s with uses := [] }
  let p : Packet := { arrival with handle := .given }
  if arrival.port = 2 then
    pushFromNetwork p
  else
    let host ← getLocalHost arrival.sender.1 arrival.sender.2
    if arrival.port = 3 then handleMappRequest p host else pushFromHost p host

def pushAll (arrivals : List Arrival) : LP Unit := forM arrivals push

end

end Blackadder.Proxy
