import Blackadder.Wire.RoundTrip

namespace Blackadder.Wire

open List hiding Vector
open View MessageType UInt8 Nat Buffer Memory

open Rendezvous (requestType)

/-- The loop over the identifiers; also gives the final index. As many bytes are copied as the
length in front of them says. -/
def putNoticeIDs (base : Nat) : List ID → Memory → Nat → Memory × Nat
  | [], data, index => (data, index)
  | id :: rest, data, index =>
    let idLength : UInt8 := UInt8.ofNat (bytes id).length / UInt8.ofNat pursuitIDLen
    let data := data.memcpy (base + index) [idLength]
    let data :=
      data.memcpy (base + index + 1) ((bytes id).take (idLength.toNat * pursuitIDLen))
    putNoticeIDs base rest data (index + 1 + idLength.toNat * pursuitIDLen)

variable (notificationIID : ID)

/-- Where the payload of a notification starts. -/
def noticeOffset : Nat := 1 + 1 + (bytes notificationIID).length + 1 + fidLen

variable (iLID : Fid)

/-- The part of a notification that is for the API of the node, which sends it to itself. -/
def putNoticeHeader : Memory :=
  let idLen := UInt8.ofNat ((bytes notificationIID).length / pursuitIDLen)
  let data := Memory.blank.memcpy 0 [MessageType.publishData.code]
  let data := data.memcpy 1 [idLen]
  let data := data.memcpy (1 + 1) (bytes notificationIID)
  let data := data.memcpy (1 + 1 + (bytes notificationIID).length) [Strategy.implicitRendezvous]
  data.memcpy (1 + 1 + (bytes notificationIID).length + 1) iLID.toList

/-- What the two kinds of notifications that the rendezvous sends itself have in common. -/
def writeLocalNotice (type : MessageType) (ids : List ID)
    (fid : Option Fid) : Packet :=
  let numberOfIDs := UInt8.ofNat ids.length
  let payload := noticeOffset notificationIID
  let length := payload + 1 + 1 + numberOfIDs.toNat * 1 + idBytes ids
  let data := putNoticeHeader notificationIID iLID
  let data := data.memcpy payload [type.code]
  let data := data.memcpy (payload + 1) [numberOfIDs]
  let (data, index) := putNoticeIDs (payload + 1 + 1) (ids.take numberOfIDs.toNat) data 0
  match fid with
  | none => ⟨length, data⟩
  | some fid => ⟨length + fidLen, data.memcpy (payload + 1 + 1 + index) fid.toList⟩

/-- What a publisher is told. -/
def publisherNoticeType (fid : Option Fid) (updateOnly : Bool) : MessageType :=
  match fid, updateOnly with
  | some _, false => .startPublish
  | some _, true => .updateFid
  | none, _ => .stopPublish

def notifyLocalPublisher (ids : List ID) (fid : Option Fid)
    (updateOnly : Bool) : Packet :=
  writeLocalNotice notificationIID iLID (publisherNoticeType fid updateOnly) ids fid

def notifyLocalSubscriber (type : MessageType)
    (ids : List ID) : Packet :=
  writeLocalNotice notificationIID iLID type ids none

/-- The tail of the request, and room for a forwarding identifier that is never set. `start` is
where the subscribers start. -/
def writeScopeNotice (start : Nat) (request : View) (requestLen : Nat) : Packet :=
  let noSubscribers := (request (1 + 1)).toNat
  let idsIndex := start + noSubscribers * pursuitIDLen
  { length := requestLen - 1 - 1 - noSubscribers * pursuitIDLen + fidLen
    data := (Memory.blank.memcpy 0 [request 0]).memcpy 1
      (request.read idsIndex (requestLen - idsIndex)) }

/-- `handleMulticastPathRequest` for `SCOPE_PUBLISHED` and `SCOPE_UNPUBLISHED`. -/
def multicastScopeNotice (request : View) (requestLen : Nat) : Packet :=
  writeScopeNotice (1 + 1 + 1) request requestLen

/-- It goes ahead by the number of subscribers where it should by the size of that number. -/
def unicastScopeNotice (request : View) (requestLen : Nat) : Packet :=
  writeScopeNotice (1 + 1 + (request (1 + 1)).toNat) request requestLen

/-- The loop over the implicit subscribers. -/
def putISubscribers (path : Fragment → Fid) : List Fragment → Memory → Nat → Memory
  | [], data, _ => data
  | node :: rest, data, idx =>
    let data := data.memcpy (1 + 1 + idx) node.toList
    let data := data.memcpy (1 + 1 + (idx + nodeIDLen)) (path node).toList
    putISubscribers path rest data (idx + nodeIDLen + fidLen)

/-- `handleUnicastPathRequest` for `MATCH_PUB_iSUBS`, which has no strategy. -/
def iSubscribersNotice (calculateFID : Fragment → Fragment → Fid) (request : View) : Packet :=
  let publisher : Fragment := vectorAt request (1 + 1)
  let noSubscribers := request (1 + 1 + nodeIDLen)
  let nodes := idAt request (1 + 1 + nodeIDLen + 1) noSubscribers.toNat
  let data := Memory.blank.memcpy 0 [MessageType.updateFidISub.code]
  let data := data.memcpy 1 [noSubscribers]
  { length := 1 + 1 + noSubscribers.toNat * nodeIDLen + noSubscribers.toNat * fidLen
    data := putISubscribers (calculateFID publisher) nodes data 0 }

/-- For `UPDATE_RVFID` or `UPDATE_TMFID`, by `handleLinkStateNotificationPM`. -/
def writeFidUpdate (type : MessageType) (fid : Fid) : Packet where
  length := 1 + fidLen
  data := (Memory.blank.memcpy 0 [type.code]).memcpy 1 fid.toList

/-- What a notification is about, for `handleRVNotification`. -/
inductive Notice where
  | about (notification : Notification)
  | rvFid (fid : Fid)
  | tmFid (fid : Fid)
  | iSubscribers (paths : List (NodeID × Fid))
  deriving DecidableEq

def readNotice (data : View) : Notice :=
  let type := data 0
  if type = MessageType.updateRvFid.code then .rvFid (readFid data)
  else if type = MessageType.updateTmFid.code then .tmFid (readFid data)
  else if type = MessageType.updateFidISub.code then .iSubscribers (readISubscribers data)
  else .about (readNotification data)

/-- The loop over the identifiers runs for all types but one, also for those that have none. -/
def noticeExtent (data : View) : Nat :=
  let type := data 0
  if type = MessageType.updateFidISub.code then
    1 + 1 + (data 1).toNat * (nodeIDLen + fidLen)
  else
    let index := (readIDs data (data 1).toNat 0).2
    if type = MessageType.startPublish.code ∨ type = MessageType.updateFid.code then
      1 + 1 + index + fidLen
    else if type = MessageType.updateRvFid.code ∨ type = MessageType.updateTmFid.code then
      max (1 + 1 + index) (1 + fidLen)
    else
      1 + 1 + index

variable {notice : Notice}

section

/-- A reader gets the packet from the offset on. Bytes that were never set can be anything. -/
def Packet.Reaches (packet : Packet) (offset : Nat) (view : View) : Prop :=
  ∀ i byte, offset + i < packet.length → packet.data (offset + i) = some byte → view i = byte

/-- The proxy recovers what was sent, and looks at nothing behind the end of the packet. -/
def Packet.Conveys (packet : Packet) (offset : Nat) (notice : Notice) : Prop :=
  ∀ view, packet.Reaches offset view →
    readNotice view = notice ∧ noticeExtent view ≤ packet.length - offset

/-- `length` is the byte before an identifier for its length; the rendezvous puts `castLength`. -/
structure PathQuery extends Match where
  updateOnly : Bool
  length : ID → UInt8

/-- A request to tell the subscribers of a scope about its change. -/
structure ScopeQuery where
  unpublished : Bool
  strategy : Strategy
  subscribers : List Fragment
  ids : List ID
  length : ID → UInt8
  subscribed : subscribers ≠ []
  fewSubscribers : subscribers.length ≤ 255
  fewIDs : ids.length ≤ 255

/-- A request for the paths to implicit subscribers. -/
structure ISubscribersQuery where
  publisher : Fragment
  nodes : List Fragment
  few : nodes.length ≤ 255

def PathQuery.payload (q : PathQuery) : List UInt8 :=
  requestHosts q.updateOnly q.strategy (q.publishers.map fun node => [node])
    (q.subscribers.map fun node => [node]) ++
      (UInt8.ofNat q.ids.length :: idFields q.length q.ids)

/-- The type of a notification about a scope. -/
def scopeNoticeType (unpublished : Bool) : MessageType :=
  if unpublished then .scopeUnpublished else .scopePublished

def ScopeQuery.type (q : ScopeQuery) : MessageType := scopeNoticeType q.unpublished

def ScopeQuery.payload (q : ScopeQuery) : List UInt8 :=
  [q.type.code, q.strategy, UInt8.ofNat q.subscribers.length] ++ bytes q.subscribers ++
    (UInt8.ofNat q.ids.length :: idFields q.length q.ids)

def ISubscribersQuery.payload (q : ISubscribersQuery) : List UInt8 :=
  [MessageType.matchPubISubs.code, 1] ++ q.publisher.toList ++
    (UInt8.ofNat q.nodes.length :: bytes q.nodes)

/-- What the rendezvous and the topology manager send to a node. -/
inductive Emission where
  | localPublisher (ids : List ID) (fid : Option Fid) (updateOnly : Bool)
  | localSubscriber (unpublished : Bool) (ids : List ID)
  | response (query : PathQuery) (fid : Option Fid)
  | multicastScope (query : ScopeQuery)
  | unicastScope (query : ScopeQuery)
  | iSubscribers (query : ISubscribersQuery) (calculateFID : Fragment → Fragment → Fid)
  | rvFid (fid : Fid)
  | tmFid (fid : Fid)

/-- What is sent arrives. The topology manager answers the request as it finds it. -/
def Emission.Arrives : Emission → Prop
  | .localPublisher ids fid updateOnly =>
    (notifyLocalPublisher notificationIID iLID ids fid updateOnly).Conveys
      (noticeOffset notificationIID)
      (.about ⟨(publisherNoticeType fid updateOnly).code, ids, fid⟩)
  | .localSubscriber unpublished ids =>
    (notifyLocalSubscriber notificationIID iLID (scopeNoticeType unpublished) ids).Conveys
      (noticeOffset notificationIID) (.about ⟨(scopeNoticeType unpublished).code, ids, none⟩)
  | .response query fid =>
    ∀ request : View, request.Shows 0 query.payload →
      (writeResponse request query.payload.length fid).Conveys 0
        (.about ⟨responseType (requestType query.updateOnly).code fid, query.ids, fid⟩)
  | .multicastScope query =>
    ∀ request : View, request.Shows 0 query.payload →
      (multicastScopeNotice request query.payload.length).Conveys 0
        (.about ⟨query.type.code, query.ids, none⟩)
  | .unicastScope query =>
    ∀ request : View, request.Shows 0 query.payload →
      (unicastScopeNotice request query.payload.length).Conveys 0
        (.about ⟨query.type.code, query.ids, none⟩)
  | .iSubscribers query calculateFID =>
    ∀ request : View, request.Shows 0 query.payload →
      (iSubscribersNotice calculateFID request).Conveys 0
        (.iSubscribers (query.nodes.map fun node => ([node], calculateFID query.publisher node)))
  | .rvFid fid => (writeFidUpdate .updateRvFid fid).Conveys 0 (.rvFid fid)
  | .tmFid fid => (writeFidUpdate .updateTmFid fid).Conveys 0 (.tmFid fid)

/-- The bytes of a path, read as identifiers, end with the path. -/
def StaysInside (fid : Fid) : Prop :=
  (readIDs (Buffer.ofBytes (0 :: fid.toList)).data (fid.get 0).toNat 0).2 + 1 ≤ fidLen

instance (fid : Fid) : Decidable (StaysInside fid) := inferInstanceAs (Decidable (_ ≤ _))

/-- What it takes for a notification to arrive. -/
def Emission.Sound : Emission → Prop
  | .localPublisher ids _ _ => ids.length ≤ 255 ∧ ∀ id ∈ ids, id.length < 32
  | .localSubscriber _ ids => ids.length ≤ 255 ∧ ∀ id ∈ ids, id.length < 32
  | .response query _ => ∀ id ∈ query.ids, (query.length id).toNat = id.length
  | .multicastScope query => ∀ id ∈ query.ids, (query.length id).toNat = id.length
  | .unicastScope query =>
    query.subscribers.length = 1 ∧ ∀ id ∈ query.ids, (query.length id).toNat = id.length
  | .iSubscribers _ _ => True
  | .rvFid fid => StaysInside fid
  | .tmFid fid => StaysInside fid

variable {pkt : Packet} {front body : List UInt8}
variable (hh : pkt.data.Holds (front ++ body)) (hf : (front ++ body).length ≤ pkt.length)

include hh hf

theorem Packet.reaches_iff (view : View) :
    pkt.Reaches front.length view ↔ view.Shows 0 body := by
  rw [length_append] at hf
  constructor
  · intro hr i hi
    rw [Nat.zero_add]
    refine hr i _ (by omega) ?_
    rw [hh, List.getElem?_append_right (Nat.le_add_right _ _), Nat.add_sub_cancel_left,
      List.getElem?_eq_getElem hi]
  · intro hs i byte _ set
    rw [hh, List.getElem?_append_right (Nat.le_add_right _ _), Nat.add_sub_cancel_left] at set
    obtain ⟨hi, same⟩ := List.getElem?_eq_some_iff.mp set
    rw [← same, ← hs i hi, Nat.zero_add]

end

section

variable {view : View} {length : ID → UInt8} {type : UInt8} {ids : List ID} {fid : Option Fid}

end

section

variable (id notificationIID : ID) (iLID : Fid) (ids : List ID)

end

section

variable {req : View}

theorem ScopeQuery.laid_of_shows (q : ScopeQuery) (hs : req.Shows 0 q.payload) :
    req 0 = q.type.code ∧ (req (1 + 1)).toNat = q.subscribers.length ∧
      req.Shows (1 + 1 + 1 + q.subscribers.length * pursuitIDLen)
        (ofNat q.ids.length :: idFields q.length q.ids) := by
  rw [ScopeQuery.payload, append_assoc, cons_append, cons_append, cons_append,
    nil_append, shows_cons, shows_cons, shows_cons, shows_append, length_bytes] at hs
  obtain ⟨type, -, count, -, tail⟩ := hs
  refine ⟨type, ?_, tail⟩
  rw [show req (1 + 1) = _ from count]
  exact toNat_count q.fewSubscribers

end

section

variable (path : Fragment → Fid) (fid : Fid) (nodes : List Fragment)

variable {view : View} {type : MessageType}

end

end Blackadder.Wire
