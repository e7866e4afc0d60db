import Blackadder.Library.Memory
import Blackadder.Rendezvous.State
import Mathlib.Data.Vector.Defs

namespace Blackadder.Wire

open Rendezvous (requestType)

/-- `PURSUIT_ID_LEN` and `NODEID_LEN`, both 8, and `FID_LEN`. -/
def pursuitIDLen : Nat := 8
def nodeIDLen : Nat := 8
def fidLen : Nat := 32

abbrev Fid : Type := Vector UInt8 32

/-- The bytes of a `String` that is made of whole fragments. -/
def bytes (id : ID) : List UInt8 := id.flatMap Vector.toList

/-- The part of `GlobalConf` that a request to the topology manager starts with. -/
structure GlobalConf where
  nodeID : Fragment
  tmScope : Fragment
  tmScopeUC : Fragment
  tmFid : Fid

variable (gc : GlobalConf)

namespace GlobalConf

def nodeTMScope : ID := [gc.tmScope, gc.nodeID]

def nodeTMScopeUC : ID := [gc.tmScope, gc.tmScopeUC, gc.nodeID]

end GlobalConf

/-- A packet of a given length. Nothing keeps a copy into it within that length. -/
structure Packet where
  length : Nat
  data : Memory

/-- The loop that puts host identifiers one after the other; also gives the final index. -/
def putHosts (base : Nat) : List NodeID → Memory → Nat → Memory × Nat
  | [], data, index => (data, index)
  | host :: rest, data, index =>
    putHosts base rest (data.memcpy (base + index) (bytes host)) (index + (bytes host).length)

/-- The loop over the identifiers of the item. The length is cast before the division. -/
def putIDs (base : Nat) : List ID → Memory → Nat → Memory
  | [], data, _ => data
  | id :: rest, data, index =>
    let idLength : UInt8 := UInt8.ofNat (bytes id).length / UInt8.ofNat pursuitIDLen
    let data := data.memcpy (base + index) [idLength]
    let data := data.memcpy (base + index + 1) (bytes id)
    putIDs base rest data (index + (1 + (bytes id).length))

/-- The sum of the lengths of the identifiers, in an `unsigned char`. -/
def idsTotalBytes (ids : List ID) : UInt8 :=
  ids.foldl (fun total id => total + UInt8.ofNat (bytes id).length) 0

variable (scope : ID) (scopeFragments : Nat) (updateOnly : Bool) (strategy : Strategy)
variable (publishers subscribers : List NodeID) (ids : List ID)

/-- The part of a request that is for the API of the node. -/
def putHeader : Memory :=
  let data := Memory.blank.memcpy 0 [MessageType.publishData.code]
  let data := data.memcpy 1 [UInt8.ofNat (scopeFragments * pursuitIDLen / pursuitIDLen)]
  let data := data.memcpy (1 + 1) (bytes scope)
  let data := data.memcpy (1 + 1 + (bytes scope).length) [Strategy.implicitRendezvous]
  data.memcpy (1 + 1 + (bytes scope).length + 1) gc.tmFid.toList

/-- The payload of a request, from the offset `payload` on. -/
def putPayload (payload : Nat) (updateOnly : Bool) (strategy : Strategy)
    (publishers subscribers : List NodeID) (ids : List ID) (data : Memory) : Memory :=
  let data := data.memcpy payload [(requestType updateOnly).code]
  let data := data.memcpy (payload + 1) [strategy]
  let data := data.memcpy (payload + 1 + 1) [UInt8.ofNat publishers.length]
  let (data, publisherIndex) := putHosts (payload + 1 + 1 + 1) publishers data 0
  let data := data.memcpy (payload + 1 + 1 + 1 + publisherIndex)
    [UInt8.ofNat subscribers.length]
  let (data, subscriberIndex) :=
    putHosts (payload + 1 + 1 + 1 + publisherIndex + 1) subscribers data 0
  let data := data.memcpy (payload + 1 + 1 + 1 + publisherIndex + 1 + subscriberIndex)
    [UInt8.ofNat ids.length]
  putIDs (payload + 1 + 1 + 1 + publisherIndex + 1 + subscriberIndex + 1) ids data 0

/-- `requestTMAssistanceForRendezvous` is there twice, with different scopes and ways to the
publishers. Both callers pass `pub->ids` as the identifiers to send. -/
def writeRequest : Packet where
  length := 1 + 1 + scopeFragments * pursuitIDLen + 1 + fidLen + 1 + 1 + 1
    + publishers.length * nodeIDLen + 1 + subscribers.length * nodeIDLen
    + 1 + ids.length * 1 + (idsTotalBytes ids).toNat
  data := putPayload (1 + 1 + (bytes scope).length + 1 + fidLen) updateOnly strategy publishers
    subscribers ids (putHeader gc scope scopeFragments)

/-- `requestTMAssistanceForRendezvous` for a set of publishers. -/
def requestForPublishers : Packet :=
  writeRequest gc gc.nodeTMScope 2 updateOnly strategy publishers subscribers ids

/-- `requestTMAssistanceForRendezvous` for a single publisher. -/
def requestForPublisher
    (publisher : NodeID) (subscribers : List NodeID) (ids : List ID) : Packet :=
  writeRequest gc gc.nodeTMScopeUC 3 updateOnly strategy [publisher] subscribers ids

/-- Where the data of the event starts that the topology manager gets for a request. -/
def payloadOffset : Nat :=
  1 + 1 + scopeFragments * pursuitIDLen + 1 + fidLen

/-- As many bytes as the type asks for: a fragment, or a forwarding identifier. -/
def vectorAt {n : Nat} (view : View) (offset : Nat) : Vector UInt8 n :=
  Vector.ofFn fun i => view (offset + i)

/-- A string of `fragments` fragments from the offset on. -/
def idAt (view : View) (offset fragments : Nat) : ID :=
  (List.range fragments).map fun i => vectorAt view (offset + i * pursuitIDLen)

/-- What the topology manager takes out of a request for a match. -/
structure PathRequest where
  requestType : UInt8
  strategy : UInt8
  publishers : List Fragment
  subscribers : List Fragment
  deriving DecidableEq

variable (request : View)

/-- The numbers of publishers and subscribers that the request gives. -/
def noPublishers : Nat := (request (1 + 1)).toNat

def noSubscribers : Nat :=
  (request (1 + 1 + 1 + noPublishers request * pursuitIDLen)).toNat

/-- Where the identifiers start. -/
def idsIndex : Nat :=
  1 + 1 + 1 + noPublishers request * pursuitIDLen + 1 + noSubscribers request * pursuitIDLen

/-- Up to the computation of the paths. The copy of the first identifier for the statistics, two
bytes beyond the end of the request included, is left out. -/
def readMulticastRequest : PathRequest :=
  let publishers := idAt request (1 + 1 + 1) (noPublishers request)
  let idx := noPublishers request * pursuitIDLen
  let subscribers := idAt request (1 + 1 + 1 + 1 + idx) (noSubscribers request)
  ⟨request 0, request 1, publishers, subscribers⟩

/-- Up to the computation of the path: one publisher, whatever number the request gives. -/
def readUnicastRequest : PathRequest :=
  let publisher : Fragment := vectorAt request (1 + 1 + 1)
  let offset := 1 + 1 + 1 + nodeIDLen
  let noSubscribers := request offset
  let subscribers := idAt request (offset + 1) noSubscribers.toNat
  ⟨request 0, request 1, [publisher], subscribers⟩

/-- `STOP_PUBLISH` when there is no path. The unicast handler compares with `MATCH_PUB_SUBS`
instead, which comes to the same. -/
def responseType (requestType : UInt8) : Option Fid → UInt8
  | none => MessageType.stopPublish.code
  | some _ =>
    if requestType = MessageType.updateFid.code then MessageType.updateFid.code
    else MessageType.startPublish.code

/-- The tail of the request, and the forwarding identifier if there is one. -/
def writeResponse (requestLen : Nat) (fid : Option Fid) : Packet :=
  let responseSize := requestLen - 1 - 1 - noPublishers request * pursuitIDLen - 1
    - noSubscribers request * pursuitIDLen
  let index := idsIndex request
  let data := Memory.blank.memcpy 0 [responseType (request 0) fid]
  let data := data.memcpy 1 (request.read index (requestLen - index))
  match fid with
  | none => ⟨responseSize, data⟩
  | some fid => ⟨responseSize + fidLen, data.memcpy (1 + (requestLen - index)) fid.toList⟩

/-- What `handleRVNotification` takes out of a response of the topology manager. -/
structure Notification where
  type : UInt8
  ids : List ID
  fid : Option Fid
  deriving DecidableEq

/-- The loop over the identifiers, from the given index on. -/
def readIDs (data : View) : Nat → Nat → List ID × Nat
  | 0, index => ([], index)
  | count + 1, index =>
    let idLength := data (1 + 1 + index)
    let id := idAt data (1 + 1 + 1 + index) idLength.toNat
    let (ids, final) := readIDs data count (index + 1 + idLength.toNat * pursuitIDLen)
    (id :: ids, final)

variable (data : View)

/-- Only `START_PUBLISH` and `UPDATE_FID` look for a FID behind the identifiers. -/
def readNotification : Notification :=
  let type := data 0
  let (ids, index) :=
    if type = MessageType.updateFidISub.code then ([], 0) else readIDs data (data 1).toNat 0
  let fid :=
    if type = MessageType.startPublish.code ∨ type = MessageType.updateFid.code then
      some (vectorAt data (1 + 1 + index))
    else none
  ⟨type, ids, fid⟩

/-- A packet: its length, and what a reader finds from its data pointer on. -/
structure Buffer where
  length : Nat
  data : View

namespace Buffer

/-- `p->pull(n)`. -/
def pull (buffer : Buffer) (n : Nat) : Buffer := ⟨buffer.length - n, fun i => buffer.data (n + i)⟩

def contents (buffer : Buffer) : List UInt8 := buffer.data.read 0 buffer.length

/-- A buffer that holds the bytes and nothing else. -/
def ofBytes (bytes : List UInt8) : Buffer := ⟨bytes.length, fun i => bytes.getD i 0⟩

end Buffer

/-- The loop that reads length-prefixed identifiers from `base` on. -/
def idsAt (base : Nat) (data : View) : Nat → Nat → List ID × Nat
  | 0, index => ([], index)
  | count + 1, index =>
    let idLength := data (base + index)
    let id := idAt data (base + 1 + index) idLength.toNat
    let (ids, final) := idsAt base data count (index + 1 + idLength.toNat * pursuitIDLen)
    (id :: ids, final)

/-- A pub/sub request as an application or an element sends it. -/
structure Request where
  type : UInt8
  id : ID
  prefixID : ID
  strategy : Strategy
  deriving DecidableEq

/-- A request as the library lays it out. -/
def Request.bytes (request : Request) : List UInt8 :=
  [request.type, UInt8.ofNat request.id.length] ++ Wire.bytes request.id ++
    [UInt8.ofNat request.prefixID.length] ++ Wire.bytes request.prefixID ++ [request.strategy]

def readRequest : Request :=
  let idLength := (data 1).toNat
  let prefixIDLength := (data (1 + 1 + idLength * pursuitIDLen)).toNat
  { type := data 0
    id := idAt data (1 + 1) idLength
    prefixID := idAt data (1 + 1 + idLength * pursuitIDLen + 1) prefixIDLength
    strategy := data (1 + 1 + idLength * pursuitIDLen + 1 + prefixIDLength * pursuitIDLen) }

/-- What stands before the data. The forwarding identifier is there for some strategies only. -/
structure Header where
  id : ID
  strategy : Strategy
  fid : Fid
  length : Nat

def readHeader : Header :=
  let idLength := (data 1).toNat
  { id := idAt data (1 + 1) idLength
    strategy := data (1 + 1 + idLength * pursuitIDLen)
    fid := vectorAt data (1 + 1 + idLength * pursuitIDLen + 1)
    length := 1 + 1 + idLength * pursuitIDLen + 1 }

/-- The subscribers that a `PUBLISH_DATA_iMULTICAST` names behind its header. -/
def readNodeIDs (offset : Nat) : List NodeID :=
  (List.range (data offset).toNat).map fun i => idAt data (offset + 1 + i * nodeIDLen) 1

/-- The identifier of an implicit subscription, in the data of a `PUBLISH_DATA_iSUB`. -/
def readSubscription : ID := idAt data 1 (data 0).toNat

/-- The identifiers of a packet from the network, and where what follows them starts. -/
def readNetworkIDs : List ID × Nat :=
  let (ids, index) := idsAt 1 data (data 0).toNat 0
  (ids, 1 + index)

/-- The pairs of `UPDATE_FID_iSUB`: a subscriber, and the path to it. -/
def readISubscribers : List (NodeID × Fid) :=
  (List.range (data 1).toNat).map fun i =>
    (idAt data (1 + 1 + i * (nodeIDLen + fidLen)) 1,
      vectorAt data (1 + 1 + i * (nodeIDLen + fidLen) + nodeIDLen))

/-- The new path of `UPDATE_RVFID` and `UPDATE_TMFID`. -/
def readFid : Fid := vectorAt data 1

/-- A prefix of 128 or more fragments has a negative length, and no name is read. -/
structure Report where
  ids : List ID
  type : UInt8
  id : ID
  prefixID : Option ID
  strategy : UInt8

def readReport : Report :=
  let (ids, index) := idsAt (1 + 1 + 1) data (data (1 + 1)).toNat 0
  let start := 1 + 1 + 1 + index + 1
  let idLength := (data start).toNat
  let prefixIDLength := (data (start + 1 + idLength * pursuitIDLen)).toNat
  { ids := ids
    type := data (1 + 1 + 1 + index)
    id := idAt data (start + 1) idLength
    prefixID :=
      if prefixIDLength < 128 then
        some (idAt data (start + 1 + idLength * pursuitIDLen + 1) prefixIDLength)
      else none
    strategy :=
      data (start + 1 + idLength * pursuitIDLen + 1 + prefixIDLength * pursuitIDLen) }

open Nat View UInt8
open List hiding Vector

theorem length_bytes (id : ID) : (bytes id).length = id.length * pursuitIDLen := by
  induction id with
  | nil => rfl
  | cons _ _ ih =>
    simp only [bytes, flatMap_cons, length_append, Vector.length_toList, length_cons] at ih ⊢
    rw [ih, pursuitIDLen]
    omega

/-- Identifiers one after the other, each behind a byte for its length. -/
def idFields (length : ID → UInt8) (ids : List ID) : List UInt8 :=
  ids.flatMap fun id => length id :: bytes id

/-- The length in fragments as most encoders compute it: cast first, then divided. -/
def castLength (id : ID) : UInt8 := UInt8.ofNat (bytes id).length / UInt8.ofNat pursuitIDLen

/-- The bytes that the identifiers take altogether. -/
def idBytes (ids : List ID) : Nat := (ids.flatMap bytes).length

theorem idBytes_cons (id : ID) (rest : List ID) :
    idBytes (id :: rest) = id.length * pursuitIDLen + idBytes rest := by
  rw [idBytes, flatMap_cons, length_append, length_bytes, idBytes]

variable {ids : List ID} {id : ID}

theorem length_le_idBytes (hm : id ∈ ids) : id.length * pursuitIDLen ≤ idBytes ids := by
  induction ids with
  | nil => cases hm
  | cons _ _ ih =>
    rw [idBytes_cons]
    rcases mem_cons.mp hm with rfl | hi
    · exact le_add_right _ _
    · exact le_trans (ih hi) (le_add_left _ _)

theorem length_lt_of_idBytes (hs : idBytes ids < 256) (hm : id ∈ ids) : id.length < 32 := by
  have part := length_le_idBytes hm
  rw [pursuitIDLen] at part
  omega

section

variable {length : ID → UInt8}

theorem idFields_cons (id : ID) (rest : List ID) :
    idFields length (id :: rest) = length id :: bytes id ++ idFields length rest :=
  flatMap_cons

theorem length_idFields (ids : List ID) :
    (idFields length ids).length = ids.length + idBytes ids := by
  induction ids with
  | nil => rfl
  | cons =>
    rw [idFields_cons, length_append, idBytes_cons, length_cons, length_bytes, length_cons]
    omega

theorem toNat_castLength (id : ID) : (castLength id).toNat = id.length % 32 := by
  rw [castLength, UInt8.toNat_div, length_bytes]
  show id.length * 8 % 256 / 8 = id.length % 32
  omega

theorem castLength_true_iff (id : ID) : (castLength id).toNat = id.length ↔ id.length < 32 := by
  rw [toNat_castLength]
  omega

theorem toNat_count {n : Nat} (few : n ≤ 255) : (ofNat n).toNat = n := by
  rw [toNat_ofNat']
  omega

end

theorem Buffer.pull_pull (buf : Buffer) (n m : Nat) : (buf.pull n).pull m = buf.pull (n + m) := by
  simp only [pull, Nat.sub_sub, Nat.add_assoc]

theorem Buffer.contents_pull (buf : Buffer) (n : Nat) :
    (buf.pull n).contents = buf.data.read n (buf.length - n) := by
  simp [contents, pull, View.read]

theorem Buffer.shows_ofBytes (bytes : List UInt8) : (ofBytes bytes).data.Shows 0 bytes := by
  intro i hi
  simp [ofBytes, List.getElem?_eq_getElem hi]

section

variable {view : View} {off : Nat} {n idx count : Nat} {id : ID} {data other : View} {ids : List ID}

theorem vectorAt_of_shows {vector : Vector UInt8 n} (hs : view.Shows off vector.toList) :
    vectorAt view off = vector := by
  apply Vector.ext
  intro i hi
  have within : i < vector.toList.length := by rwa [Vector.length_toList]
  rw [vectorAt, Vector.getElem_ofFn]
  exact (hs i within).trans (Vector.getElem_toList within)

theorem idAt_of_shows (hs : view.Shows off (bytes id)) : idAt view off id.length = id := by
  induction id generalizing off with
  | nil => rfl
  | cons _ _ ih =>
    rw [bytes, flatMap_cons, shows_append] at hs
    have tail := ih hs.2
    rw [idAt, length_cons, range_succ_eq_map, map_cons, Nat.zero_mul,
      Nat.add_zero, vectorAt_of_shows hs.1]
    congr 1
    rw [← tail, idAt]
    simp [pursuitIDLen, Nat.add_mul, Nat.add_assoc, Nat.add_comm]

theorem length_idAt (view : View) (off frags : Nat) : (idAt view off frags).length = frags := by
  rw [idAt, length_map, length_range]

variable {length : ID → UInt8} {base : Nat}

/-- The first of several identifiers, and where the reader looks for the others. -/
theorem shows_idFields_cons {rest : List ID}
    (hs : view.Shows (base + idx) (idFields length (id :: rest))) :
    view (base + idx) = length id ∧ view.Shows (base + 1 + idx) (bytes id) ∧
      view.Shows (base + (idx + 1 + id.length * pursuitIDLen)) (idFields length rest) := by
  rw [idFields_cons, cons_append, shows_cons, shows_append, length_bytes] at hs
  obtain ⟨first, content, others⟩ := hs
  refine ⟨first, ?_, ?_⟩
  · rw [Nat.add_right_comm]
    exact content
  · rw [show base + (idx + 1 + id.length * pursuitIDLen) =
      base + idx + 1 + id.length * pursuitIDLen by omega]
    exact others

theorem idsAt_of_shows (lengths : ∀ id ∈ ids, (length id).toNat = id.length)
    (hs : view.Shows (base + idx) (idFields length ids)) :
    idsAt base view ids.length idx = (ids, idx + (idFields length ids).length) := by
  induction ids generalizing idx with
  | nil => rfl
  | cons id rest ih =>
    obtain ⟨first, content, others⟩ := shows_idFields_cons hs
    have frags := lengths id mem_cons_self
    have tail := ih (fun id hm => lengths id (mem_cons_of_mem _ hm)) others
    simp only [length_cons, idsAt, first, frags, idAt_of_shows content, tail]
    rw [length_idFields, length_idFields, idBytes_cons, length_cons]
    congr 1
    omega

theorem lengths_of_idsAt (hs : view.Shows (base + idx) (idFields length ids))
    (hf : (idsAt base view ids.length idx).1 = ids) :
    ∀ id ∈ ids, (length id).toNat = id.length := by
  induction ids generalizing idx with
  | nil => exact fun id hm => nomatch hm
  | cons id rest ih =>
    obtain ⟨first, content, others⟩ := shows_idFields_cons hs
    simp only [length_cons, idsAt, first, List.cons.injEq] at hf
    have frags : (length id).toNat = id.length := by
      rw [← congrArg List.length hf.1, length_idAt]
    intro other hm
    rcases mem_cons.mp hm with rfl | hi
    · exact frags
    · rw [frags] at hf
      exact ih others hf.2 other hi

theorem toList_vectorAt (view : View) (off : Nat) :
    (vectorAt view off : Vector UInt8 n).toList = view.read off n := by
  apply ext_getElem
  · rw [Vector.length_toList, View.read, length_map, length_range]
  · intro i _ hi
    simp [View.read, vectorAt]

/-- The identifiers of a packet from the network, and where what follows them starts. -/
theorem readNetworkIDs_of_shows (few : ids.length ≤ 255)
    (lengths : ∀ id ∈ ids, (length id).toNat = id.length)
    (hs : view.Shows 0 (ofNat ids.length :: idFields length ids)) :
    readNetworkIDs view = (ids, 1 + (idFields length ids).length) := by
  obtain ⟨count, fields⟩ := shows_cons.mp hs
  have loop := idsAt_of_shows lengths (show view.Shows (1 + 0) _ from fields)
  rw [readNetworkIDs, count, toNat_count few, loop, Nat.zero_add]

theorem lengths_of_readNetworkIDs (few : ids.length ≤ 255)
    (hs : view.Shows 0 (ofNat ids.length :: idFields length ids))
    (hf : (readNetworkIDs view).1 = ids) : ∀ id ∈ ids, (length id).toNat = id.length := by
  obtain ⟨count, fields⟩ := shows_cons.mp hs
  rw [readNetworkIDs, count, toNat_count few] at hf
  exact lengths_of_idsAt (show view.Shows (1 + 0) _ from fields) hf

theorem readIDs_eq (data : View) (count idx : Nat) :
    readIDs data count idx = idsAt (1 + 1) data count idx := by
  induction count generalizing idx with
  | zero => rfl
  | succ count ih => simp only [readIDs, idsAt, ih]

end

end Blackadder.Wire
