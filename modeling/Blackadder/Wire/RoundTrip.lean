import Blackadder.Wire.Codec

namespace Blackadder.Wire

open List hiding Vector
open UInt8 View

open Rendezvous (requestType)

/-- One identifier in a request: its length in fragments, and its bytes. -/
def idField (id : ID) : List UInt8 :=
  [UInt8.ofNat (bytes id).length / UInt8.ofNat pursuitIDLen] ++ bytes id

theorem flatMap_idField (ids : List ID) : ids.flatMap idField = idFields castLength ids := rfl

section

variable {data : Memory} {front : List UInt8} {base index : Nat}

/-- The hosts go right behind what has been written, and the index is where they end. -/
theorem putHosts_holds (hh : data.Holds front) (behind : base + index = front.length)
    (hosts : List NodeID) :
    (putHosts base hosts data index).1.Holds (front ++ hosts.flatMap bytes) ∧
      base + (putHosts base hosts data index).2 = (front ++ hosts.flatMap bytes).length := by
  induction hosts generalizing data front index with
  | nil => simpa [putHosts] using ⟨hh, behind⟩
  | cons host rest ih =>
    have all := ih (hh.memcpy behind (bytes host))
      (show base + (index + (bytes host).length) = _ by rw [length_append]; omega)
    rw [append_assoc] at all
    exact all

theorem putIDs_holds (hh : data.Holds front) (behind : base + index = front.length)
    (ids : List ID) : (putIDs base ids data index).Holds (front ++ ids.flatMap idField) := by
  induction ids generalizing data front index with
  | nil => simpa [putIDs] using hh
  | cons id rest ih =>
    have field := (hh.memcpy behind [ofNat (bytes id).length / ofNat pursuitIDLen]).memcpy
      (show base + index + 1 = _ by simp [behind]) (bytes id)
    rw [append_assoc] at field
    have all := ih field (show base + (index + (1 + (bytes id).length)) = _ by simp; omega)
    rw [append_assoc] at all
    exact all

/-- The same loop where its final index is needed. -/
def putIDFields (base : Nat) : List ID → Memory → Nat → Memory × Nat
  | [], data, index => (data, index)
  | id :: rest, data, index =>
    let idLength : UInt8 := UInt8.ofNat (bytes id).length / UInt8.ofNat pursuitIDLen
    let data := data.memcpy (base + index) [idLength]
    let data := data.memcpy (base + index + 1) (bytes id)
    putIDFields base rest data (index + 1 + (bytes id).length)

theorem putIDFields_eq (ids : List ID) (data : Memory) (idx : Nat) : putIDFields base ids data idx =
      (putIDs base ids data idx, idx + (idFields castLength ids).length) := by
  induction ids generalizing data idx with
  | nil => rfl
  | cons id rest ih =>
    rw [putIDFields, ih, putIDs, Nat.add_assoc idx 1, idFields_cons,
      length_append, length_cons, Nat.add_comm (bytes id).length 1, Nat.add_assoc idx]

theorem putIDFields_holds (hh : data.Holds front) (behind : base + index = front.length)
    (ids : List ID) : (putIDFields base ids data index).1.Holds (front ++ idFields castLength ids) ∧
      base + (putIDFields base ids data index).2 = (front ++ idFields castLength ids).length := by
  rw [putIDFields_eq]
  refine ⟨putIDs_holds hh behind ids, ?_⟩
  rw [length_append, ← behind, Nat.add_assoc]

/-- What a request starts with, for the API of the node. -/
def requestHeader (gc : GlobalConf) (scope : ID) (scopeFragments : Nat) : List UInt8 :=
  [MessageType.publishData.code, UInt8.ofNat (scopeFragments * pursuitIDLen / pursuitIDLen)]
    ++ bytes scope ++ [Strategy.implicitRendezvous] ++ gc.tmFid.toList

/-- The hosts of a request, and the number of identifiers that follow. -/
def requestHosts (updateOnly : Bool) (strategy : Strategy) (publishers subscribers : List NodeID) :
    List UInt8 :=
  [(requestType updateOnly).code, strategy, UInt8.ofNat publishers.length]
    ++ publishers.flatMap bytes ++ [UInt8.ofNat subscribers.length]
    ++ subscribers.flatMap bytes

/-- The identifiers of a request, which the response repeats. -/
def requestIDs (ids : List ID) : List UInt8 := [UInt8.ofNat ids.length] ++ ids.flatMap idField

theorem putHeader_holds (gc : GlobalConf) (scope : ID) (frags : Nat) :
    (putHeader gc scope frags).Holds (requestHeader gc scope frags) := by
  have type := Memory.holds_blank.memcpy rfl [MessageType.publishData.code]
  have length := type.memcpy rfl [ofNat (frags * pursuitIDLen / pursuitIDLen)]
  have target := length.memcpy rfl (bytes scope)
  have strat := target.memcpy (show 1 + 1 + (bytes scope).length = _ by simp; omega)
    [Strategy.implicitRendezvous]
  exact strat.memcpy (show 1 + 1 + (bytes scope).length + 1 = _ by simp; omega) _

theorem putPayload_holds (hh : data.Holds front) (behind : base = front.length)
    (upd : Bool) (strat : Strategy) (pubs subs : List NodeID)
    (ids : List ID) : (putPayload base upd strat pubs subs ids data).Holds
      (front ++ (requestHosts upd strat pubs subs ++ requestIDs ids)) := by
  have type := hh.memcpy behind [(requestType upd).code]
  have strategic := type.memcpy (show base + 1 = _ by simp [behind]) [strat]
  have count := strategic.memcpy (show base + 1 + 1 = _ by simp [behind]) [ofNat pubs.length]
  obtain ⟨first, firstEnd⟩ := putHosts_holds count
    (show base + 1 + 1 + 1 + 0 = _ by simp [behind]) pubs
  have count' := first.memcpy firstEnd [ofNat subs.length]
  obtain ⟨second, secondEnd⟩ := putHosts_holds count' (show base + 1 + 1 + 1 + _ + 1 + 0 = _ by
      rw [length_append, ← firstEnd, length_singleton]) subs
  have count'' := second.memcpy secondEnd [ofNat ids.length]
  have all := putIDs_holds count'' (show base + 1 + 1 + 1 + _ + 1 + _ + 1 + 0 = _ by
    rw [length_append, ← secondEnd, length_singleton]) ids
  simp only [requestHosts, append_assoc] at all ⊢
  exact all

end

section

theorem toNat_idsTotalBytes (ids : List ID) : (idsTotalBytes ids).toNat = idBytes ids % 256 := by
  suffices general : ∀ (ids : List ID) (total : UInt8),
      (ids.foldl (fun total id => total + UInt8.ofNat (bytes id).length) total).toNat =
        (total.toNat + idBytes ids) % 256 by
    have all := general ids 0
    rw [UInt8.toNat_zero, Nat.zero_add] at all
    exact all
  intro ids
  induction ids with
  | nil =>
    intro total
    exact (Nat.mod_eq_of_lt total.toNat_lt).symm
  | cons id rest ih =>
    intro total
    rw [foldl_cons, ih, UInt8.toNat_add, UInt8.toNat_ofNat', length_bytes, idBytes_cons]
    omega

theorem flatMap_bytes_singletons (nodes : List Fragment) :
    (nodes.map fun node => [node]).flatMap bytes = bytes nodes := by
  rw [flatMap_map]
  simp [bytes]

theorem length_requestHosts (upd : Bool) (strat : Strategy) (pubs subs : List Fragment) :
    (requestHosts upd strat (pubs.map fun node => [node])
      (subs.map fun node => [node])).length =
        1 + 1 + 1 + pubs.length * pursuitIDLen + 1 + subs.length * pursuitIDLen := by
  simp only [requestHosts, flatMap_bytes_singletons, length_append, length_bytes,
    length_cons, length_nil]

variable {scope : ID} {frags : Nat}
variable (gc : GlobalConf) (length : scope.length = frags) (upd : Bool) (strat : Strategy)

include gc length upd strat

/-- What a request holds, and where its payload starts. -/
theorem writeRequest_holds (pubs subs : List NodeID) (ids : List ID) (pkt : Packet)
    (written : pkt = writeRequest gc scope frags upd strat pubs subs ids) :
    pkt.data.Holds (requestHeader gc scope frags ++
      (requestHosts upd strat pubs subs ++ requestIDs ids)) ∧
      (requestHeader gc scope frags).length = payloadOffset frags := by
  have hdr : (requestHeader gc scope frags).length = payloadOffset frags := by
    simp only [requestHeader, length_append, length_bytes, length, Vector.length_toList,
      length_cons, length_nil, payloadOffset, fidLen]
  subst written
  refine ⟨putPayload_holds (putHeader_holds gc scope frags) ?_ upd strat pubs subs ids, hdr⟩
  rw [hdr, length_bytes, length, payloadOffset]

/-- A request fills its packet exactly if the `unsigned char` can hold the sum. -/
theorem writeRequest_filled_iff (pubs subs : List Fragment) (ids : List ID) (pkt : Packet)
    (written : pkt = writeRequest gc scope frags upd strat (pubs.map fun node => [node])
      (subs.map fun node => [node]) ids) :
    pkt.data.Filled pkt.length ↔ idBytes ids < 256 := by
  obtain ⟨hh, hdr⟩ := writeRequest_holds gc length upd strat _ _ ids pkt written
  subst written
  refine hh.filled_iff.trans ?_
  rw [length_append, length_append, hdr, length_requestHosts, requestIDs,
    length_append, flatMap_idField, length_idFields, writeRequest,
      toNat_idsTotalBytes, payloadOffset]
  simp only [length_map, length_singleton, pursuitIDLen, nodeIDLen]
  omega

end

/-- At most 255 publishers, subscribers and identifiers. A host is a `NODEID_LEN` string. -/
structure Match where
  strategy : Strategy
  publishers : List Fragment
  subscribers : List Fragment
  ids : List ID
  fewPublishers : publishers.length ≤ 255
  fewSubscribers : subscribers.length ≤ 255
  fewIDs : ids.length ≤ 255

/-- A reader gets the packet from the offset on. -/
def Packet.Delivers (packet : Packet) (offset : Nat) (view : View) : Prop :=
  ∀ i, offset + i < packet.length → packet.data (offset + i) = some (view i)

variable {pkt : Packet}

theorem Packet.delivers_iff {front body : List UInt8} (hh : pkt.data.Holds (front ++ body))
    (length : pkt.length = (front ++ body).length) (view : View) :
    pkt.Delivers front.length view ↔ view.Shows 0 body := by
  refine ⟨hh.shows length, fun hs i hi => ?_⟩
  have within : i < body.length := by
    rw [length, length_append] at hi
    omega
  have byte := hs i within
  rw [Nat.zero_add] at byte
  rw [hh, List.getElem?_append_right (Nat.le_add_right _ _), Nat.add_sub_cancel_left,
    List.getElem?_eq_getElem within, byte]

/-- The response fills its packet, and the local proxy finds the identifiers in it. -/
def ResponseArrives (request : View) (requestLen : Nat) (ids : List ID) (fid : Option Fid) :
    Prop :=
  (writeResponse request requestLen fid).data.Filled
      (writeResponse request requestLen fid).length ∧
    ∀ data, (writeResponse request requestLen fid).Delivers 0 data →
      readNotification data = ⟨responseType (request 0) fid, ids, fid⟩

section

variable {req : View} {requestLen : Nat} {ids : List ID}

/-- A type of a notification about identifiers. It tells whether a path follows. -/
structure AboutIDs (type : UInt8) (fid : Option Fid) : Prop where
  notISub : type ≠ MessageType.updateFidISub.code
  notRvFid : type ≠ MessageType.updateRvFid.code
  notTmFid : type ≠ MessageType.updateTmFid.code
  hasFid : (type = MessageType.startPublish.code ∨ type = MessageType.updateFid.code) ↔
    fid.isSome = true

/-- The type of a response tells that it is about publications, and whether there is a path. -/
theorem responseType_about (type : UInt8) (fid : Option Fid) :
    AboutIDs (responseType type fid) fid := by
  cases fid with
  | none =>
    simp only [responseType]
    exact ⟨by decide, by decide, by decide, by decide⟩
  | some fid =>
    by_cases update : type = MessageType.updateFid.code
    · simp only [responseType, update]
      exact ⟨by decide, by decide, by decide, by simp⟩
    · simp only [responseType, update]
      exact ⟨by decide, by decide, by decide, by simp⟩

/-- A notification about identifiers that come with the given lengths. -/
def noticeBytes (length : ID → UInt8) (type : UInt8) (ids : List ID) (fid : Option Fid) :
    List UInt8 :=
  [type] ++ (UInt8.ofNat ids.length :: idFields length ids) ++ (fid.map Vector.toList).getD []

variable {data : View} {length : ID → UInt8} {type : UInt8} {fid : Option Fid}

theorem shows_noticeBytes (few : ids.length ≤ 255)
    (hs : data.Shows 0 (noticeBytes length type ids fid)) :
    data 0 = type ∧ (data 1).toNat = ids.length ∧ data.Shows (1 + 1 + 0) (idFields length ids) ∧
      data.Shows (1 + 1 + (idFields length ids).length) ((fid.map Vector.toList).getD []) := by
  rw [noticeBytes, append_assoc, singleton_append, shows_cons, cons_append,
    shows_cons, shows_append] at hs
  obtain ⟨ht, count, fields, rest⟩ := hs
  refine ⟨ht, ?_, fields, rest⟩
  rw [show data 1 = _ from count]
  exact toNat_count few

/-- The proxy reads a notification back if its identifiers come with their true lengths. -/
theorem readNotification_of_shows (about : AboutIDs type fid) (few : ids.length ≤ 255)
    (lengths : ∀ id ∈ ids, (length id).toNat = id.length)
    (hs : data.Shows 0 (noticeBytes length type ids fid)) :
    readNotification data = ⟨type, ids, fid⟩ := by
  obtain ⟨ht, count, fields, rest⟩ := shows_noticeBytes few hs
  have loop : readIDs data ids.length 0 = (ids, 0 + (idFields length ids).length) :=
    (readIDs_eq data _ _).trans (idsAt_of_shows lengths fields)
  simp only [readNotification, ht, count, loop, about.hasFid, if_neg about.notISub]
  cases fid with
  | none => rfl
  | some fid =>
    have hf : vectorAt data (1 + 1 + (0 + (idFields length ids).length)) = fid := by
      apply vectorAt_of_shows
      rw [Nat.zero_add]
      exact rest
    rw [if_pos Option.isSome_some, hf]

/-- The response is the type, the tail of the request and the path, one behind the other. -/
theorem writeResponse_holds {tail : List UInt8} (hs : req.Shows (idsIndex req) tail)
    (ends : requestLen = idsIndex req + tail.length) (fid : Option Fid)
    (bytes : List UInt8) (content : bytes = [responseType (req 0) fid] ++ tail ++
      (fid.map Vector.toList).getD []) : (writeResponse req requestLen fid).data.Holds bytes ∧
      (writeResponse req requestLen fid).length = bytes.length := by
  have tailLength : requestLen - idsIndex req = tail.length := by
    rw [ends, Nat.add_sub_cancel_left]
  have size : requestLen - 1 - 1 - noPublishers req * pursuitIDLen - 1
      - noSubscribers req * pursuitIDLen = 1 + tail.length := by
    rw [ends, idsIndex]
    omega
  have front := (Memory.holds_blank.memcpy rfl [responseType (req 0) fid]).memcpy
    (show 1 = _ from rfl) tail
  subst content
  simp only [writeResponse, tailLength, read_of_shows hs]
  cases fid with
  | none => exact ⟨by simpa using front, by simp; omega⟩
  | some fid =>
    exact ⟨front.memcpy (by simp; omega) fid.toList, by simp [fidLen]; omega⟩

/-- A request that ends with its identifiers makes a response that arrives. -/
theorem writeResponse_arrives (few : ids.length ≤ 255) (small : idBytes ids < 256)
    (hs : req.Shows (idsIndex req) (requestIDs ids))
    (ends : requestLen = idsIndex req + (requestIDs ids).length) (fid : Option Fid) :
    ResponseArrives req requestLen ids fid := by
  obtain ⟨hh, length⟩ := writeResponse_holds hs ends fid _ rfl
  refine ⟨hh.filled_iff.mpr length, fun data hd => ?_⟩
  have hs : data.Shows 0 (noticeBytes castLength (responseType (req 0) fid) ids fid) :=
    Memory.Holds.shows (show Memory.Holds _ ([] ++ _) from hh) length hd
  refine readNotification_of_shows (responseType_about _ fid) few (fun id hm => ?_) hs
  exact (castLength_true_iff id).mpr (length_lt_of_idBytes small hm)

end

section

variable {request : View} {updateOnly : Bool} {m : Match}

/-- Where the parts of a request are. `tail` is what follows the hosts. -/
structure Match.Laid (m : Match) (updateOnly : Bool) (request : View) (tail : List UInt8) :
    Prop where
  type : request 0 = (requestType updateOnly).code
  strategy : request 1 = m.strategy
  noPublishers : noPublishers request = m.publishers.length
  publishers : request.Shows (1 + 1 + 1) (bytes m.publishers)
  noSubscribers : noSubscribers request = m.subscribers.length
  subscribers : request.Shows (1 + 1 + 1 + m.publishers.length * pursuitIDLen + 1)
    (bytes m.subscribers)
  tail : request.Shows (idsIndex request) tail
  index : idsIndex request = (requestHosts updateOnly m.strategy
    (m.publishers.map fun node => [node]) (m.subscribers.map fun node => [node])).length

variable {tail : List UInt8}

theorem Match.laid_of_shows
    (hs : request.Shows 0 (requestHosts updateOnly m.strategy (m.publishers.map fun node =>
      [node]) (m.subscribers.map fun node => [node]) ++ tail)) :
    m.Laid updateOnly request tail := by
  simp only [requestHosts, flatMap_bytes_singletons, length_map,
    append_assoc, cons_append, nil_append, shows_cons, shows_append, length_bytes] at hs
  obtain ⟨type, strat, count, pubs, count', subs, behind⟩ := hs
  have noPublishers : noPublishers request = m.publishers.length := by
    rw [Wire.noPublishers, show request (1 + 1) = _ from count]
    exact toNat_count m.fewPublishers
  have noSubscribers : noSubscribers request = m.subscribers.length := by
    rw [Wire.noSubscribers, noPublishers]
    rw [show request (1 + 1 + 1 + m.publishers.length * pursuitIDLen) = _ from count']
    exact toNat_count m.fewSubscribers
  have idx : idsIndex request = 1 + 1 + 1 + m.publishers.length * pursuitIDLen + 1
      + m.subscribers.length * pursuitIDLen := by
    rw [idsIndex, noPublishers, noSubscribers]
  refine ⟨type, strat, noPublishers, pubs, noSubscribers, subs, ?_, ?_⟩
  · rw [idx]
    exact behind
  · rw [idx, length_requestHosts]

theorem readMulticastRequest_of_laid (laid : m.Laid updateOnly request tail) :
    readMulticastRequest request =
      ⟨(requestType updateOnly).code, m.strategy, m.publishers, m.subscribers⟩ := by
  have subs : request.Shows (1 + 1 + 1 + 1 + m.publishers.length * pursuitIDLen)
      (bytes m.subscribers) := by
    rw [Nat.add_right_comm]
    exact laid.subscribers
  simp only [readMulticastRequest, laid.type, laid.strategy, laid.noPublishers,
    laid.noSubscribers, idAt_of_shows laid.publishers, idAt_of_shows subs]

theorem readUnicastRequest_of_laid {pub : Fragment} (single : m.publishers = [pub])
    (laid : m.Laid updateOnly request tail) : readUnicastRequest request =
      ⟨(requestType updateOnly).code, m.strategy, m.publishers, m.subscribers⟩ := by
  have first : vectorAt request (1 + 1 + 1) = pub := by
    have hs := laid.publishers
    rw [single, bytes, flatMap_singleton] at hs
    exact vectorAt_of_shows hs
  have count : (request (1 + 1 + 1 + nodeIDLen)).toNat = m.subscribers.length := by
    have hf := laid.noSubscribers
    rw [noSubscribers, laid.noPublishers, single] at hf
    exact hf
  have subs : request.Shows (1 + 1 + 1 + nodeIDLen + 1) (bytes m.subscribers) := by
    have hs := laid.subscribers
    rw [single] at hs
    exact hs
  simp only [readUnicastRequest, laid.type, laid.strategy, first, count, idAt_of_shows subs, single]

end

/-- A packet is written to its end and not beyond. The topology manager reads the match out of it,
and the publishers the identifiers out of the responses. -/
def Match.Survives (m : Match) (updateOnly : Bool) (packet : Packet) (offset : Nat)
    (read : View → PathRequest) : Prop :=
  packet.data.Filled packet.length ∧
    ∀ request, packet.Delivers offset request →
      read request = ⟨(requestType updateOnly).code, m.strategy, m.publishers, m.subscribers⟩ ∧
      ∀ fid, ResponseArrives request (packet.length - offset) m.ids fid

/-- The request for all the publishers, by way of `handleMulticastPathRequest`. -/
def Match.MulticastSurvives (gc : GlobalConf) (updateOnly : Bool) (m : Match) : Prop :=
  m.Survives updateOnly
    (requestForPublishers gc updateOnly m.strategy (m.publishers.map fun node => [node])
      (m.subscribers.map fun node => [node]) m.ids)
    (payloadOffset 2) readMulticastRequest

/-- The request for a publisher of its own, by way of `handleUnicastPathRequest`. -/
def Match.UnicastSurvives (gc : GlobalConf) (updateOnly : Bool) (m : Match)
    (publisher : Fragment) : Prop :=
  { m with publishers := [publisher], fewPublishers := by simp }.Survives updateOnly
    (requestForPublisher gc updateOnly m.strategy [publisher]
      (m.subscribers.map fun node => [node]) m.ids)
    (payloadOffset 3) readUnicastRequest

theorem Match.survives_iff (gc : GlobalConf) {scope : ID} {frags : Nat}
    (length : scope.length = frags) (upd : Bool) (m : Match) {read : View → PathRequest}
    (reads : ∀ req, m.Laid upd req (requestIDs m.ids) → read req =
      ⟨(requestType upd).code, m.strategy, m.publishers, m.subscribers⟩)
    (written : pkt = writeRequest gc scope frags upd m.strategy
      (m.publishers.map fun node => [node]) (m.subscribers.map fun node => [node]) m.ids) :
    m.Survives upd pkt (payloadOffset frags) read ↔ idBytes m.ids < 256 := by
  have filled_iff := writeRequest_filled_iff gc length upd m.strategy m.publishers
    m.subscribers m.ids pkt written
  refine ⟨fun survives => filled_iff.mp survives.1, fun hs => ?_⟩
  have hf := filled_iff.mpr hs
  refine ⟨hf, fun req hd => ?_⟩
  obtain ⟨hh, front⟩ := writeRequest_holds gc length upd m.strategy _ _ m.ids pkt written
  have full := hh.filled_iff.mp hf
  have laid : m.Laid upd req (requestIDs m.ids) :=
    laid_of_shows (hh.shows full (by rw [front]; exact hd))
  refine ⟨reads req laid, writeResponse_arrives m.fewIDs hs laid.tail ?_⟩
  rw [full, length_append, front, Nat.add_sub_cancel_left, length_append, laid.index]

/-- A request survives the wire exactly if its identifiers have less than 256 bytes. -/
theorem survives_wire_iff (gc : GlobalConf) (updateOnly : Bool) (m : Match) :
    (m.MulticastSurvives gc updateOnly ↔ idBytes m.ids < 256) ∧
    ∀ publisher, m.UnicastSurvives gc updateOnly publisher ↔ idBytes m.ids < 256 := by
  constructor
  · exact Match.survives_iff gc (by rfl) updateOnly m
      (fun request laid => readMulticastRequest_of_laid laid) rfl
  · intro publisher
    exact Match.survives_iff gc (by rfl) updateOnly _
      (fun request laid => readUnicastRequest_of_laid rfl laid) rfl

/-- An item with one identifier, of 32 fragments. -/
def deepItem : Match where
  strategy := Strategy.domainLocal
  publishers := [smallFragment 20]
  subscribers := [smallFragment 21]
  ids := [List.replicate 32 (smallFragment 11)]
  fewPublishers := by decide
  fewSubscribers := by decide
  fewIDs := by decide

def sampleConf : GlobalConf where
  nodeID := smallFragment 8
  tmScope := smallFragment 2
  tmScopeUC := smallFragment 3
  tmFid := Vector.replicate 32 0

/-- The sum of the lengths wraps to zero: there is room for none of the 256 bytes. -/
theorem deepItem_overruns_packet : idsTotalBytes deepItem.ids = 0 ∧
    (∃ packet, packet = requestForPublishers sampleConf false deepItem.strategy
        [[smallFragment 20]] [[smallFragment 21]] deepItem.ids ∧
      packet.length = 73 ∧ (packet.data (73 + 255)).isSome = true) ∧
    ¬ deepItem.MulticastSurvives sampleConf false := by
  have beyond : ((requestForPublishers sampleConf false deepItem.strategy [[smallFragment 20]]
      [[smallFragment 21]] deepItem.ids).data (73 + 255)).isSome = true := by decide +kernel
  have length : (requestForPublishers sampleConf false deepItem.strategy [[smallFragment 20]]
      [[smallFragment 21]] deepItem.ids).length = 73 := by decide +kernel
  refine ⟨by decide +kernel, ⟨_, rfl, length, beyond⟩, fun survives => ?_⟩
  have hi := (survives.1 (73 + 255)).mp beyond
  rw [show (requestForPublishers sampleConf false deepItem.strategy
    (deepItem.publishers.map fun node => [node]) (deepItem.subscribers.map fun node => [node])
    deepItem.ids).length = 73 from length] at hi
  omega

end Blackadder.Wire
