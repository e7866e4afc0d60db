import Blackadder.Proxy.Handlers
import Blackadder.Wire.Notifications

namespace Blackadder.Proxy

open GlobalConf Vector List View

open Wire (Buffer Fid bytes fidLen nodeIDLen pursuitIDLen idBytes idFields castLength readNetworkIDs
  putIDFields)

/-- What the two kinds of data packets have in common, and where it ends. -/
def putNetworkHeader (ids : List ID) (type : MessageType) (fid : Fid) : Memory × Nat :=
  let numberOfIDs := UInt8.ofNat ids.length
  let data := Memory.blank.memcpy 0 fid.toList
  let data := data.memcpy fidLen [numberOfIDs]
  let (data, index) := putIDFields (fidLen + 1) (ids.take numberOfIDs.toNat) data 0
  (data.memcpy (fidLen + 1 + index) [type.code], fidLen + 1 + index + 1)

/-- The packet of `pushDataToRemoteSubscribers`. For another type it has never been set. -/
def writePublication (gc : GlobalConf) (ids : List ID) (type : MessageType) (fid : Fid)
    (payload : List UInt8) : Option Wire.Packet :=
  let numberOfIDs := UInt8.ofNat ids.length
  let totalIDsLength := idBytes ids
  let (data, index) := putNetworkHeader ids type fid
  match type with
  | .publishData =>
    some
      { length := fidLen + 1 + numberOfIDs.toNat * 1 + totalIDsLength + 1 + payload.length
        data := data.memcpy index payload }
  | .publishDataISub =>
    some
      { length := fidLen + 1 + numberOfIDs.toNat * 1 + totalIDsLength + 1 + nodeIDLen
          + payload.length
        data := (data.memcpy index gc.nodeID.toList).memcpy (index + nodeIDLen) payload }
  | _ => none

/-- `data` is what the proxy hands on, and `extent` the end of what it has looked at itself. -/
structure Publication where
  ids : List ID
  type : UInt8
  sender : Option NodeID
  data : Buffer
  extent : Nat

/-- `push` on port 2 up to what it does with the publication, or with a control packet. -/
def readPublication (buffer : Buffer) : Option Publication :=
  let (ids, offset) := readNetworkIDs buffer.data
  let rest := buffer.pull offset
  if ids = [GlobalConf.controlReliabilityScope] then none
  else
    let type := rest.data 0
    if type = MessageType.publishData.code then
      some ⟨ids, type, none, rest.pull 1, offset + 1⟩
    else if type = MessageType.publishDataISub.code then
      some ⟨ids, type, some (Wire.idAt (rest.pull 1).data 0 1), rest.pull 1,
        offset + 1 + nodeIDLen⟩
    else
      some ⟨ids, type, none, rest, offset + 1⟩

/-- What comes behind the sender, if the packet names one. -/
def Publication.payload (found : Publication) : List UInt8 :=
  match found.sender with
  | none => found.data.contents
  | some _ => (found.data.pull nodeIDLen).contents

/-- `push` on port 2 from the type on. -/
def handlePublication [IterationOrder] (gc : GlobalConf) (found : Publication) (p : Packet) :
    LP Unit := do
  match found.sender with
  | some nodeID =>
    let forward ← storeActiveNode nodeID found.ids
    if forward then publishiReqToRV (HashSet.insertAll ∅ [nodeID])
    handleNetworkPublication found.ids p .publishedDataISub
  | none =>
    if found.type = MessageType.publishData.code then
      if found.ids = [gc.notificationIID] then
        handleRVNotification p
        kill p
      else if found.ids = [GlobalConf.pathMgmtIID] then
        processTMNotification p
      else
        handleNetworkPublication found.ids p .publishedData
    else
      handleNetworkPublication found.ids p .publishedData

theorem ids_of_readPublication {buf : Buffer} {found : Publication}
    (read : readPublication buf = some found) : found.ids = (readNetworkIDs buf.data).1 ∧
      found.ids ≠ [controlReliabilityScope] := by
  unfold readPublication at read
  by_cases control : (readNetworkIDs buf.data).1 = [controlReliabilityScope]
  · simp only [control] at read
    cases read
  simp only [control, if_false] at read
  split at read
  · cases read
    exact ⟨rfl, control⟩
  · split at read <;> cases read <;> exact ⟨rfl, control⟩

theorem pushFromNetwork_eq [IterationOrder] (p : Packet) : pushFromNetwork p = (do
      look p
      let gc ← Program.read (·.gc)
      match readPublication p.toBuffer with
      | none => handleControlReliabilityNotification (p.pull (readNetworkIDs p.data).2)
      | some found => handlePublication gc found { p with toBuffer := found.data }) := by
  unfold pushFromNetwork readPublication
  obtain ⟨ids, off⟩ := readNetworkIDs p.data
  refine congrArg (look p >>= ·) (funext fun _ => ?_)
  by_cases control : ids = [controlReliabilityScope]
  · simp [control]
  simp only [control, Packet.pull]
  by_cases isData : (p.toBuffer.pull off).data 0 = MessageType.publishData.code
  · simp [handlePublication, isData]
  by_cases isISub : (p.toBuffer.pull off).data 0 = MessageType.publishDataISub.code
  · simp [handlePublication, isISub,
      show MessageType.publishDataISub.code ≠ MessageType.publishData.code by decide]
  · simp [handlePublication, isData, isISub]

/-- A publication for remote subscribers: at most 255 identifiers of 1 to 255 fragments. -/
structure DataPacket where
  ids : List ID
  type : MessageType
  fid : Fid
  payload : List UInt8
  few : ids.length ≤ 255
  sized : ∀ id ∈ ids, 1 ≤ id.length ∧ id.length ≤ 255
  typed : type = .publishData ∨ type = .publishDataISub

namespace DataPacket

variable (gc : GlobalConf) (d : DataPacket)

/-- Only an implicit subscription names the node that it comes from. -/
def sender : Option Fragment := if d.type = .publishDataISub then some gc.nodeID else none

/-- What stands behind the type. -/
def tail : List UInt8 := ((d.sender gc).map Vector.toList).getD [] ++ d.payload

/-- The bytes of the packet behind the forwarding identifier. -/
def body : List UInt8 :=
  UInt8.ofNat d.ids.length :: idFields castLength d.ids ++ (d.type.code :: d.tail gc)

/-- The proxy finds in the packet what was put there, and does not look beyond its end. -/
structure FoundIn (found : Publication) (length : Nat) : Prop where
  ids : found.ids = d.ids
  type : found.type = d.type.code
  sender : found.sender = (d.sender gc).map fun node => [node]
  payload : found.payload = d.payload
  inside : found.extent ≤ length

/-- The packet is written to its end and not beyond, and a proxy finds the publication in it. -/
def Survives : Prop :=
  ∃ packet, writePublication gc d.ids d.type d.fid d.payload = some packet ∧
    packet.data.Filled packet.length ∧
    ∀ view, packet.Delivers fidLen view →
      ∃ found, readPublication ⟨packet.length - fidLen, view⟩ = some found ∧
        d.FoundIn gc found (packet.length - fidLen)

end DataPacket

theorem putNetworkHeader_holds {ids : List ID} (few : ids.length ≤ 255) (type : MessageType)
    (fid : Fid) {hdr : List UInt8} (content : hdr = fid.toList ++
      (UInt8.ofNat ids.length :: idFields castLength ids ++ [type.code])) :
    (putNetworkHeader ids type fid).1.Holds hdr ∧
      (putNetworkHeader ids type fid).2 = hdr.length := by
  subst content
  have count := (Memory.holds_blank.memcpy (show 0 = _ from rfl) fid.toList).memcpy
    (show fidLen = _ by simp [fidLen]) [UInt8.ofNat ids.length]
  obtain ⟨fields, idx⟩ :=
    Wire.putIDFields_holds count (show fidLen + 1 + 0 = _ by simp [fidLen]) ids
  have all := fields.memcpy idx [type.code]
  simp only [putNetworkHeader, Wire.toNat_count few, take_length]
  refine ⟨?_, ?_⟩
  · simpa using all
  · rw [idx]
    simp
    omega

namespace DataPacket

variable (gc : GlobalConf) (d : DataPacket)

/-- A packet has room for exactly what is put into it. -/
theorem writePublication_holds : ∃ pkt,
    writePublication gc d.ids d.type d.fid d.payload = some pkt ∧
      pkt.data.Holds (d.fid.toList ++ d.body gc) ∧
      pkt.length = (d.fid.toList ++ d.body gc).length := by
  obtain ⟨hh, idx⟩ := putNetworkHeader_holds d.few d.type d.fid rfl
  have count := Wire.toNat_count d.few
  have fields : (idFields castLength d.ids).length = d.ids.length + idBytes d.ids :=
    Wire.length_idFields d.ids
  have len : (d.fid.toList ++ d.body gc).length =
      fidLen + 1 + d.ids.length + idBytes d.ids + 1 + (d.tail gc).length := by
    simp [body, fidLen]
    omega
  rcases d.typed with isData | isISub
  · have tail : d.tail gc = d.payload := by simp [tail, sender, isData]
    have all := hh.memcpy idx d.payload
    refine ⟨⟨_, _⟩, by rw [writePublication, isData], ?_, ?_⟩
    · rw [isData] at all
      simpa [body, tail, isData] using all
    · rw [len, tail, count, Nat.mul_one]
  · have tail : d.tail gc = gc.nodeID.toList ++ d.payload := by simp [tail, sender, isISub]
    have hn := hh.memcpy idx gc.nodeID.toList
    have all := hn.memcpy (show (putNetworkHeader d.ids d.type d.fid).2 + nodeIDLen = _ by
      rw [idx]; simp [nodeIDLen]; omega) d.payload
    refine ⟨⟨_, _⟩, by rw [writePublication, isISub], ?_, ?_⟩
    · rw [isISub] at all
      simpa [body, tail, isISub] using all
    · rw [len, tail, count, length_append, length_toList, Nat.mul_one, ← Nat.add_assoc]
      rfl

variable {gc} {d} {view : View}

theorem shows_body (hs : view.Shows 0 (d.body gc)) :
    view.Shows 0 (UInt8.ofNat d.ids.length :: idFields castLength d.ids) ∧
      view (1 + (idFields castLength d.ids).length) = d.type.code ∧
      view.Shows (1 + (idFields castLength d.ids).length + 1) (d.tail gc) := by
  obtain ⟨hdr, rest⟩ := shows_append.mp hs
  rw [length_cons, Nat.zero_add, Nat.add_comm _ 1, shows_cons] at rest
  exact ⟨hdr, rest⟩

theorem readPublication_of_shows (short : ∀ id ∈ d.ids, id.length < 32)
    (regular : d.ids ≠ [controlReliabilityScope]) (hs : view.Shows 0 (d.body gc)) :
    ∃ found, readPublication ⟨(d.body gc).length, view⟩ = some found ∧
      d.FoundIn gc found (d.body gc).length := by
  obtain ⟨hdr, type, rest⟩ := shows_body hs
  have ids := Wire.readNetworkIDs_of_shows d.few
    (fun id hm => (Wire.castLength_true_iff id).mpr (short id hm)) hdr
  have len : (d.body gc).length =
      1 + (idFields castLength d.ids).length + 1 + (d.tail gc).length := by
    simp [body]
    omega
  -- the buffer from behind the type on
  have behind : ∀ {n}, (d.tail gc).length = n + d.payload.length →
      view.Shows (1 + (idFields castLength d.ids).length + 1 + n) d.payload →
      (Buffer.pull ⟨(d.body gc).length, view⟩
        (1 + (idFields castLength d.ids).length + 1 + n)).contents = d.payload := by
    intro n size content
    rw [Buffer.contents_pull]
    rw [show (d.body gc).length - _ = d.payload.length by rw [len]; omega]
    exact read_of_shows content
  have found : (Buffer.pull ⟨(d.body gc).length, view⟩
      (1 + (idFields castLength d.ids).length)).data 0 = d.type.code := type
  unfold readPublication
  simp only [ids, regular]
  rw [found]
  rcases d.typed with isData | isISub
  · have tail : d.tail gc = d.payload := by simp [tail, sender, isData]
    rw [tail] at rest
    refine ⟨_, by rw [isData]; rfl, rfl, by rw [isData], by simp [sender, isData], ?_, ?_⟩
    · rw [Buffer.pull_pull]
      exact behind (n := 0) (by rw [tail, Nat.zero_add]) rest
    · rw [len]
      exact Nat.le_add_right _ _
  · have tail : d.tail gc = gc.nodeID.toList ++ d.payload := by simp [tail, sender, isISub]
    have size : (d.tail gc).length = nodeIDLen + d.payload.length := by
      rw [tail, length_append, length_toList, nodeIDLen]
    rw [tail, shows_append, length_toList] at rest
    refine ⟨_, by rw [isISub]; rfl, rfl, by rw [isISub], ?_, ?_, ?_⟩
    · have node : Wire.idAt view (1 + (idFields castLength d.ids).length + 1)
          [gc.nodeID].length = [gc.nodeID] := Wire.idAt_of_shows (by simpa [bytes] using rest.1)
      simp only [sender, isISub, Buffer.pull_pull]
      exact congrArg some node
    · rw [Publication.payload, Buffer.pull_pull, Buffer.pull_pull]
      exact behind size rest.2
    · rw [len, size, ← Nat.add_assoc]
      exact Nat.le_add_right _ _

end DataPacket

/-- A data packet survives the network exactly if the cast does not cut the length of an identifier,
and it is not taken for a report of the control reliability element. -/
theorem data_packet_survives_iff (gc : GlobalConf) (d : DataPacket) : d.Survives gc ↔
      (∀ id ∈ d.ids, id.length < 32) ∧ d.ids ≠ [GlobalConf.controlReliabilityScope] := by
  obtain ⟨pkt, written, hh, len⟩ := d.writePublication_holds gc
  have front : fidLen = d.fid.toList.length := length_toList.symm
  have delivers := pkt.delivers_iff hh len
  have size : pkt.length - fidLen = (d.body gc).length := by
    rw [len, front, length_append, Nat.add_sub_cancel_left]
  constructor
  · rintro ⟨pkt', written', -, ha⟩
    cases written.symm.trans written'
    have hs := Buffer.shows_ofBytes (d.body gc)
    obtain ⟨found, read, same⟩ := ha _ (by rw [front]; exact (delivers _).mpr hs)
    obtain ⟨ids, regular⟩ := ids_of_readPublication read
    rw [same.ids] at ids regular
    refine ⟨fun id hm => (Wire.castLength_true_iff id).mp ?_, regular⟩
    exact Wire.lengths_of_readNetworkIDs d.few (DataPacket.shows_body hs).1 ids.symm id hm
  · rintro ⟨short, regular⟩
    refine ⟨pkt, written, hh.filled_iff.mpr len, fun view hd => ?_⟩
    rw [front] at hd
    rw [size]
    exact DataPacket.readPublication_of_shows short regular ((delivers view).mp hd)

/-- A publication under one identifier, of 32 fragments. -/
def deepPublication : DataPacket where
  ids := [List.replicate 32 (smallFragment 11)]
  type := .publishData
  fid := Vector.replicate 32 1
  payload := [1, 2, 3]
  few := Wire.deepItem.fewIDs
  sized := by decide
  typed := .inl rfl

/-- The identifier comes with the length zero: its first byte is taken for the type. -/
theorem deepPublication_misread : ∃ (gc : GlobalConf) (packet : Wire.Packet) (view : View),
      writePublication gc deepPublication.ids deepPublication.type deepPublication.fid
        deepPublication.payload = some packet ∧ packet.Delivers fidLen view ∧
      (readPublication ⟨packet.length - fidLen, view⟩).map
        (fun found => (found.ids, found.type, found.data.length)) = some ([[]], 0, 260) ∧
      ¬ deepPublication.Survives gc := by
  let gc : GlobalConf :=
    { nodeID := smallFragment 8, isRV := false, defaultRV := none, tmFid := none, status := 0 }
  obtain ⟨packet, written, hh, len⟩ := deepPublication.writePublication_holds gc
  have size : packet.length - fidLen = (deepPublication.body gc).length := by
    rw [len, length_append]
    exact Nat.add_sub_cancel_left _ _
  have hs := Buffer.shows_ofBytes (deepPublication.body gc)
  refine ⟨gc, packet, _, written, (packet.delivers_iff hh len _).mpr hs, ?_, ?_⟩
  · rw [size]
    decide +kernel
  rintro ⟨packet', written', -, ha⟩
  cases written.symm.trans written'
  obtain ⟨found, read, same⟩ := ha _ ((packet.delivers_iff hh len _).mpr hs)
  have ids := same.ids.symm.trans (ids_of_readPublication read).1
  have misread : (readNetworkIDs (Buffer.ofBytes (deepPublication.body gc)).data).1 = [[]] := by
    decide +kernel
  cases ids.trans misread

end Blackadder.Proxy
