import Blackadder.Library.LittleEndian

/-!
The packets of the lightweight transport protocol. Fields are copied as a little-endian host has
them in memory, so the bytes of the enumerations and numbers follow each other without padding.
-/

namespace Blackadder.Ltp

open List LittleEndian

/-- `cid_t`: identifiers are known by their hash. -/
abbrev Cid : Type := UInt32

abbrev Enigma : Type := UInt32

abbrev SessionKey : Type := UInt16

abbrev Nid : Type := UInt32

abbrev Seq : Type := UInt16

/-- `ltp_hdr_data_t`. -/
structure DataHeader where
  enigma : Enigma
  sessionKey : SessionKey
  sequenceNumber : Seq
  payloadLength : UInt16
deriving DecidableEq

/-- The messages with `LTP_CONTROL`, in the order of their numbers. -/
inductive Control
  | nack (enigma : Enigma) (sessionKey : SessionKey) (start finish : Seq)
  | reset
  | resetted
  | sessionEnd (enigma : Enigma) (sessionKey : SessionKey)
  | sessionEnded (enigma : Enigma) (sessionKey : SessionKey)
  | windowEnd (enigma : Enigma) (sessionKey : SessionKey) (sequenceNumber : Seq)
  | windowEnded (enigma : Enigma) (sessionKey : SessionKey)
  | windowUpdate (enigma : Enigma) (sessionKey : SessionKey)
  | windowUpdated (enigma : Enigma) (sessionKey : SessionKey)
deriving DecidableEq

/-- What `handle` finds in the first bytes of a packet. -/
inductive Message
  | data (header : DataHeader) (payload : List UInt8)
  | control (message : Control)
  | unknown
deriving DecidableEq

/-- The side that reads: a cNAP what an sNAP has sent, an sNAP what a cNAP has sent. -/
inductive Side
  | cNap
  | sNap
deriving DecidableEq

def word16 (value : UInt16) : List UInt8 := LittleEndian.encode 2 value.toNat

def word32 (value : UInt32) : List UInt8 := LittleEndian.encode 4 value.toNat

def read16 (offset : Nat) (packet : List UInt8) : UInt16 :=
  UInt16.ofNat (LittleEndian.decode ((packet.drop offset).take 2))

def read32 (offset : Nat) (packet : List UInt8) : UInt32 :=
  UInt32.ofNat (LittleEndian.decode ((packet.drop offset).take 4))

/-- The fields of a data header in front of the fragment. -/
def DataHeader.bytes (header : DataHeader) : List UInt8 :=
  word32 0 ++ (word32 header.enigma ++ (word16 header.sessionKey ++
    (word16 header.sequenceNumber ++ word16 header.payloadLength)))

/-- The enigma and session key behind the two types. -/
def sessionBytes (controlType : UInt32) (enigma : Enigma) (sessionKey : SessionKey) : List UInt8 :=
  word32 1 ++ (word32 controlType ++ (word32 enigma ++ word16 sessionKey))

def Control.bytes : Control → List UInt8
  | nack enigma sessionKey start finish =>
    sessionBytes 0 enigma sessionKey ++ (word16 start ++ word16 finish)
  | reset => word32 1 ++ word32 1
  | resetted => word32 1 ++ word32 2
  | sessionEnd enigma sessionKey => sessionBytes 3 enigma sessionKey
  | sessionEnded enigma sessionKey => sessionBytes 4 enigma sessionKey
  | windowEnd enigma sessionKey sequenceNumber =>
    sessionBytes 5 enigma sessionKey ++ word16 sequenceNumber
  | windowEnded enigma sessionKey => sessionBytes 6 enigma sessionKey
  | windowUpdate enigma sessionKey => sessionBytes 7 enigma sessionKey
  | windowUpdated enigma sessionKey => sessionBytes 8 enigma sessionKey

/-- The cases of the two `_handleControl`, from what stands in front of the last fields and behind
them. A field that a side does not read is zero. -/
def controlOf (side : Side) (controlType : UInt32) (enigma : Enigma) (sessionKey : SessionKey)
    (packet : List UInt8) : Message :=
  match side, controlType with
  | _, 0 => .control (.nack enigma sessionKey (read16 0 packet) (read16 2 packet))
  | .cNap, 1 => .unknown
  | .sNap, 1 => .control .reset
  | _, 2 => .control .resetted
  | .cNap, 3 => .control (.sessionEnd enigma sessionKey)
  | .sNap, 3 => .control (.sessionEnd 0 sessionKey)
  | .cNap, 4 => .control (.sessionEnded 0 sessionKey)
  | .sNap, 4 => .control (.sessionEnded enigma sessionKey)
  | _, 5 => .control (.windowEnd enigma sessionKey (read16 0 packet))
  | _, 6 => .control (.windowEnded enigma sessionKey)
  | _, 7 => .control (.windowUpdate enigma sessionKey)
  | .cNap, 8 => .control (.windowUpdated enigma 0)
  | .sNap, 8 => .control (.windowUpdated enigma sessionKey)
  | _, _ => .unknown

def readControl (side : Side) (packet : List UInt8) : Message :=
  controlOf side (read32 4 packet) (read32 8 packet) (read16 12 packet) (packet.drop 14)

def readDataHeader (packet : List UInt8) : DataHeader :=
  ⟨read32 4 packet, read16 8 packet, read16 10 packet, read16 12 packet⟩

/-- The payload is taken as long as the header says, if the packet has as many bytes. -/
def readPayload (packet : List UInt8) : List UInt8 :=
  (packet.drop 14).take (readDataHeader packet).payloadLength.toNat

def readMessage (side : Side) (packet : List UInt8) : Message :=
  match read32 0 packet with
  | 0 => .data (readDataHeader packet) (readPayload packet)
  | 1 => readControl side packet
  | _ => .unknown

section

variable {off : Nat} {before : List UInt8}

theorem length_word16 (val : UInt16) : (word16 val).length = 2 :=
  length_encode 2 _

theorem length_word32 (val : UInt32) : (word32 val).length = 4 :=
  length_encode 4 _

theorem read16_word16 (val : UInt16) (rest : List UInt8) : read16 0 (word16 val ++ rest) = val := by
  rw [read16, drop_zero, take_left' (length_word16 val), word16,
    decode_encode, Nat.mod_eq_of_lt (show val.toNat < 256 ^ 2 from val.toNat_lt),
    UInt16.ofNat_toNat]

theorem read32_word32 (val : UInt32) (rest : List UInt8) : read32 0 (word32 val ++ rest) = val := by
  rw [read32, drop_zero, take_left' (length_word32 val), word32,
    decode_encode, Nat.mod_eq_of_lt (show val.toNat < 256 ^ 4 from val.toNat_lt),
    UInt32.ofNat_toNat]

theorem read16_skip (len : before.length = off) (more : Nat) (pkt : List UInt8) :
    read16 (more + off) (before ++ pkt) = read16 more pkt := by
  rw [read16, Nat.add_comm, ← drop_drop, drop_left' len, read16]

theorem read32_skip (len : before.length = off) (more : Nat) (pkt : List UInt8) :
    read32 (more + off) (before ++ pkt) = read32 more pkt := by
  rw [read32, Nat.add_comm, ← drop_drop, drop_left' len, read32]

end

open DataHeader

theorem DataHeader.length_bytes (hdr : DataHeader) : hdr.bytes.length = 14 := by
  simp [bytes, length_word16, length_word32]

section

variable (header : DataHeader) (frag : List UInt8)

theorem readDataHeader_bytes : readDataHeader (header.bytes ++ frag) = header := by
  simp only [readDataHeader, bytes, append_assoc]
  rw [read32_skip (length_word32 _) 0, read16_skip (length_word32 _) 4,
    read16_skip (length_word32 _) 6, read16_skip (length_word32 _) 8,
    read16_skip (length_word32 _) 0, read16_skip (length_word32 _) 2,
    read16_skip (length_word32 _) 4, read16_skip (length_word16 _) 0,
    read16_skip (length_word16 _) 2, read16_skip (length_word16 _) 0,
    read32_word32, read16_word16, read16_word16, read16_word16]

theorem readPayload_bytes :
    readPayload (header.bytes ++ frag) = frag.take header.payloadLength.toNat := by
  rw [readPayload, readDataHeader_bytes, drop_left' header.length_bytes]

/-- A fragment with padding behind its payload is read as it was written. -/
theorem readMessage_data (side : Side) (whole : header.payloadLength.toNat ≤ frag.length) :
    ∃ payload padding, frag = payload ++ padding ∧
      payload.length = header.payloadLength.toNat ∧
      readMessage side (header.bytes ++ frag) = .data header payload := by
  refine ⟨frag.take header.payloadLength.toNat, frag.drop header.payloadLength.toNat,
    (take_append_drop _ _).symm, length_take_of_le whole, ?_⟩
  have type : read32 0 (header.bytes ++ frag) = 0 := by
    rw [bytes, append_assoc, read32_word32]
  rw [readMessage, ← readPayload_bytes]
  exact congrArg (Message.data · _) (readDataHeader_bytes header frag)

theorem readMessage_data_padded : ∃ payload padding, [5, 6, 7, 0] = payload ++ padding ∧
    payload.length = (⟨2, 4, 1, 3⟩ : DataHeader).payloadLength.toNat ∧
    readMessage .sNap ((⟨2, 4, 1, 3⟩ : DataHeader).bytes ++ [5, 6, 7, 0]) =
      .data ⟨2, 4, 1, 3⟩ payload :=
  readMessage_data ⟨2, 4, 1, 3⟩ [5, 6, 7, 0] .sNap (by decide)

end

section

variable (controlType : UInt32) (enigma : Enigma) (sessionKey : SessionKey) (rest : List UInt8)

theorem length_sessionBytes : (sessionBytes controlType enigma sessionKey).length = 14 := by
  simp [sessionBytes, length_word16, length_word32]

variable (side : Side)

theorem readMessage_ctrl :
    readMessage side (word32 1 ++ rest) = readControl side (word32 1 ++ rest) := by
  rfl

/-- The session of a control message is read as it is written. -/
theorem readMessage_session : readMessage side
    (sessionBytes controlType enigma sessionKey ++ rest) =
    controlOf side controlType enigma sessionKey rest := by
  have behind : (sessionBytes controlType enigma sessionKey ++ rest).drop 14 = rest :=
    drop_left' (length_sessionBytes controlType enigma sessionKey)
  have read : readMessage side (sessionBytes controlType enigma sessionKey ++ rest) =
      readControl side (sessionBytes controlType enigma sessionKey ++ rest) := by
    rw [sessionBytes, append_assoc, readMessage_ctrl]
  rw [read, readControl, behind]
  simp only [sessionBytes, append_assoc]
  rw [read32_skip (length_word32 _) 0, read32_skip (length_word32 _) 4,
    read16_skip (length_word32 _) 8, read32_skip (length_word32 _) 0,
    read16_skip (length_word32 _) 4, read16_skip (length_word32 _) 0,
    read32_word32, read32_word32, read16_word16]

/-- What a side makes of a message: all of it but for a few fields, which it does not read, and a
reset only if it is an sNAP. -/
def Control.seenBy : Side → Control → Message
  | .cNap, reset => .unknown
  | .cNap, sessionEnded _ sessionKey => .control (sessionEnded 0 sessionKey)
  | .cNap, windowUpdated enigma _ => .control (windowUpdated enigma 0)
  | .sNap, sessionEnd _ sessionKey => .control (sessionEnd 0 sessionKey)
  | _, message => .control message

/-- Each side reads a control packet as it sees it, whatever follows. -/
theorem readMessage_control (msg : Control) :
    readMessage side (msg.bytes ++ rest) = msg.seenBy side := by
  cases msg with
  | nack _ _ start finish =>
    have last : read16 2 (word16 start ++ (word16 finish ++ rest)) = finish := by
      rw [read16_skip (length_word16 _) 0, read16_word16]
    rw [Control.bytes, append_assoc, readMessage_session, append_assoc]
    cases side <;> simp only [controlOf, Control.seenBy, read16_word16, last]
  | reset | resetted => cases side <;> rfl
  | windowEnd =>
    rw [Control.bytes, append_assoc, readMessage_session]
    cases side <;> simp only [controlOf, Control.seenBy, read16_word16]
  | sessionEnd enigma sessionKey | sessionEnded enigma sessionKey | windowEnded enigma sessionKey
  | windowUpdate enigma sessionKey | windowUpdated enigma sessionKey =>
    rw [Control.bytes, readMessage_session]
    cases side <;> rfl

end

end Blackadder.Ltp
