import Blackadder.Library.NestedMap
import Blackadder.Ltp.Wire
import Mathlib.Data.UInt

/-!
The packet buffers of the transport: fragments from the network by node and session, and the packets
that were published and may be asked for again.
-/

namespace Blackadder.Ltp

open Std (TreeMap)
open NestedMap

/-- A pointer with the size that goes with it. -/
structure Stored where
  bytes : List UInt8
  size : UInt16
deriving DecidableEq

/-- The fragments of a session by their sequence numbers. -/
abbrev Fragments : Type := TreeMap Seq Stored

abbrev IcnPacketBuffer : Type :=
  TreeMap Cid (TreeMap Enigma (TreeMap Nid (TreeMap SessionKey Fragments)))

/-- The maps with an entry for each session of an rCID. -/
abbrev PerSession (υ : Type) : Type := TreeMap Cid (TreeMap Enigma (TreeMap SessionKey υ))

/-- A session as one endpoint of it is known to the other. -/
structure Session where
  rCid : Cid
  enigma : Enigma
  nid : Nid
  sessionKey : SessionKey
deriving DecidableEq

theorem Session.eq_iff {session other : Session} : other = session ↔
    other.rCid = session.rCid ∧ other.enigma = session.enigma ∧ other.nid = session.nid ∧
      other.sessionKey = session.sessionKey := by
  exact iff_of_eq (Session.mk.injEq ..)

namespace IcnPacketBuffer

/-- A fragment that is already there stays if it is as long as the new one. -/
def addFragment (sequenceNumber : Seq) (stored : Stored) (fragments : Fragments) : Fragments :=
  match fragments[sequenceNumber]? with
  | some old =>
    if old.size = stored.size then fragments
    else (fragments.erase sequenceNumber).insert sequenceNumber stored
  | none => fragments.insert sequenceNumber stored

variable (rCid : Cid) (nid : Nid) (session : Session) (buffer : IcnPacketBuffer)

def bufferIcnPacket (header : DataHeader) (payload : List UInt8)
    (buffer : IcnPacketBuffer) : IcnPacketBuffer :=
  let stored : Stored := ⟨payload, header.payloadLength⟩
  let sequenceMap := single header.sequenceNumber stored
  let sessionKeyMap := single header.sessionKey sequenceMap
  let nodeIdMap := single nid sessionKeyMap
  let enigmaMap := single header.enigma nodeIdMap
  within rCid enigmaMap
    (within header.enigma nodeIdMap
      (within nid sessionKeyMap
        (within header.sessionKey sequenceMap
          (addFragment header.sequenceNumber stored)))) buffer

/-- `_handleData`, up to the groups that the sNAP keeps. -/
def handleData (packet : List UInt8) :
    IcnPacketBuffer :=
  buffer.bufferIcnPacket rCid nid (readDataHeader packet) (readPayload packet)

def deleteBufferedIcnPacket : IcnPacketBuffer :=
  (prune session.rCid (prune session.enigma (prune session.nid (cut session.sessionKey)))
    buffer).getD buffer

/-- The fragments that are found under all four keys. -/
def fragments (session : Session) : Option Fragments := do
  let enigmaMap ← buffer[session.rCid]?
  let nodeIdMap ← enigmaMap[session.enigma]?
  let sessionKeyMap ← nodeIdMap[session.nid]?
  sessionKeyMap[session.sessionKey]?

/-- All fragments one behind the other, with the sum of their sizes. -/
def assemble (fragments : Fragments) : List UInt8 × UInt16 :=
  (fragments.toList.flatMap fun entry => entry.2.bytes,
    (fragments.toList.map fun entry => entry.2.size).sum)

def retrieveIcnPacket :
    Option (List UInt8 × UInt16) × IcnPacketBuffer :=
  match buffer.fragments session with
  | none => (none, buffer)
  | some found => (some (assemble found), buffer.deleteBufferedIcnPacket session)

section

variable (buf : IcnPacketBuffer) (session : Session)

theorem getElem?_addFragment (seqNo other : Seq) (stored : Stored)
    (frags : Fragments) : (addFragment seqNo stored frags)[other]? =
      if other = seqNo then some (frags[seqNo]?.elim stored fun old =>
          if old.size = stored.size then old else stored) else frags[other]? := by
  unfold addFragment
  by_cases same : other = seqNo
  · subst same
    cases hf : frags[other]? with
    | none => simp
    | some old =>
      by_cases sized : old.size = stored.size
      · simp [sized, hf]
      · simp [sized]
  · cases hf : frags[seqNo]? with
    | none => simp [getElem?_insert]
    | some old =>
      by_cases sized : old.size = stored.size
      · simp [sized, same]
      · simp [sized, same, getElem?_insert, getElem?_erase]

theorem fragments_bufferIcnPacket (rCid : Cid) (nid : Nid) (hdr : DataHeader)
    (payload : List UInt8) : (buf.bufferIcnPacket rCid nid hdr payload).fragments session =
      if session = ⟨rCid, hdr.enigma, nid, hdr.sessionKey⟩ then
        some ((buf.fragments session).elim
          (single hdr.sequenceNumber ⟨payload, hdr.payloadLength⟩)
          (addFragment hdr.sequenceNumber ⟨payload, hdr.payloadLength⟩))
      else buf.fragments session := by
  let hs : Stored := ⟨payload, hdr.payloadLength⟩
  have leaf := puts_within hdr.sessionKey session.sessionKey
    (single hdr.sequenceNumber hs) (addFragment hdr.sequenceNumber hs)
  have seen := (((leaf.level nid session.nid).level hdr.enigma session.enigma).level rCid
    session.rCid).old buf
  simp only [Session.eq_iff]
  exact seen

theorem fragments_deleteBufferedIcnPacket (other : Session) :
    (buf.deleteBufferedIcnPacket session).fragments other =
      if other = session then none else buf.fragments other := by
  have leaf : Takes (fun map : TreeMap SessionKey Fragments => map[other.sessionKey]?) _ _ :=
    takes_cut session.sessionKey other.sessionKey
  have takes := ((leaf.level session.nid other.nid).level session.enigma other.enigma).level
    session.rCid other.rCid
  simp only [Session.eq_iff, deleteBufferedIcnPacket]
  cases taken : prune session.rCid (prune session.enigma (prune session.nid
      (cut session.sessionKey))) buf with
  | some rest => exact takes.hit buf rest taken
  | none =>
    split
    · rename_i same
      exact takes.miss buf taken same
    · rfl

end

end IcnPacketBuffer

open UInt16

/-- A session as its publisher knows it. -/
structure Channel where
  rCid : Cid
  enigma : Enigma
  sessionKey : SessionKey
deriving DecidableEq

open Channel

theorem Channel.eq_iff {chan other : Channel} : other = chan ↔
    other.rCid = chan.rCid ∧ other.enigma = chan.enigma ∧
      other.sessionKey = chan.sessionKey := by
  exact iff_of_eq (mk.injEq ..)

namespace PerSession

variable {υ : Type}

/-- The value that is found under all three keys. -/
def entry (map : PerSession υ) (channel : Channel) : Option υ := do
  let enigmaMap ← map[channel.rCid]?
  let sessionKeyMap ← enigmaMap[channel.enigma]?
  sessionKeyMap[channel.sessionKey]?

variable (channel : Channel) (first : υ) (change : υ → υ) (map : PerSession υ)

/-- Changes the value of a session, or gives a new session its first one. -/
def put : PerSession υ :=
  let sessionKeyMap := single channel.sessionKey first
  let enigmaMap := single channel.enigma sessionKeyMap
  within channel.rCid enigmaMap
    (within channel.enigma sessionKeyMap (within channel.sessionKey first change)) map

/-- Changes the value of a session that is there. -/
def modify : PerSession υ :=
  adjust channel.rCid (adjust channel.enigma (adjust channel.sessionKey change)) map

/-- Takes a session out, with the levels that are empty without it. -/
def remove : PerSession υ :=
  (prune channel.rCid (prune channel.enigma (cut channel.sessionKey)) map).getD map

variable (map : PerSession υ) (chan other : Channel)

theorem entry_put (first : υ) (change : υ → υ) : (map.put chan first change).entry other =
    if other = chan then some ((map.entry other).elim first change) else map.entry other := by
  have leaf := puts_within chan.sessionKey other.sessionKey first change
  have hs := ((leaf.level chan.enigma other.enigma).level chan.rCid other.rCid).old map
  simp only [eq_iff]
  exact hs

theorem entry_modify (change : υ → υ) : (map.modify chan change).entry other =
    if other = chan then (map.entry other).map change else map.entry other := by
  have leaf := changes_adjust chan.sessionKey other.sessionKey change
  have hs := ((leaf.level chan.enigma other.enigma).level chan.rCid other.rCid).seen map
  simp only [eq_iff]
  exact hs

theorem entry_remove : (map.remove chan).entry other =
    if other = chan then none else map.entry other := by
  have leaf : Takes (fun map : TreeMap SessionKey υ => map[other.sessionKey]?) _ _ :=
    takes_cut chan.sessionKey other.sessionKey
  have takes := (leaf.level chan.enigma other.enigma).level chan.rCid other.rCid
  simp only [eq_iff]
  exact takes.taken map

end PerSession

/-- Packets with their bytes, by sequence number. -/
abbrev Packets : Type := TreeMap Seq (List UInt8)

/-- `ltp_packet_buffer_t` and `proxy_packet_buffer_t`. -/
abbrev SentPackets : Type := PerSession Packets

namespace SentPackets

variable (channel : Channel) (sequenceNumber : Seq) (packet : List UInt8) (buffer : SentPackets)

/-- A packet whose number is already there is not stored. -/
def bufferLtpPacket : SentPackets :=
  buffer.put channel (single sequenceNumber packet) fun packets =>
    if packets.contains sequenceNumber then packets else packets.insert sequenceNumber packet

/-- A packet whose number is already there is overwritten. -/
def bufferProxyPacket : SentPackets :=
  buffer.put channel (single sequenceNumber packet) fun packets =>
    packets.insert sequenceNumber packet

/-- The session stays as a key. -/
def deleteBufferedLtpPacket : SentPackets :=
  buffer.modify channel fun _ => ∅

/-- Only the session key is taken out. -/
def deleteProxyPacket : SentPackets :=
  adjust channel.rCid (adjust channel.enigma fun sessionKeyMap =>
    sessionKeyMap.erase channel.sessionKey) buffer

/-- What `LtpBufferCleaner` does to a session with a packet that is too old. The rCID stays. -/
def clean : SentPackets :=
  adjust channel.rCid (fun enigmaMap =>
    (prune channel.enigma (cut channel.sessionKey) enigmaMap).getD enigmaMap) buffer

theorem entry_clean (chan other : Channel) (buf : SentPackets) :
    (buf.clean chan).entry other = if other = chan then none else buf.entry other := by
  have leaf : Takes (fun map : TreeMap SessionKey Packets => map[other.sessionKey]?) _ _ :=
    takes_cut chan.sessionKey other.sessionKey
  have takes := leaf.level chan.enigma other.enigma
  change ((adjust chan.rCid _ buf)[other.rCid]?.bind fun enigmaMap =>
    enigmaMap[other.enigma]?.bind (·[other.sessionKey]?)) = _
  simp only [getElem?_adjust, eq_iff, PerSession.entry]
  by_cases same : other.rCid = chan.rCid
  · simp only [same, true_and]
    cases buf[chan.rCid]? with
    | none => exact (ite_self none).symm
    | some enigmaMap => exact takes.taken enigmaMap
  · simp [same]

end SentPackets

namespace Packets

/-- The loop of `_publishDataRange`. It leaves at a number that is missing. -/
def rangeFrom (packets : Packets) (finish : Seq) (rounds : Nat) (sequence : Seq) :
    Option (List (List UInt8)) :=
  match rounds with
  | 0 => none
  | rounds + 1 =>
    if sequence ≤ finish then
      match packets[sequence]? with
      | none => some []
      | some packet => do
        let later ← rangeFrom packets finish rounds (sequence + 1)
        return packet :: later
    else some []

/-- The packets from one number to another. More rounds than there are numbers come to no end. -/
def range (packets : Packets) (start finish : Seq) : Option (List (List UInt8)) :=
  packets.rangeFrom finish 65537 start

variable {pkts : Packets} {start finish : Seq}

theorem toNat_succ {seq : Seq} (hb : seq.toNat < 65535) : (seq + 1).toNat = seq.toNat + 1 := by
  have one : (1 : UInt16).toNat = 1 := rfl
  rw [UInt16.toNat_add]
  omega

variable (zero : pkts[(0 : Seq)]? = none)

include zero

theorem rangeFrom_zero {rounds : Nat} (more : 1 ≤ rounds) :
    pkts.rangeFrom finish rounds 0 = some [] := by
  obtain ⟨rounds, rfl⟩ := Nat.exists_eq_add_of_le' more
  rw [rangeFrom, zero]
  split <;> rfl

/-- Where nothing from a number on is missing, the loop goes through all of it. -/
theorem rangeFrom_spec (rounds : Nat) (seq : Seq) (he : 65537 ≤ rounds + seq.toNat)
    (hp : ∀ key : Seq, seq ≤ key → key ≤ finish → pkts[key]? ≠ none) :
    ∃ range, pkts.rangeFrom finish rounds seq = some range ∧ ∀ pkt, pkt ∈ range ↔
      ∃ key : Seq, seq ≤ key ∧ key ≤ finish ∧ pkts[key]? = some pkt := by
  induction rounds generalizing seq with
  | zero =>
    have := seq.toNat_lt
    omega
  | succ rounds ih =>
    rw [rangeFrom]
    by_cases hi : seq ≤ finish
    · rw [if_pos hi]
      cases hf : pkts[seq]? with
      | none => exact absurd hf (hp seq (UInt16.le_refl _) hi)
      | some pkt =>
        have later : ∃ range, pkts.rangeFrom finish rounds (seq + 1) = some range ∧
            ∀ pkt, pkt ∈ range ↔
              ∃ key : Seq, seq < key ∧ key ≤ finish ∧ pkts[key]? = some pkt := by
          by_cases last : seq.toNat < 65535
          · have ha : ∀ key : Seq, seq + 1 ≤ key ↔ seq < key := by
              intro key
              rw [le_iff_toNat_le, lt_iff_toNat_lt, toNat_succ last]
              omega
            obtain ⟨range, hl, members⟩ := ih (seq + 1) (by rw [toNat_succ last]; omega)
              (fun key low high => hp key (UInt16.le_of_lt ((ha key).mp low)) high)
            simp only [ha] at members
            exact ⟨range, hl, members⟩
          · have hb := seq.toNat_lt
            have top : seq = 65535 := UInt16.toNat_inj.mp (by
              have val : (65535 : UInt16).toNat = 65535 := rfl
              omega)
            subst top
            refine ⟨[], rangeFrom_zero zero (by omega), fun pkt => ?_⟩
            simp only [List.not_mem_nil, false_iff, not_exists]
            intro key ⟨low, _, _⟩
            have := lt_iff_toNat_lt.mp low
            have := key.toNat_lt
            omega
        obtain ⟨range, hl, members⟩ := later
        refine ⟨pkt :: range, by rw [hl]; rfl, fun other => ?_⟩
        rw [List.mem_cons, members]
        constructor
        · rintro (rfl | ⟨key, low, rest⟩)
          · exact ⟨seq, UInt16.le_refl _, hi, hf⟩
          · exact ⟨key, UInt16.le_of_lt low, rest⟩
        · rintro ⟨key, low, high, ht⟩
          by_cases first : key = seq
          · rw [first, hf] at ht
            exact .inl (Option.some.inj ht).symm
          · exact .inr ⟨key, UInt16.lt_of_le_of_ne low (Ne.symm first), high, ht⟩
    · rw [if_neg hi]
      refine ⟨[], rfl, fun pkt => ?_⟩
      simp only [List.not_mem_nil, false_iff, not_exists]
      intro key ⟨low, high, _⟩
      exact hi (UInt16.le_trans low high)

theorem range_spec (hp : ∀ key : Seq, start ≤ key → key ≤ finish → pkts[key]? ≠ none) :
    ∃ range, pkts.range start finish = some range ∧ ∀ pkt, pkt ∈ range ↔
      ∃ key : Seq, start ≤ key ∧ key ≤ finish ∧ pkts[key]? = some pkt :=
  rangeFrom_spec zero 65537 start (Nat.le_add_right _ _) hp

end Packets

end Blackadder.Ltp
