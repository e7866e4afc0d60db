import Mathlib.Data.Vector.Defs
import Blackadder.Ltp.Buffers

/-!
A message is published as numbered fragments, and the fragments make up the message again in
whatever order and however often they arrive.
-/

namespace Blackadder.Ltp

open List hiding Vector
open UInt16 Nat

open Std (TreeMap)
open NestedMap IcnPacketBuffer

/-- `_configuration.icnHeaderLength()`. -/
def icnHeaderLength : UInt32 := 20

/-- `sizeof(ltp_hdr_data_t)`, with two bytes of padding. -/
def sizeofDataHeader : UInt32 := 16

/-- The payload of a fragment from the sNAP, a multiple of 8. -/
def mituPayload (mitu : UInt16) (rCidLength : UInt32) : UInt32 :=
  let unit := mitu.toUInt32 - rCidLength - icnHeaderLength - sizeofDataHeader - 20
  unit - unit % 8

/-- The payload of a fragment from the cNAP. -/
def mtuPayload (mtu : UInt16) (cidLength rCidLength : UInt32) : UInt32 :=
  let unit := mtu.toUInt32 - cidLength - rCidLength - icnHeaderLength - sizeofDataHeader - 20
  unit - unit % 8

/-- What is in memory behind the data and in a packet that has just been allocated. -/
structure Stale where
  beyond : List UInt8
  tail : Seq → Vector UInt8 2

/-- The variables of the loop. -/
structure Sending where
  sentBytes : UInt32
  sequenceNumber : Seq

section

variable (enigma : Enigma) (sessionKey : SessionKey) (unit : UInt32) (data : List UInt8)
  (stale : Stale)

def dataSize (data : List UInt8) : UInt16 := UInt16.ofNat data.length

/-- One round of `_publishData`. The last fragment is padded to a multiple of 8 bytes with what is
behind the data. -/
def nextFragment (sending : Sending) : List UInt8 × Sending :=
  let sequenceNumber := sending.sequenceNumber + 1
  let remaining := (dataSize data).toUInt32 - sending.sentBytes
  let payloadLength : UInt16 := if remaining > unit then unit.toUInt16 else remaining.toUInt16
  let pad : UInt16 :=
    if remaining > unit ∨ payloadLength % 8 = 0 then 0 else 8 - payloadLength % 8
  let fragmentSize := payloadLength + pad
  let packetSize := sizeofDataHeader.toUInt16 + fragmentSize
  let header : DataHeader := ⟨enigma, sessionKey, sequenceNumber, payloadLength⟩
  let fragment := ((data ++ stale.beyond).drop sending.sentBytes.toNat).take fragmentSize.toNat
  ((header.bytes ++ (fragment ++ (stale.tail sequenceNumber).toList)).take packetSize.toNat,
    ⟨sending.sentBytes + (fragmentSize.toUInt32 - pad.toUInt32), sequenceNumber⟩)

/-- The packets of the loop and the last sequence number, with a bound on the rounds. -/
def segments (rounds : Nat) (sending : Sending) : Option (List (List UInt8) × Seq) :=
  if sending.sentBytes < (dataSize data).toUInt32 then
    match rounds with
    | 0 => none
    | rounds + 1 => do
      let round := nextFragment enigma sessionKey unit data stale sending
      let later ← segments rounds round.2
      return (round.1 :: later.1, later.2)
  else some ([], sending.sequenceNumber)

/-- All packets of a message. Every round sends a byte, so there are no more than bytes. -/
def fragmentsOf : Option (List (List UInt8) × Seq) :=
  segments enigma sessionKey unit data stale data.length ⟨0, 0⟩

/-- The loop of the `_publishData` that sends responses to the nodes of a group. -/
def responseFragments (mitu : UInt16) (rCidLength : UInt32) : Option (List (List UInt8) × Seq) :=
  fragmentsOf enigma sessionKey (mituPayload mitu rCidLength) data stale

/-- The loop of the `_publishData` that sends requests under a CID. -/
def requestFragments (mtu : UInt16) (cidLength rCidLength : UInt32) :
    Option (List (List UInt8) × Seq) :=
  fragmentsOf enigma sessionKey (mtuPayload mtu cidLength rCidLength) data stale

end

section

variable {enigma : Enigma} {sessionKey : SessionKey} {unit : UInt32} {data : List UInt8}
  {stale : Stale} {sending : Sending}

/-- A payload for which no counter of the loop wraps. -/
structure Fits (unit : UInt32) (data : List UInt8) : Prop where
  positive : 8 ≤ unit.toNat
  small : unit.toNat ≤ 65512
  multiple : unit.toNat % 8 = 0
  message : data.length ≤ 65535

theorem Fits.remaining (hf : Fits unit data) (hi : sending.sentBytes.toNat ≤ data.length) :
    ((dataSize data).toUInt32 - sending.sentBytes).toNat =
      data.length - sending.sentBytes.toNat := by
  have msg := hf.message
  have size : (dataSize data).toUInt32.toNat = data.length := by
    rw [toNat_toUInt32, dataSize, toNat_ofNat']
    omega
  rw [UInt32.toNat_sub_of_le, size]
  rw [UInt32.le_iff_toNat_le, size]
  exact hi

variable {size : Nat}

/-- A packet of at least the header and the payload has both in front. -/
theorem take_packet (hdr : DataHeader) (stale : Stale) (tail : List UInt8) {sent : Nat}
    (fragmentSize packetSize : Nat) (payload : size ≤ data.length - sent)
    (hc : size ≤ fragmentSize) (large : 14 + size ≤ packetSize) :
    ∃ rest, (hdr.bytes ++ (((data ++ stale.beyond).drop sent).take fragmentSize ++ tail)).take
        packetSize = hdr.bytes ++ rest ∧ rest.take size = (data.drop sent).take size := by
  have len := hdr.length_bytes
  refine ⟨_, take_append.trans (congrArg (· ++ _) (take_of_length_le ?_)), ?_⟩
  · omega
  have dropped : (data ++ stale.beyond).drop sent =
      data.drop sent ++ stale.beyond.drop (sent - data.length) := drop_append
  have len : (data.drop sent).length = data.length - sent := length_drop
  rw [take_take, min_eq_left (by omega), dropped, take_append_of_le_length,
    take_take, min_eq_left hc, take_append_of_le_length (by omega)]
  rw [length_take, length_append]
  omega

/-- The rest of a round, for a padding that keeps the packet small. -/
theorem finish_round (hdr : DataHeader) (stale : Stale) (tail : List UInt8) (pad : UInt16)
    (payload : size ≤ data.length - sending.sentBytes.toNat) (hs : size + pad.toNat ≤ 65512) :
    let fragmentSize := ofNat size + pad
    ∃ rest, (hdr.bytes ++ (((data ++ stale.beyond).drop sending.sentBytes.toNat).take
          fragmentSize.toNat ++ tail)).take (sizeofDataHeader.toUInt16 + fragmentSize).toNat =
        hdr.bytes ++ rest ∧
      sending.sentBytes + (fragmentSize.toUInt32 - pad.toUInt32) =
        UInt32.ofNat (sending.sentBytes.toNat + size) ∧
      rest.take size = (data.drop sending.sentBytes.toNat).take size := by
  intro fragmentSize
  have frag : fragmentSize.toNat = size + pad.toNat := by
    rw [UInt16.toNat_add, UInt16.toNat_ofNat']
    omega
  have pkt : (sizeofDataHeader.toUInt16 + fragmentSize).toNat = 16 + (size + pad.toNat) := by
    rw [UInt16.toNat_add]
    have hdr : sizeofDataHeader.toUInt16.toNat = 16 := rfl
    omega
  obtain ⟨rest, taken, front⟩ := take_packet hdr stale tail (size + pad.toNat)
    (16 + (size + pad.toNat)) payload (le_add_right size pad.toNat) (by omega)
  refine ⟨rest, ?_, ?_, front⟩
  · rw [frag, pkt]
    exact taken
  apply UInt32.toNat_inj.mp
  have padded : pad.toUInt32 ≤ fragmentSize.toUInt32 := by
    rw [UInt32.le_iff_toNat_le, toNat_toUInt32, toNat_toUInt32]
    omega
  rw [UInt32.toNat_add, UInt32.toNat_sub_of_le _ _ padded, toNat_toUInt32,
    toNat_toUInt32, UInt32.toNat_ofNat']
  omega

/-- A round sends as much as fits, behind a header that says how much it is. -/
theorem nextFragment_spec (hf : Fits unit data) (hi : sending.sentBytes.toNat < data.length) :
    let sent := sending.sentBytes.toNat
    let size := min unit.toNat (data.length - sent)
    let hdr : DataHeader :=
      ⟨enigma, sessionKey, sending.sequenceNumber + 1, ofNat size⟩
    ∃ rest, nextFragment enigma sessionKey unit data stale sending =
        (hdr.bytes ++ rest, ⟨UInt32.ofNat (sent + size), sending.sequenceNumber + 1⟩) ∧
      rest.take size = (data.drop sent).take size := by
  intro sent size hdr
  have remaining := hf.remaining (le_of_lt hi)
  obtain ⟨hp, hs, multiple, msg⟩ := hf
  by_cases more : (dataSize data).toUInt32 - sending.sentBytes > unit
  · have left : unit.toNat < data.length - sent := by
      rw [← remaining]
      exact UInt32.lt_iff_toNat_lt.mp more
    have whole : size = unit.toNat := min_eq_left (le_of_lt left)
    have len : unit.toUInt16 = ofNat size := by
      rw [whole]
      rfl
    obtain ⟨rest, taken, advanced, front⟩ := finish_round hdr stale
      (stale.tail (sending.sequenceNumber + 1)).toList 0 (whole ▸ le_of_lt left) (whole ▸ hs)
    refine ⟨rest, ?_, front⟩
    simp only [nextFragment, more, true_or, if_true, len]
    rw [taken, advanced]
  · have left : data.length - sent ≤ unit.toNat := by
      rw [← remaining]
      exact Nat.le_of_not_lt fun less => more (UInt32.lt_iff_toNat_lt.mpr less)
    have whole : size = data.length - sent := min_eq_right left
    have len : ((dataSize data).toUInt32 - sending.sentBytes).toUInt16 = ofNat size := by
      rw [whole, ← remaining]
      rfl
    let pad : UInt16 := if ofNat size % 8 = 0 then 0 else 8 - ofNat size % 8
    have padded : size + pad.toNat ≤ 65512 := by
      have low : (ofNat size % 8).toNat = size % 8 := by
        have eight : (8 : UInt16).toNat = 8 := rfl
        rw [UInt16.toNat_mod, UInt16.toNat_ofNat', eight]
        omega
      by_cases even : ofNat size % 8 = 0
      · have none : pad = 0 := if_pos even
        rw [none]
        have zero : (0 : UInt16).toNat = 0 := rfl
        omega
      · have some : pad = 8 - ofNat size % 8 := if_neg even
        have odd : size % 8 ≠ 0 := fun zero => even (UInt16.toNat_inj.mp (low.trans zero))
        have eight : (8 : UInt16).toNat = 8 := rfl
        rw [some, UInt16.toNat_sub_of_le _ _ (by rw [UInt16.le_iff_toNat_le, eight]; omega), eight]
        omega
    obtain ⟨rest, taken, advanced, front⟩ := finish_round hdr stale
      (stale.tail (sending.sequenceNumber + 1)).toList pad (le_of_eq whole) padded
    refine ⟨rest, ?_, front⟩
    simp only [nextFragment, more, if_false, false_or, len]
    rw [taken, advanced]

theorem sent_lt_dataSize (msg : data.length ≤ 65535) {sent : UInt32} :
    sent < (dataSize data).toUInt32 ↔ sent.toNat < data.length := by
  rw [UInt32.lt_iff_toNat_lt, toNat_toUInt32, dataSize, toNat_ofNat']
  omega

theorem seq_succ (first : Seq) (i : Nat) : first + 1 + ofNat i = first + ofNat (i + 1) := by
  rw [UInt16.ofNat_add, UInt16.add_assoc, UInt16.add_comm 1]
  rfl

/-- Packets with consecutive numbers whose payloads make up some data. -/
structure Carried (enigma : Enigma) (sessionKey : SessionKey) (data : List UInt8) (first : Seq)
    (packets : List (List UInt8)) : Prop where
  whole : packets.flatMap readPayload = data
  bounded : packets.length ≤ data.length
  header : ∀ i packet, packets[i]? = some packet → readDataHeader packet =
    ⟨enigma, sessionKey, first + UInt16.ofNat (i + 1), UInt16.ofNat (readPayload packet).length⟩

theorem Carried.cons {first : Seq} {payload pkt : List UInt8} {pkts : List (List UInt8)}
    (later : Carried enigma sessionKey data (first + 1) pkts)
    (read : readPayload pkt = payload) (some : payload ≠ []) (hdr : readDataHeader pkt =
      ⟨enigma, sessionKey, first + 1, ofNat payload.length⟩) :
    Carried enigma sessionKey (payload ++ data) first (pkt :: pkts) where
  whole := by rw [flatMap_cons, read, later.whole]
  bounded := by
    have hp := length_pos_iff.mpr some
    have bounded := later.bounded
    rw [length_cons, length_append]
    omega
  header i other hf := by
    cases i with
    | zero =>
      cases hf
      rw [hdr, read]
      rfl
    | succ i => rw [later.header i other hf, seq_succ]

/-- The packets from a point of the loop on carry the rest of the data, numbered from there. -/
theorem segments_spec (hf : Fits unit data) (rounds : Nat)
    (hi : sending.sentBytes.toNat ≤ data.length)
    (he : data.length - sending.sentBytes.toNat ≤ rounds) :
    ∃ packets, segments enigma sessionKey unit data stale rounds sending =
        some (packets, sending.sequenceNumber + ofNat packets.length) ∧
      Carried enigma sessionKey (data.drop sending.sentBytes.toNat) sending.sequenceNumber
        packets := by
  have msg := hf.message
  induction rounds generalizing sending with
  | zero =>
    refine ⟨[], ?_, ?_, zero_le _, nofun⟩
    · rw [segments, if_neg (by rw [sent_lt_dataSize msg]; omega)]
      simp
    · rw [flatMap_nil, drop_of_length_le (by omega)]
  | succ rounds ih =>
    by_cases more : sending.sentBytes.toNat < data.length
    · obtain ⟨rest, round, front⟩ := @nextFragment_spec enigma sessionKey unit data stale sending
        hf more
      have hp := hf.positive
      generalize sized : min unit.toNat (data.length - sending.sentBytes.toNat) = size
        at round front
      have advanced : (UInt32.ofNat (sending.sentBytes.toNat + size)).toNat =
          sending.sentBytes.toNat + size := by
        rw [UInt32.toNat_ofNat']
        omega
      have len : ((data.drop sending.sentBytes.toNat).take size).length = size := by
        rw [length_take, length_drop]
        omega
      obtain ⟨packets, later, cases⟩ := @ih
        ⟨UInt32.ofNat (sending.sentBytes.toNat + size), sending.sequenceNumber + 1⟩
        (by rw [advanced]; omega) (by rw [advanced]; omega)
      refine ⟨(nextFragment enigma sessionKey unit data stale sending).1 :: packets, ?_, ?_⟩
      · rw [segments, if_pos ((sent_lt_dataSize msg).mpr more)]
        simp only [round, later, seq_succ]
        rfl
      rw [round, ← take_append_drop size (data.drop sending.sentBytes.toNat), drop_drop, ← advanced]
      refine cases.cons ?_ ?_ ?_
      · rw [readPayload_bytes, ← front, toNat_ofNat', mod_eq_of_lt (by omega)]
      · rw [← length_pos_iff]
        omega
      · rw [readDataHeader_bytes, len]
    · refine ⟨[], ?_, ?_, zero_le _, nofun⟩
      · rw [segments, if_neg (by rw [sent_lt_dataSize msg]; exact more)]
        simp
      · rw [flatMap_nil, drop_of_length_le (by omega)]

end

/-- What a data packet adds to the buffer of its session. -/
def entryOf (packet : List UInt8) : Seq × Stored :=
  ((readDataHeader packet).sequenceNumber,
    ⟨readPayload packet, (readDataHeader packet).payloadLength⟩)

/-- The buffer of a session holds exactly what some packets have brought. -/
def Holds (arrived : List (List UInt8)) (found : Fragments) : Prop :=
  ∀ key stored, found[key]? = some stored ↔ ∃ packet ∈ arrived, entryOf packet = (key, stored)

/-- The same of a session that has no entry before its first packet. -/
def Buffered (arrived : List (List UInt8)) (found : Option Fragments) : Prop :=
  found.elim (arrived = []) (Holds arrived)

section

variable {enigma : Enigma} {sk : SessionKey} {data : List UInt8}
  {packets : List (List UInt8)}

variable {packet : List UInt8} {arrived : List (List UInt8)} {found : Fragments}

section

variable (hc : Carried enigma sk data 0 packets) (hs : packets.length ≤ 65535)

include hc hs

theorem Carried.sequenceNumber {i : Nat} (found : packets[i]? = some packet) :
    (entryOf packet).1.toNat = i + 1 := by
  have hi := (List.getElem?_eq_some_iff.mp found).1
  rw [entryOf, hc.header i packet found]
  simp only [UInt16.zero_add, UInt16.toNat_ofNat']
  omega

theorem Carried.injective {other : List UInt8} (hm : packet ∈ packets)
    (ho : other ∈ packets) (same : (entryOf packet).1 = (entryOf other).1) : packet = other := by
  obtain ⟨i, found⟩ := mem_iff_getElem?.mp hm
  obtain ⟨j, otherFound⟩ := mem_iff_getElem?.mp ho
  have num := hc.sequenceNumber hs found
  have otherNumber := hc.sequenceNumber hs otherFound
  rw [same, otherNumber, Nat.add_right_cancel_iff] at num
  rw [num, found] at otherFound
  exact Option.some.inj otherFound

theorem Carried.sorted : (packets.map entryOf).Pairwise fun a b => compare a.1 b.1 = .lt := by
  rw [pairwise_map, pairwise_iff_getElem]
  intro i j first second less
  rw [Std.compare_eq_lt, lt_iff_toNat_lt, hc.sequenceNumber hs (List.getElem?_eq_getElem first),
    hc.sequenceNumber hs (List.getElem?_eq_getElem second)]
  omega

theorem Carried.addFragment (hk : arrived ⊆ packets) (hm : packet ∈ packets)
    (holds : Holds arrived found) :
    Holds (arrived ++ [packet]) (addFragment (entryOf packet).1 (entryOf packet).2 found) := by
  intro key stored
  have members : ∀ other, other ∈ arrived ++ [packet] ↔ other ∈ arrived ∨ other = packet := by
    simp
  rw [getElem?_addFragment]
  by_cases same : key = (entryOf packet).1
  · have kept : ∀ old, found[(entryOf packet).1]? = some old → old = (entryOf packet).2 := by
      intro old ht
      obtain ⟨other, arrivedOther, entry⟩ := (holds _ old).mp ht
      have num : (entryOf other).1 = (entryOf packet).1 := by rw [entry]
      have he := hc.injective hs (hk arrivedOther) hm num
      rw [he] at entry
      rw [entry]
    have res : (found[(entryOf packet).1]?.elim (entryOf packet).2 fun old =>
        if old.size = (entryOf packet).2.size then old else (entryOf packet).2) =
          (entryOf packet).2 := by
      cases ht : found[(entryOf packet).1]? with
      | none => rfl
      | some old => rw [kept old ht]; simp
    rw [if_pos same, res, Option.some.injEq]
    constructor
    · rintro rfl
      exact ⟨packet, (members packet).mpr (.inr rfl), by rw [same]⟩
    · rintro ⟨other, hi, entry⟩
      have ho : other ∈ packets := by
        rcases (members other).mp hi with before | rfl
        · exact hk before
        · exact hm
      have num : (entryOf other).1 = (entryOf packet).1 := by rw [entry, same]
      have he := hc.injective hs ho hm num
      rw [← he, entry]
  · rw [if_neg same, holds]
    constructor
    · rintro ⟨other, before, entry⟩
      exact ⟨other, (members other).mpr (.inl before), entry⟩
    · rintro ⟨other, hi, entry⟩
      rcases (members other).mp hi with before | rfl
      · exact ⟨other, before, entry⟩
      · exact absurd (congrArg Prod.fst entry).symm same

end

theorem sum_sizes (sized : ∀ packet ∈ packets, (readDataHeader packet).payloadLength =
      ofNat (readPayload packet).length) : (packets.map fun packet => (entryOf packet).2.size).sum =
      ofNat (packets.flatMap readPayload).length := by
  induction packets with
  | nil => rfl
  | cons packet rest ih =>
    rw [map_cons, sum_cons, ih fun other later => sized other (.tail _ later),
      flatMap_cons, length_append, ofNat_add, entryOf, sized packet mem_cons_self]

/-- All fragments in their order are the message. -/
theorem Carried.assemble (hc : Carried enigma sk data 0 packets)
    (hs : packets.length ≤ 65535) (all : ∀ packet, packet ∈ arrived ↔ packet ∈ packets)
    (holds : Holds arrived found) : assemble found = (data, ofNat data.length) := by
  have entries : found.toList = packets.map entryOf := by
    apply toList_eq (hc.sorted hs)
    intro key stored
    rw [holds, mem_map]
    simp only [all]
  have sized : ∀ packet ∈ packets, (readDataHeader packet).payloadLength =
      ofNat (readPayload packet).length := by
    intro packet hm
    obtain ⟨i, place⟩ := mem_iff_getElem?.mp hm
    rw [hc.header i packet place]
  rw [IcnPacketBuffer.assemble, entries, flatMap_map, map_map]
  exact Prod.ext hc.whole ((sum_sizes sized).trans (by rw [hc.whole]))

end

section

variable {rCid : Cid} {nid : Nid} {enigma : Enigma} {sk : SessionKey} {data : List UInt8}
  {packets : List (List UInt8)}

variable {buf : IcnPacketBuffer} {before : List (List UInt8)}
variable (hc : Carried enigma sk data 0 packets) (hs : packets.length ≤ 65535)
  (hh : Buffered before (buf.fragments ⟨rCid, enigma, nid, sk⟩))

include hc hs hh

theorem Carried.buffered (hk : before ⊆ packets) {pkt : List UInt8} (hm : pkt ∈ packets) :
    Buffered (before ++ [pkt])
      ((buf.handleData rCid nid pkt).fragments ⟨rCid, enigma, nid, sk⟩) := by
  obtain ⟨i, place⟩ := mem_iff_getElem?.mp hm
  have hdr := hc.header i pkt place
  rw [handleData, fragments_bufferIcnPacket, if_pos (by rw [hdr])]
  cases found : buf.fragments ⟨rCid, enigma, nid, sk⟩ with
  | some =>
    rw [found] at hh
    exact hc.addFragment hs hk hm hh
  | none =>
    rw [found] at hh
    have first : before = [] := hh
    intro key stored
    rw [first, Option.elim_none, getElem?_single]
    simp only [nil_append, mem_singleton, exists_eq_left, entryOf, Prod.mk.injEq]
    split
    · rename_i same
      rw [Option.some.injEq, same, eq_self, true_and]
    · rename_i other
      simp [Ne.symm other]

theorem Carried.buffered_all {arrivals : List (List UInt8)} (hk : arrivals ⊆ packets)
    (earlier : before ⊆ packets) :
    Buffered (before ++ arrivals) ((arrivals.foldl (handleData rCid nid) buf).fragments
      ⟨rCid, enigma, nid, sk⟩) := by
  induction arrivals generalizing buf before with
  | nil =>
    rw [append_nil]
    exact hh
  | cons pkt rest ih =>
    have hm := hk mem_cons_self
    have next := hc.buffered hs hh earlier hm
    have both : before ++ [pkt] ⊆ packets := by
      intro other hi
      rcases mem_append.mp hi with first | last
      · exact earlier first
      · rwa [mem_singleton.mp last]
    have all := ih next (fun other later => hk (.tail _ later)) both
    rwa [append_assoc] at all

end

/-- The payload that remains of a transmission unit, without identifiers and headers. -/
def payloadBytes (total identifiers : Nat) : Nat := (total - identifiers - 56) / 8 * 8

theorem toNat_sub_mod (unit : UInt32) : (unit - unit % 8).toNat = unit.toNat / 8 * 8 := by
  have eight : (8 : UInt32).toNat = 8 := rfl
  have hb : unit % 8 ≤ unit := by
    exact Nat.mod_le _ _
  rw [UInt32.toNat_sub_of_le _ _ hb, UInt32.toNat_mod, eight]
  omega

variable {rCidLength : Nat}

theorem toNat_headers : icnHeaderLength.toNat = 20 ∧ sizeofDataHeader.toNat = 16 ∧
    (20 : UInt32).toNat = 20 :=
  ⟨rfl, rfl, rfl⟩

theorem toNat_mituPayload {mitu : UInt16} (large : 8 ≤ payloadBytes mitu.toNat rCidLength) :
    (mituPayload mitu (UInt32.ofNat rCidLength)).toNat = payloadBytes mitu.toNat rCidLength := by
  have hb := mitu.toNat_lt
  unfold payloadBytes at large
  rw [mituPayload, toNat_sub_mod, payloadBytes]
  simp only [UInt32.toNat_sub, toNat_toUInt32, UInt32.toNat_ofNat', toNat_headers]
  omega

theorem toNat_mtuPayload {mtu : UInt16} {cidLength : Nat}
    (large : 8 ≤ payloadBytes mtu.toNat (cidLength + rCidLength)) :
    (mtuPayload mtu (UInt32.ofNat cidLength) (UInt32.ofNat rCidLength)).toNat =
      payloadBytes mtu.toNat (cidLength + rCidLength) := by
  have hb := mtu.toNat_lt
  unfold payloadBytes at large
  rw [mtuPayload, toNat_sub_mod, payloadBytes]
  simp only [UInt32.toNat_sub, toNat_toUInt32, UInt32.toNat_ofNat', toNat_headers]
  omega

/-- The fragments arrive in some order, each at least once, where there are none yet. -/
def Reassembles (sent : Option (List (List UInt8) × Seq)) (session : Session)
    (data : List UInt8) : Prop :=
  ∃ packets last, sent = some (packets, last) ∧ last.toNat = packets.length ∧
    ∀ (buffer : IcnPacketBuffer) (arrivals : List (List UInt8)),
      (∀ found, buffer.fragments session = some found → found.isEmpty) →
      (∀ packet, packet ∈ arrivals ↔ packet ∈ packets) →
      ∃ size, ((arrivals.foldl (handleData session.rCid session.nid) buffer).retrieveIcnPacket
          session).1 = some (data, size) ∧ size.toNat = data.length

theorem reassembles_of_fits {unit : UInt32} {data : List UInt8} (hf : Fits unit data)
    (some : 1 ≤ data.length) (sess : Session) (stale : Stale) :
    Reassembles (fragmentsOf sess.enigma sess.sessionKey unit data stale) sess data := by
  have msg := hf.message
  obtain ⟨pkts, sent, hc⟩ := @segments_spec sess.enigma sess.sessionKey unit data
    stale ⟨0, 0⟩ hf data.length (Nat.zero_le _) (Nat.sub_le _ _)
  have hs : pkts.length ≤ 65535 := by
    have hb := hc.bounded
    rw [length_drop] at hb
    omega
  refine ⟨pkts, _, sent, ?_, fun buf arrivals he all => ?_⟩
  · rw [UInt16.zero_add, UInt16.toNat_ofNat']
    omega
  have start : Buffered [] (buf.fragments sess) := by
    cases found : buf.fragments sess with
    | none => rfl
    | some frags =>
      intro key stored
      rw [TreeMap.getElem?_of_isEmpty (he frags found)]
      simp
  have hh := hc.buffered_all hs start (fun pkt hi => (all pkt).mp hi) (nil_subset pkts)
  rw [nil_append] at hh
  have hp : pkts ≠ [] := by
    intro none
    have whole := hc.whole
    rw [none] at whole
    have len := congrArg List.length whole
    simp at len
    omega
  refine ⟨ofNat data.length, ?_, ?_⟩
  · rw [retrieveIcnPacket]
    cases found : (arrivals.foldl (handleData sess.rCid sess.nid) buf).fragments sess with
    | none =>
      rw [found] at hh
      obtain ⟨pkt, hm⟩ := exists_mem_of_ne_nil pkts hp
      have arrived := (all pkt).mpr hm
      rw [hh] at arrived
      cases arrived
    | some =>
      rw [found] at hh
      exact congrArg Option.some (hc.assemble hs all hh)
  · rw [toNat_ofNat']
    omega

/-- Reassembly inverts segmentation, for responses and for requests. -/
theorem reassembly_inverts_segmentation (data : List UInt8) (some : 1 ≤ data.length)
    (message : data.length ≤ 65535) (stale : Stale) (session : Session) :
    (∀ (mitu : UInt16) (rCidLength : Nat), 8 ≤ payloadBytes mitu.toNat rCidLength →
      Reassembles (responseFragments session.enigma session.sessionKey data stale mitu
        (UInt32.ofNat rCidLength)) session data) ∧ ∀ (mtu : UInt16) (cidLength rCidLength : Nat),
      8 ≤ payloadBytes mtu.toNat (cidLength + rCidLength) →
      Reassembles (requestFragments session.enigma session.sessionKey data stale mtu
        (UInt32.ofNat cidLength) (UInt32.ofNat rCidLength)) session data := by
  have hf : ∀ (unit : UInt32) (total : UInt16) (identifiers : Nat),
      unit.toNat = payloadBytes total.toNat identifiers →
      8 ≤ payloadBytes total.toNat identifiers → Fits unit data := by
    intro unit total identifiers val large
    have hb := total.toNat_lt
    unfold payloadBytes at val large
    exact ⟨by omega, by omega, by omega, message⟩
  constructor
  · intro mitu rCidLength large
    exact reassembles_of_fits (hf _ mitu rCidLength (toNat_mituPayload large) large) some session
      stale
  · intro mtu cidLength rCidLength large
    exact reassembles_of_fits (hf _ mtu _ (toNat_mtuPayload large) large) some session stale

/-- A response of 20 bytes in fragments of 8, and a request in one fragment. -/
theorem reassembly_inverts_segmentation_twenty :
    let data := List.replicate 20 7
    let stale : Stale := ⟨List.replicate 7 0, fun _ => #v[0, 0]⟩
    let sess : Session := ⟨1, 2, 3, 4⟩
    Reassembles (responseFragments 2 4 data stale 96 (UInt32.ofNat 32)) sess data ∧
      Reassembles (requestFragments 2 4 data stale 1500 (UInt32.ofNat 16) (UInt32.ofNat 32))
        sess data := by
  intro data stale sess
  obtain ⟨responses, reqs⟩ :=
    reassembly_inverts_segmentation data (by decide) (by decide) stale sess
  exact ⟨responses 96 32 (by decide), reqs 1500 16 32 (by decide)⟩

end Blackadder.Ltp
