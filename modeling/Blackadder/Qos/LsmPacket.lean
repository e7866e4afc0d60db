import Blackadder.Qos.ByteArray
import Blackadder.Topology.State
import Mathlib.Algebra.Group.Nat.Defs
import Mathlib.Data.Vector.Defs

namespace Blackadder.Qos

open List hiding Vector
open View Qos.ByteArray Std.TreeMap UInt8 Nat

open Blackadder.Topology (Bitvector)

abbrev QoSList : Type := Std.TreeMap UInt8 UInt16

def fidLen : Nat := 32

def nodeidLen : Nat := 8

def constHdrLen : Nat := 1 + nodeidLen + 1

def qosItemSize : Nat := 3

def qosReport : BitVec 8 := 107

/-- A packet on memory that is not initialised. -/
def newPacket (stale : View) : ByteArray :=
  (((ByteArray.mk 0 stale).extend constHdrLen).store 0 qosReport).store (nodeidLen + 1) 0

variable (packet : ByteArray)

def setNodeId (nodeID : List UInt8) : ByteArray := packet.setText nodeID 1 0

/-- A byte while bits are shifted into it. -/
def shiftIn (byte : BitVec 8) (bit : Bool) : BitVec 8 := (byte <<< 1) ||| if bit then 1 else 0

/-- The loop that copies a LID, with its variables. -/
structure BitLoop where
  packet : ByteArray
  bytepos : Nat
  bitpos : Nat
  byte : BitVec 8

variable (bv : Bitvector)

def copyBit (loop : BitLoop) (i : Nat) : BitLoop :=
  let byte := shiftIn loop.byte (bv.getLsbD i)
  if loop.bitpos + 1 = 8 then ⟨loop.packet.store loop.bytepos byte, loop.bytepos + 1, 0, byte⟩
  else ⟨loop.packet, loop.bytepos, loop.bitpos + 1, byte⟩

/-- The loop that copies the items. -/
def copyItem (state : ByteArray × Nat) (item : UInt8 × UInt16) : ByteArray × Nat :=
  let (packet, bytepos) := state
  let packet := packet.store bytepos item.1.toBitVec
  (packet.setNumber (item.2.toBitVec.setWidth 64) 16 (bytepos + 1) 0, bytepos + 3)

/-- The entry of a link, behind the packet. -/
def appendEntry (q : QoSList) : ByteArray :=
  let bytepos := packet.size
  let packet := packet.extend (fidLen + 1 + q.size * qosItemSize)
  let loop := (List.range (fidLen * 8)).foldl (copyBit bv) ⟨packet, bytepos, 0, 0⟩
  let packet := loop.packet.store loop.bytepos (BitVec.ofNat 8 q.size)
  (q.toList.foldl copyItem (packet, loop.bytepos + 1)).1

def appendLinkStatus (q : QoSList) : ByteArray :=
  let len := packet.byte (nodeidLen + 1)
  (appendEntry packet bv q).store (nodeidLen + 1) (len + 1)

/-- The report of a node about its links. -/
def report (stale : View) (nodeID : List UInt8) (links : List (Bitvector × QoSList)) : ByteArray :=
  links.foldl (fun packet link => appendLinkStatus packet link.1 link.2)
    (setNodeId (newPacket stale) nodeID)

/-- `LSMPacket(data, size)`: the bytes are copied to memory of its own. -/
def received (stale : View) (bytes : List UInt8) : ByteArray := ⟨bytes.length, stale.memcpy 0 bytes⟩

def getLinksLen : Nat := (packet.byte (nodeidLen + 1)).toNat

def getNodeId : List UInt8 := packet.getText nodeidLen 1 0

/-- One link further, in 16 bits. -/
def skipLink (offset : Nat) : Nat :=
  let offset := (offset + fidLen) % 2 ^ 16
  let offset := (offset + (packet.byte offset).toNat * qosItemSize) % 2 ^ 16
  (offset + 1) % 2 ^ 16

variable (index : Nat)

/-- The offset of a link, or nothing for `-1`. -/
def getLinkOffset : Option Nat :=
  if getLinksLen packet < index then none
  else some (Nat.iterate (skipLink packet) index constHdrLen)

def getStatusListLen : Option Nat :=
  (getLinkOffset packet index).map fun offset => (packet.byte (offset + fidLen)).toNat

def setBit (i : Nat) (bit : Bool) : Bitvector :=
  if bit then bv ||| BitVec.twoPow _ i else bv &&& ~~~BitVec.twoPow _ i

/-- One bit further, with the LID and the offset. -/
def readBit (state : Bitvector × Nat) (i : Nat) : Bitvector × Nat :=
  (setBit state.1 i (packet.getBits8OrLess 1 state.2 (i % 8) ≠ 0),
    if (i + 1) % 8 = 0 then state.2 + 1 else state.2)

/-- The LID of a link, or an empty one. -/
def getLid : Option Bitvector :=
  (getLinkOffset packet index).map fun offset =>
    ((List.range (fidLen * 8)).foldl (readBit packet) (0, offset)).1

/-- One item further, with the list and the offset. -/
def readItem (state : QoSList × Nat) : QoSList × Nat :=
  (state.1.insert (UInt8.ofBitVec (packet.byte state.2))
    (UInt16.ofBitVec ((packet.getBits 16 (state.2 + 1) 0).setWidth 16)), state.2 + qosItemSize)

def getLinkStatus : QoSList :=
  match getLinkOffset packet index with
  | none => ∅
  | some offset =>
    (Nat.iterate (readItem packet) (packet.byte (offset + fidLen)).toNat (∅, offset + fidLen + 1)).1

def lidByte (lid : Bitvector) (k : Nat) : BitVec 8 :=
  (List.range 8).foldl (fun byte i => shiftIn byte (lid.getLsbD (8 * k + i))) 0

def lidBytes (lid : Bitvector) : List UInt8 :=
  (List.range fidLen).map fun k => UInt8.ofBitVec (lidByte lid k)

def itemBytes (item : UInt8 × UInt16) : List UInt8 :=
  [item.1, UInt8.ofBitVec ((item.2.toBitVec >>> 8).setWidth 8),
    UInt8.ofBitVec (item.2.toBitVec.setWidth 8)]

/-- The entry of a link. -/
def linkBytes (link : Bitvector × QoSList) : List UInt8 :=
  lidBytes link.1 ++
    (UInt8.ofBitVec (BitVec.ofNat 8 link.2.size) :: link.2.toList.flatMap itemBytes)

def headerBytes (nodeID : List UInt8) (count : Nat) : List UInt8 :=
  UInt8.ofBitVec qosReport :: nodeID ++ [UInt8.ofBitVec (BitVec.ofNat 8 count)]

def reportBytes (nodeID : List UInt8) (links : List (Bitvector × QoSList)) : List UInt8 :=
  headerBytes nodeID links.length ++ links.flatMap linkBytes

/-- An array that has been filled as far as these bytes go. -/
structure Written (packet : ByteArray) (size : Nat) (front : List UInt8) : Prop where
  size : packet.size = size
  shown : packet.data.Shows 0 front

variable {bit : Bool}

section

variable {j : Nat}

theorem getLsbD_shiftIn {byte : BitVec 8} (low : j < 8) :
    (shiftIn byte bit).getLsbD j = if j = 0 then bit else byte.getLsbD (j - 1) := by
  by_cases zero : j = 0
  · cases bit <;> simp [shiftIn, zero]
  · cases bit <;> simp [shiftIn, zero, low, BitVec.getLsbD_eq_getElem (show j - 1 < 8 by omega)]

theorem getLsbD_foldl_shiftIn (bit : Nat → Bool) (n : Nat) (byte : BitVec 8) (low : j < 8) :
    ((List.range n).foldl (fun byte i => shiftIn byte (bit i)) byte).getLsbD j =
      if j < n then bit (n - 1 - j) else byte.getLsbD (j - n) := by
  induction n generalizing j with
  | zero => rfl
  | succ n ih =>
    rw [range_succ, foldl_append, foldl_cons, foldl_nil, getLsbD_shiftIn low]
    by_cases zero : j = 0
    · simp [zero]
    rw [if_neg zero, ih (show j - 1 < 8 by omega)]
    by_cases hi : j < n + 1
    · rw [if_pos (show j - 1 < n by omega), if_pos hi]
      congr 1
      omega
    · rw [if_neg (show ¬ j - 1 < n by omega), if_neg hi]
      congr 1
      omega

theorem getLsbD_lidByte (lid : Bitvector) (k : Nat) (low : j < 8) :
    (lidByte lid k).getLsbD j = lid.getLsbD (8 * k + (7 - j)) := by
  rw [lidByte, getLsbD_foldl_shiftIn (fun i => lid.getLsbD (8 * k + i)) 8 0 low, if_pos low]

theorem copyBit_byte (lid : Bitvector) (pkt : ByteArray) (bytepos k : Nat) (byte : BitVec 8) :
    ((List.range 8).map (8 * k + ·)).foldl (copyBit lid) ⟨pkt, bytepos, 0, byte⟩ =
      ⟨pkt.store bytepos (lidByte lid k), bytepos + 1, 0, lidByte lid k⟩ := by
  have same : (List.range 8).foldl (fun byte i => shiftIn byte (lid.getLsbD (8 * k + i))) byte =
      lidByte lid k := by
    apply BitVec.eq_of_getLsbD_eq
    intro j low
    rw [getLsbD_lidByte lid k low,
      getLsbD_foldl_shiftIn (fun i => lid.getLsbD (8 * k + i)) 8 byte low, if_pos low]
  rw [← same]
  rfl

end

section

variable {pkt : ByteArray} {front nid : List UInt8} {size : Nat}

theorem Written.store (written : Written pkt size front) (off : Nat)
    (next : off = front.length) (val : BitVec 8) :
    Written (pkt.store off val) size (front ++ [ofBitVec val]) :=
  ⟨written.size, written.shown.append_memcpy next _⟩

theorem Written.copyLid (written : Written pkt size front) (lid : Bitvector) (count : Nat) :
    ∃ packet' byte, ((List.range count).flatMap fun k => (List.range 8).map (8 * k + ·)).foldl
        (copyBit lid) ⟨pkt, front.length, 0, 0⟩ = ⟨packet', front.length + count, 0, byte⟩ ∧
      Written packet' size
        (front ++ (List.range count).map fun k => ofBitVec (lidByte lid k)) := by
  induction count with
  | zero => exact ⟨pkt, 0, rfl, by simpa using written⟩
  | succ count ih =>
    obtain ⟨middle, byte, same, hf⟩ := ih
    have more := hf.store (front.length + count) (by simp) (lidByte lid count)
    refine ⟨_, lidByte lid count, ?_, by simpa [range_succ] using more⟩
    rw [range_succ (n := count), flatMap_append, foldl_append, same,
      flatMap_singleton, copyBit_byte]
    rfl

theorem copyItems_eq (items : List (UInt8 × UInt16)) {off : Nat}
    (fits : off + 3 * items.length ≤ pkt.size) : (items.foldl copyItem (pkt, off)).1 =
      { pkt with data := pkt.data.memcpy off (items.flatMap itemBytes) } := by
  induction items generalizing pkt off with
  | nil => simp
  | cons item later ih =>
    rw [length_cons] at fits
    have high : ((item.2.toBitVec.setWidth 64) >>> 8).setWidth 8 =
        (item.2.toBitVec >>> 8).setWidth 8 := by
      apply BitVec.eq_of_getLsbD_eq
      intro j low
      simp [show 8 + j < 64 by omega]
    have low : (item.2.toBitVec.setWidth 64).setWidth 8 = item.2.toBitVec.setWidth 8 :=
      BitVec.setWidth_setWidth_of_le _ (by decide)
    have num := @setNumber_two (pkt.store off item.1.toBitVec) (off + 1)
      (item.2.toBitVec.setWidth 64) (show off + 1 + 2 ≤ pkt.size by omega)
    have three : itemBytes item = [item.1] ++ ([ofBitVec ((item.2.toBitVec >>> 8).setWidth 8)] ++
        [ofBitVec (item.2.toBitVec.setWidth 8)]) := rfl
    rw [foldl_cons, copyItem, num, ih (by simp only [store]; omega), flatMap_cons,
      memcpy_append, three, memcpy_append, memcpy_append]
    rfl

variable (link : Bitvector × QoSList) (stale : View)

theorem length_linkBytes : (linkBytes link).length = fidLen + 1 + link.2.size * qosItemSize := by
  have items : ∀ list : List (UInt8 × UInt16),
    (list.flatMap itemBytes).length = list.length * 3 := by
    intro list
    induction list with
    | nil => rfl
    | cons => simp only [flatMap_cons, length_append, itemBytes,
        length_cons, length_nil]; omega
  simp only [linkBytes, lidBytes, length_append, length_map, length_range,
    length_cons, items, length_toList, qosItemSize]
  omega

theorem Written.appendEntry (written : Written pkt front.length front) :
    Written (appendEntry pkt link.1 link.2) (front.length + (linkBytes link).length)
      (front ++ linkBytes link) := by
  have blocks : List.range (fidLen * 8) =
      (List.range fidLen).flatMap fun k => (List.range 8).map (8 * k + ·) := by decide +kernel
  have longer : Written (pkt.extend (fidLen + 1 + link.2.size * qosItemSize))
      (front.length + (linkBytes link).length) front :=
    ⟨by rw [length_linkBytes, ← written.size]; rfl, written.shown⟩
  obtain ⟨middle, byte, loop, hf⟩ := longer.copyLid link.1 fidLen
  have sized := hf.store (front.length + fidLen) (by simp) (BitVec.ofNat 8 link.2.size)
  have items := @copyItems_eq _ link.2.toList (front.length + fidLen + 1) (by
    rw [sized.size, length_linkBytes, length_toList, qosItemSize]
    omega)
  have shown := @View.Shows.append_memcpy _ (front.length + fidLen + 1) _ sized.shown
    (by simp [add_assoc]) (link.2.toList.flatMap itemBytes)
  rw [Qos.appendEntry, blocks, written.size, loop]
  dsimp only
  rw [items]
  exact ⟨sized.size, by simpa [linkBytes, lidBytes] using shown⟩

variable (length : nid.length = nodeidLen)

include length

theorem Written.appendLinkStatus {body : List UInt8} {count : Nat}
    (written : Written pkt (headerBytes nid count ++ body).length (headerBytes nid count ++
      body)) : Written (appendLinkStatus pkt link.1 link.2)
      (headerBytes nid (count + 1) ++ (body ++ linkBytes link)).length
      (headerBytes nid (count + 1) ++ (body ++ linkBytes link)) := by
  have nine : nodeidLen + 1 = 0 + (ofBitVec qosReport :: nid).length := by
    rw [length_cons, length, zero_add]
  have old : pkt.byte (nodeidLen + 1) = BitVec.ofNat 8 count := by
    have hs := written.shown
    rw [headerBytes, append_assoc, shows_append, ← nine, singleton_append] at hs
    rw [byte, (shows_cons.mp hs.2).1]
  have all := written.appendEntry link
  have hs := all.shown
  rw [headerBytes, append_assoc, append_assoc, ← append_assoc] at hs
  refine ⟨?_, ?_⟩
  · change (Qos.appendEntry pkt link.1 link.2).size = _
    rw [all.size]
    simp only [headerBytes, length_append, length_cons, length_nil]
    omega
  · have overwritten := @View.Shows.overwrite _ _ 0 (ofBitVec qosReport :: nid) _
      [ofBitVec (BitVec.ofNat 8 count + 1)] _ hs nine rfl
    rw [Qos.appendLinkStatus, old, headerBytes, BitVec.ofNat_add]
    exact overwritten

theorem written_nodeId :
    Written (setNodeId (newPacket stale) nid) constHdrLen (headerBytes nid 0) := by
  have nine : 0 + (ofBitVec qosReport :: nid).length = nodeidLen + 1 := by
    rw [length_cons, length, zero_add]
  have first : (newPacket stale).data.Shows 0 [ofBitVec qosReport] :=
    (shows_memcpy stale 0 _).memcpy (by decide) _
  have last : (newPacket stale).data.Shows (nodeidLen + 1) [0] := shows_memcpy _ _ _
  rw [setNodeId, setText_eq nid (by rw [length]; exact le_succ 9)]
  refine ⟨rfl, shows_append.mpr ⟨first.append_memcpy rfl nid, ?_⟩⟩
  rw [nine]
  exact last.memcpy_before (by rw [length]; decide)

theorem written_report (links : List (Bitvector × QoSList)) :
    Written (report stale nid links) (reportBytes nid links).length (reportBytes nid links) := by
  suffices all : ∀ (links done : List (Bitvector × QoSList)) (pkt : ByteArray),
      Written pkt (reportBytes nid done).length (reportBytes nid done) →
      Written (links.foldl (fun pkt link => appendLinkStatus pkt link.1 link.2) pkt)
        (reportBytes nid (done ++ links)).length (reportBytes nid (done ++ links)) by
    have first := written_nodeId stale length
    have he : (reportBytes nid []).length = constHdrLen := by
      simp [reportBytes, headerBytes, length]
      rfl
    exact all links [] _ ⟨first.size.trans he.symm, by simpa [reportBytes] using first.shown⟩
  intro links
  induction links with
  | nil =>
    intro done pkt written
    simpa using written
  | cons link later ih =>
    intro done pkt written
    have next := ih (done ++ [link]) _ (by
      have more := written.appendLinkStatus link length
      simpa [reportBytes] using more)
    simpa using next

end

section

variable {packet : ByteArray} {links : List (Bitvector × QoSList)} {link : Bitvector × QoSList}
  {off : Nat}

theorem shows_byte {byte : UInt8} {more : List UInt8}
    (hs : packet.data.Shows off (byte :: more)) : packet.byte off = byte.toBitVec := by
  rw [ByteArray.byte, (shows_cons.mp hs).1]

theorem listLen_at (short : link.2.size ≤ 255) (hs : packet.data.Shows off (linkBytes link)) :
    (packet.byte (off + fidLen)).toNat = link.2.size ∧
      packet.data.Shows (off + fidLen + 1) (link.2.toList.flatMap itemBytes) := by
  have lid : (lidBytes link.1).length = fidLen := by simp [lidBytes]
  rw [linkBytes, shows_append, lid] at hs
  refine ⟨?_, (shows_cons.mp hs.2).2⟩
  rw [shows_byte hs.2]
  exact mod_eq_of_lt (by omega)

theorem skipLink_eq (short : link.2.size ≤ 255) (hs : packet.data.Shows off (linkBytes link))
    (small : off + (linkBytes link).length < 2 ^ 16) :
    skipLink packet off = off + (linkBytes link).length := by
  rw [length_linkBytes] at small ⊢
  have len := (listLen_at short hs).1
  simp only [skipLink, mod_eq_of_lt (show off + fidLen < 2 ^ 16 by omega), len]
  omega

/-- The walk over the entries ends at the entry with some index. -/
theorem shows_iterate (short : ∀ link ∈ links, link.2.size ≤ 255)
    (hs : packet.data.Shows off (links.flatMap linkBytes))
    (small : off + (links.flatMap linkBytes).length < 2 ^ 16) {idx : Nat}
    (hi : idx < links.length) :
    packet.data.Shows (iterate (skipLink packet) idx off) (linkBytes links[idx]) := by
  induction links generalizing off idx with
  | nil => cases hi
  | cons link later ih =>
    rw [flatMap_cons, shows_append] at hs
    cases idx with
    | zero => exact hs.1
    | succ idx =>
      simp only [flatMap_cons, length_append] at small
      rw [Function.iterate_succ_apply, skipLink_eq (short link mem_cons_self) hs.1 (by omega)]
      exact ih (fun other hm => short other (mem_cons_of_mem _ hm)) hs.2 (by omega)
        (lt_of_succ_lt_succ hi)

theorem getLsbD_setBit {bv : Bitvector} {i j : Nat} (low : i < 256) :
    (setBit bv i bit).getLsbD j = if j = i then bit else bv.getLsbD j := by
  by_cases hi : j < 256
  · by_cases same : j = i
    · cases bit <;> simp [setBit, same, low]
    · cases bit <;> simp [setBit, same, hi]
  · rw [BitVec.getLsbD_of_ge _ _ (by omega), if_neg (by omega), BitVec.getLsbD_of_ge _ _ (by omega)]

theorem read_lid {lid : Bitvector} (hs : packet.data.Shows off (lidBytes lid)) :
    ((List.range (fidLen * 8)).foldl (readBit packet) (0, off)).1 = lid := by
  -- After some bits those are right, the others zero, and the place is that of the next bit.
  have loop : ∀ n ≤ 256, ∃ bv : Bitvector,
      (List.range n).foldl (readBit packet) (0, off) = (bv, off + n / 8) ∧
      ∀ j, bv.getLsbD j = (decide (j < n) && lid.getLsbD j) := by
    intro n
    induction n with
    | zero => exact fun _ => ⟨0, rfl, fun j => by simp⟩
    | succ n ih =>
      intro low
      obtain ⟨bv, same, bits⟩ := ih (by omega)
      have byte : packet.byte (off + n / 8) = lidByte lid (n / 8) := by
        have hf := hs (n / 8) (by simp [lidBytes, fidLen]; omega)
        rw [byte, hf]
        simp [lidBytes]
      have bit : decide (packet.getBits8OrLess 1 (off + n / 8) (n % 8) ≠ 0) = lid.getLsbD n := by
        rw [getBits8OrLess_bit (by omega), byte, getLsbD_lidByte lid _ (by omega),
          show 8 * (n / 8) + (7 - (7 - n % 8)) = n by omega]
        cases lid.getLsbD n <;> rfl
      refine ⟨setBit bv n (lid.getLsbD n), ?_, fun j => ?_⟩
      · rw [range_succ, foldl_append, same, foldl_cons, foldl_nil, readBit, bit]
        congr 1
        split <;> omega
      rw [getLsbD_setBit (by omega), bits]
      by_cases same : j = n
      · simp [same]
      rw [if_neg same]
      congr 1
      simp only [decide_eq_decide]
      omega
  obtain ⟨bv, same, bits⟩ := loop (fidLen * 8) (le_refl _)
  rw [same]
  apply BitVec.eq_of_getLsbD_eq
  intro j low
  rw [bits, decide_eq_true (show j < fidLen * 8 from low), Bool.true_and]

theorem read_items (items : List (UInt8 × UInt16)) {q : QoSList}
    (hs : packet.data.Shows off (items.flatMap itemBytes)) :
    (iterate (readItem packet) items.length (q, off)).1 =
      items.foldl (fun q item => q.insert item.1 item.2) q := by
  induction items generalizing q off with
  | nil => rfl
  | cons item later ih =>
    rw [flatMap_cons, shows_append] at hs
    obtain ⟨own, rest⟩ := hs
    obtain ⟨key, values⟩ := shows_cons.mp own
    obtain ⟨high, low⟩ := shows_cons.mp values
    have val : (packet.getBits 16 (off + 1) 0).setWidth 16 = item.2.toBitVec := by
      rw [getBits_two, byte, byte, high, (shows_cons.mp low).1]
      apply BitVec.eq_of_getLsbD_eq
      intro j hi
      by_cases first : j < 8
      · simp [first, hi]
      · simp [first, hi,
          show j - 8 < 8 by omega, show 8 + (j - 8) = j by omega]
    have step : readItem packet (q, off) = (q.insert item.1 item.2, off + qosItemSize) := by
      rw [readItem, val, byte, key]
    rw [length_cons, Function.iterate_succ_apply, step]
    exact ih rest

theorem getElem?_foldl_toList (q : QoSList) (key : UInt8) :
    (q.toList.foldl (fun q item => q.insert item.1 item.2) (∅ : QoSList))[key]? = q[key]? := by
  suffices all : ∀ (items : List (UInt8 × UInt16)) (acc : QoSList),
      items.Pairwise (fun a b => ¬ compare a.1 b.1 = .eq) →
      (items.foldl (fun q item => q.insert item.1 item.2) acc)[key]? =
        ((items.find? fun item => item.1 = key).map Prod.snd).or acc[key]? by
    rw [all _ _ distinct_keys_toList]
    cases hf : q.toList.find? fun item => item.1 = key with
    | some item =>
      have same := List.find?_some hf
      have hm := mem_of_find?_eq_some hf
      rw [← of_decide_eq_true same]
      simpa using (mem_toList_iff_getElem?_eq_some.mp hm).symm
    | none =>
      cases ht : q[key]? with
      | none => rfl
      | some val =>
        have hm := mem_toList_iff_getElem?_eq_some.mpr ht
        exact absurd (decide_eq_true rfl) (List.find?_eq_none.mp hf _ hm)
  intro items
  induction items with
  | nil => exact fun acc _ => rfl
  | cons item later ih =>
    intro acc hd
    obtain ⟨first, rest⟩ := pairwise_cons.mp hd
    rw [foldl_cons, ih _ rest, Std.TreeMap.getElem?_insert]
    by_cases same : item.1 = key
    · have none : later.find? (fun item => item.1 = key) = none := by
        rw [List.find?_eq_none]
        intro other hm ha
        have he := (of_decide_eq_true ha).trans same.symm
        exact first other hm (by rw [he]; exact Std.ReflCmp.compare_self)
      simp [same, none]
    · simp [same]

/-- A report shorter than 65536 bytes is read by the library as the router made it. -/
theorem report_survives (stale other : View) (nodeID : List UInt8)
    (links : List (Bitvector × QoSList))
    (length : nodeID.length = nodeidLen) (few : links.length ≤ 255)
    (short : ∀ link ∈ links, link.2.size ≤ 255)
    (small : (report stale nodeID links).size < 2 ^ 16) :
    let sent := (report stale nodeID links).data.read 0 (report stale nodeID links).size
    getNodeId (received other sent) = nodeID ∧ getLinksLen (received other sent) = links.length ∧
      ∀ (idx : Nat) (hi : idx < links.length),
        getLid (received other sent) idx = some links[idx].1 ∧
        ∀ key : UInt8, (getLinkStatus (received other sent) idx)[key]? = links[idx].2[key]? := by
  have written := written_report stale length links
  have bytes : (report stale nodeID links).data.read 0 (report stale nodeID links).size =
      reportBytes nodeID links := by
    rw [written.size]
    exact read_of_shows written.shown
  rw [written.size] at small
  simp only [bytes]
  have hs : (received other (reportBytes nodeID links)).data.Shows 0 (reportBytes nodeID links) :=
    shows_memcpy other 0 _
  have nine : 0 + (ofBitVec qosReport :: nodeID).length = nodeidLen + 1 := by
    rw [length_cons, length, zero_add]
  have full : (received other (reportBytes nodeID links)).size =
    (reportBytes nodeID links).length := rfl
  generalize received other (reportBytes nodeID links) = packet at hs full ⊢
  have parts := hs
  rw [reportBytes, headerBytes, append_assoc, shows_append, nine] at parts
  have linksLen : getLinksLen packet = links.length := by
    rw [getLinksLen, shows_byte parts.2]
    exact mod_eq_of_lt (by omega)
  refine ⟨?_, linksLen, fun idx hi => ?_⟩
  · have size : nodeidLen + 1 ≤ packet.size := by
      rw [full]
      simp [reportBytes, headerBytes, length]
    have text := read_of_shows (shows_cons.mp parts.1).2
    rw [length] at text
    rw [getNodeId, getText, if_neg (not_lt.mpr size)]
    simp only [getBits8OrLess_byte]
    exact text
  · have entries := (shows_cons.mp parts.2).2
    have total : nodeidLen + 1 + 1 + (links.flatMap linkBytes).length < 2 ^ 16 := by
      simp only [reportBytes, headerBytes, length_append, length_cons, length] at small
      omega
    have entry := shows_iterate short entries total hi
    have place : getLinkOffset packet idx =
        some (Nat.iterate (skipLink packet) idx (nodeidLen + 1 + 1)) := by
      rw [getLinkOffset, if_neg (by rw [linksLen]; omega)]
      rfl
    have own := entry
    rw [linkBytes, shows_append] at own
    obtain ⟨len, items⟩ := listLen_at (short _ (getElem_mem hi)) entry
    constructor
    · rw [getLid, place, Option.map_some, read_lid own.1]
    · intro key
      rw [getLinkStatus, place]
      simp only [len]
      rw [← length_toList, read_items _ items, getElem?_foldl_toList]

/-- Two links, with a list of one property and one of two. -/
def sampleLinks : List (Bitvector × QoSList) :=
  [(5, (∅ : QoSList).insert 1 500), (9, ((∅ : QoSList).insert 1 7).insert 2 65535)]

theorem report_survives_two :
    let packet := report (fun _ => 0) [1, 2, 3, 4, 5, 6, 7, 8] sampleLinks
    let seen := received (fun _ => 170) (packet.data.read 0 packet.size)
    getNodeId seen = [1, 2, 3, 4, 5, 6, 7, 8] ∧ getLinksLen seen = 2 ∧
      getLid seen 0 = some 5 ∧ (getLinkStatus seen 0)[(1 : UInt8)]? = some 500 ∧
      getLid seen 1 = some 9 ∧ (getLinkStatus seen 1)[(1 : UInt8)]? = some 7 ∧
      (getLinkStatus seen 1)[(2 : UInt8)]? = some 65535 := by
  intro packet seen
  obtain ⟨node, count, links⟩ := report_survives (fun _ => 0) (fun _ => 170)
    [1, 2, 3, 4, 5, 6, 7, 8] sampleLinks rfl (by decide) (by decide)
    (by rw [(written_report _ rfl _).size]; decide +kernel)
  obtain ⟨lid0, list0⟩ := links 0 (by decide)
  obtain ⟨lid1, list1⟩ := links 1 (by decide)
  exact ⟨node, count, lid0, (list0 1).trans (by decide), lid1, (list1 1).trans (by decide),
    (list1 2).trans (by decide)⟩

end

/-- The LID is copied, but the place to write at stays in front of it. -/
def appendLinkStatusRaw (lid : List UInt8) (q : QoSList) : ByteArray :=
  let len := packet.byte (nodeidLen + 1)
  let bytepos := packet.size
  let packet := packet.extend (fidLen + 1 + q.size * qosItemSize)
  let packet := packet.setText lid bytepos 0
  let packet := packet.store bytepos (BitVec.ofNat 8 q.size)
  let packet := (q.toList.foldl copyItem (packet, bytepos + 1)).1
  packet.store (nodeidLen + 1) (len + 1)

def libraryReport (stale : View) (nodeID : List UInt8) (links : List (Bitvector × QoSList)) :
    ByteArray :=
  links.foldl (fun packet link => appendLinkStatusRaw packet (lidBytes link.1) link.2)
    (setNodeId (newPacket stale) nodeID)

/-- `getLid_RAW`. -/
def getLidRaw : List UInt8 :=
  ((getLinkOffset packet index).map fun offset => packet.getText fidLen offset 0).getD []

/-- An array in which nothing has been written from an address on. -/
structure Untouched (stale : View) (size first : Nat) (packet : ByteArray) : Prop where
  size : packet.size = size
  same : ∀ i, first ≤ i → packet.data i = stale i

theorem untouched_appendLinkStatusRaw {pkt : ByteArray} {stale : View} {size : Nat}
    (h : Untouched stale size size pkt) (hdr : nodeidLen + 1 < size) (link : Bitvector × QoSList) :
    let next := size + (linkBytes link).length
    Untouched stale next (next - 1) (appendLinkStatusRaw pkt (lidBytes link.1) link.2) := by
  have lid : (lidBytes link.1).length = 32 := by simp [lidBytes, fidLen]
  have items := length_linkBytes link
  simp only [linkBytes, length_append, length_cons, fidLen, qosItemSize] at items
  have count : link.2.toList.length = link.2.size := Std.TreeMap.length_toList
  rw [length_linkBytes, appendLinkStatusRaw, h.size, fidLen, qosItemSize,
    setText_eq _ (by simp only [extend, h.size]; omega),
    copyItems_eq _ (by simp only [store, extend, h.size]; omega)]
  refine ⟨by rw [← h.size]; rfl, fun i hi => ?_⟩
  simp only [store]
  rw [memcpy_of_le _ (by simp only [length_singleton]; omega), memcpy_of_le _ (by omega),
    memcpy_of_le _ (by simp only [length_singleton]; omega), memcpy_of_le _ (by omega)]
  exact h.same i (by omega)

variable (nodeID : Vector UInt8 nodeidLen) (links : List (Bitvector × QoSList))

theorem untouched_libraryReport (stale : View) : let size :=
    (reportBytes nodeID.toList links).length
    Untouched stale size (size - min links.length 1) (libraryReport stale nodeID.toList links) := by
  have sizes : ∀ links, (reportBytes nodeID.toList links).length =
      constHdrLen + (links.flatMap linkBytes).length := by
    simp [reportBytes, headerBytes, constHdrLen]
    omega
  induction links using List.reverseRecOn with
  | nil =>
    have len : nodeID.toList.length = 8 := Vector.length_toList
    rw [sizes, libraryReport, foldl_nil, setNodeId, setText_eq _ (by rw [len]; exact Nat.le_succ 9)]
    refine ⟨rfl, fun i hi => ?_⟩
    have ten : 10 ≤ i := hi
    simp only [newPacket, store, extend]
    rw [memcpy_of_le _ (by omega), memcpy_of_le _ ten,
      memcpy_of_le _ (by simp only [length_singleton]; omega)]
  | append_singleton init link ih =>
    rw [sizes] at ih ⊢
    have next := untouched_appendLinkStatusRaw ⟨ih.size, fun i hi => ih.same i (by omega)⟩
      (by simp only [constHdrLen]; omega) link
    simpa [libraryReport, Nat.add_assoc] using next

/-- The library makes the report of the routers, whatever new memory holds, only without links. -/
theorem encoders_agree_iff : (∀ stale : View, let made := libraryReport stale nodeID.toList links
      let report := report stale nodeID.toList links
      made.data.read 0 made.size = report.data.read 0 report.size ∧
        ∀ (index : Nat) (_ : index < links.length),
          getLidRaw made index = lidBytes links[index].1 ∧
          ∀ key : UInt8, (getLinkStatus made index)[key]? = links[index].2[key]?) ↔ links = [] := by
  constructor
  · intro agree
    by_contra some
    have hp := length_pos_iff.mpr some
    have click := fun stale => written_report stale (@Vector.length_toList _ _ nodeID) links
    have library := untouched_libraryReport nodeID links
    have positive : 0 < (reportBytes nodeID.toList links).length := by
      simp [reportBytes, headerBytes]
    generalize reportBytes nodeID.toList links = bytes at click library positive
    -- The last byte is what the memory held, which is chosen to be another one.
    have last : bytes.length - 1 < bytes.length := by omega
    let other : View := fun _ => bytes.get ⟨_, last⟩ + 1
    have same := (agree other).1
    rw [(click other).size, read_of_shows (click other).shown] at same
    have shown : (libraryReport other nodeID.toList links).data.Shows 0 bytes :=
      same ▸ shows_read _ 0 _
    have kept := shown _ last
    rw [(library other).same _ (by omega)] at kept
    simp [other] at kept
  · rintro rfl stale
    exact ⟨by simp [libraryReport, report], fun index hi => absurd hi (Nat.not_lt_zero index)⟩

/-- The number of items is written over the LID. -/
theorem library_overwrites_lid :
    getLidRaw (libraryReport (fun _ => 0) [1, 2, 3, 4, 5, 6, 7, 8] [(1, ∅)]) 0 ≠ lidBytes 1 := by
  decide +kernel

end Blackadder.Qos
