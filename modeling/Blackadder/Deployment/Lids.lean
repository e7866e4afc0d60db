import Blackadder.Forwarding.Forwarder
import Mathlib.Data.Nat.Digits.Lemmas

/-!
The deployment tool writes a LID into the rules of an OpenFlow switch as two IPv6 addresses, where
the forwarder has the FID of a packet.
-/

namespace Blackadder.Deployment

open List Nat LittleEndian UInt8

open Blackadder.Topology (Bitvector)
open Forwarding

/-- `Bitvector::to_string`, with `true` for `'1'`. -/
def toString (bits : Bitvector) : List Bool :=
  (List.range 256).map fun i => bits.getLsbD (256 - i - 1)

/-- `bitset<16> b(text)`; the last character is the lowest bit. -/
def bitset (text : List Bool) : Nat := text.foldl (fun value bit => 2 * value + bit.toNat) 0

/-- A 16-bit number with its bytes swapped. -/
def htonsValue (value : UInt16) : UInt16 := value <<< 8 ||| value >>> 8

/-- A number as `operator<<` writes it in hexadecimal. -/
def hex (value : Nat) : List Char :=
  if value = 0 then ['0'] else (Nat.digits 16 value).reverse.map Nat.digitChar

def lid2ipv6 (lid : List Bool) : List Char :=
  let lid := lid.reverse
  let lipsinlen := 256
  (List.range (1 + (lipsinlen - 1) / 16)).flatMap fun k =>
    let pos := k * 16
    let len := if pos + 16 > lipsinlen then lipsinlen - pos else 16
    let tmp := ((lid.drop pos).take len).reverse
    (hex (htonsValue (UInt16.ofNat (bitset tmp))).toNat).leftpad 4 '0' ++
      if k < (lipsinlen - 1) / 16 then [':'] else []

/-- The two addresses of a rule. -/
def ipv6H1 (lid : Bitvector) : List Char := (lid2ipv6 (toString lid)).take 39

def ipv6H2 (lid : Bitvector) : List Char := ((lid2ipv6 (toString lid)).drop 40).take 79

def digitValue (c : Char) : Nat :=
  if c.toNat < 58 then c.toNat - 48 else c.toNat - 87

def readByte (high low : Char) : UInt8 := UInt8.ofNat (16 * digitValue high + digitValue low)

/-- The bytes of an address in network order. -/
def readIpv6 : List Char → List UInt8
  | a :: b :: c :: d :: ':' :: rest => readByte a b :: readByte c d :: readIpv6 rest
  | [a, b, c, d] => [readByte a b, readByte c d]
  | _ => []

/-- The words of a bit vector, and how a little-endian host has them in memory. -/
def words (bits : Bitvector) : List UInt32 :=
  (List.range 8).map fun i => UInt32.ofNat (bits.toNat / 2 ^ (32 * i))

def memory (words : List UInt32) : List UInt8 :=
  words.flatMap fun word => LittleEndian.encode 4 word.toNat

/-- The addresses of a frame. -/
def ipv6Source (frame : List UInt8) : List UInt8 := (frame.drop (14 + 8)).take 16

def ipv6Destination (frame : List UInt8) : List UInt8 := (frame.drop (14 + 8 + 16)).take 16

/-- A switch compares the bits of a field that are in the mask. -/
def MatchesField (value mask field : List UInt8) : Prop :=
  List.zipWith (· &&& ·) field mask = List.zipWith (· &&& ·) value mask

theorem leftpad_hex {val : Nat} (hs : val < 65536) : (hex val).leftpad 4 '0' =
    [val / 4096, val / 256 % 16, val / 16 % 16, val % 16].map digitChar := by
  have digits : ∀ n, 0 < n → digits 16 n = n % 16 :: digits 16 (n / 16) :=
    fun n hp => digits_def' (by decide) hp
  have second : val / 16 / 16 = val / 256 := by omega
  have third : val / 256 / 16 = val / 4096 := by omega
  -- by the number of digits
  by_cases one : val < 16
  · have zeros : val / 16 = 0 ∧ val / 256 = 0 ∧ val / 4096 = 0 := by omega
    by_cases zero : val = 0
    · rw [zero]
      rfl
    · rw [hex, if_neg zero, digits val (by omega), zeros.1, zeros.2.1, zeros.2.2]
      rfl
  rw [hex, if_neg (by omega), digits val (by omega), digits (val / 16) (by omega), second]
  by_cases two : val < 256
  · have zeros : val / 256 = 0 ∧ val / 4096 = 0 := by omega
    rw [zeros.1, zeros.2]
    rfl
  rw [digits (val / 256) (by omega), third]
  by_cases three : val < 4096
  · have zeros : val / 4096 = 0 := by omega
    rw [zeros]
    rfl
  · have last : val / 4096 / 16 = 0 := by omega
    have top : val / 4096 % 16 = val / 4096 := by omega
    rw [digits (val / 4096) (by omega), last, top]
    rfl

theorem digitValue_digitChar {digit : Nat} (hs : digit < 16) :
    digitValue (digitChar digit) = digit := by
  have all : ∀ digit : Fin 16, digitValue (digitChar digit) = digit := by decide
  exact all ⟨digit, hs⟩

theorem readByte_digitChar {high low : Nat} (first : high < 16) (second : low < 16) :
    readByte (digitChar high) (digitChar low) = ofNat (16 * high + low) := by
  rw [readByte, digitValue_digitChar first, digitValue_digitChar second]

variable (val : UInt16) (fid lid : Bitvector)

theorem toNat_htonsValue : (htonsValue val).toNat = val.toNat % 256 * 256 + val.toNat / 256 := by
  have hb := val.toNat_lt
  have eight : (8 : UInt16).toNat % 16 = 8 := rfl
  have high : val.toNat <<< 8 % 2 ^ 16 = (val.toNat % 256) <<< 8 := by
    omega
  rw [htonsValue, UInt16.toNat_or, UInt16.toNat_shiftLeft, UInt16.toNat_shiftRight, eight, high,
    shiftRight_eq_div_pow, ← shiftLeft_add_eq_or_of_lt (by omega), shiftLeft_eq]

theorem foldr_testBit (val count : Nat) :
    ((List.range count).map val.testBit).foldr (fun bit sum => 2 * sum + bit.toNat) 0 =
      val % 2 ^ count := by
  induction count generalizing val with
  | zero => rw [pow_zero, Nat.mod_one]; rfl
  | succ count ih =>
    have later : ((List.range count).map Nat.succ).map val.testBit =
        (List.range count).map (val / 2).testBit := by
      rw [map_map]
      apply map_congr_left
      intro i _
      exact Nat.testBit_succ val i
    have lowest : (val.testBit 0).toNat = val % 2 := by
      rw [Nat.toNat_testBit, Nat.div_one]
    rw [range_succ_eq_map, map_cons, foldr_cons, later, ih, pow_succ', Nat.mod_mul]
    omega

theorem bitset_toString {pos count : Nat} (hi : pos + count ≤ 256) :
    bitset ((((toString lid).reverse.drop pos).take count).reverse) =
      lid.toNat / 2 ^ pos % 2 ^ count := by
  have text : ((toString lid).reverse.drop pos).take count =
      (List.range count).map (lid.toNat / 2 ^ pos).testBit := by
    apply ext_getElem
    · simp only [toString, length_take, length_drop, length_reverse, length_map, length_range]
      omega
    intro i hs other
    rw [length_map, length_range] at other
    have place : 256 - (255 - (pos + i)) - 1 = pos + i := by omega
    simp only [toString, getElem_take, getElem_drop, getElem_reverse,
      length_map, length_range, getElem_map, getElem_range, place,
        testBit_div_two_pow, add_comm i pos]
    rfl
  rw [bitset, text, foldl_reverse, foldr_testBit]

theorem readByte_group {a b c d : Char}
    (group : (hex (htonsValue val).toNat).leftpad 4 '0' = [a, b, c, d]) :
    readByte a b = ofNat val.toNat ∧ readByte c d = ofNat (val.toNat / 256) := by
  have hb := val.toNat_lt
  have swapped := toNat_htonsValue val
  rw [leftpad_hex (htonsValue val).toNat_lt] at group
  obtain ⟨rfl, rfl, rfl, rfl, -⟩ := group
  have hu : (htonsValue val).toNat / 256 = val.toNat % 256 := by omega
  have top : (htonsValue val).toNat / 4096 = (htonsValue val).toNat / 256 / 16 := by omega
  rw [readByte_digitChar (by omega) (by omega), readByte_digitChar (by omega) (by omega)]
  constructor
  · apply UInt8.toNat_inj.mp
    rw [UInt8.toNat_ofNat', UInt8.toNat_ofNat']
    omega
  · apply UInt8.toNat_inj.mp
    rw [UInt8.toNat_ofNat', UInt8.toNat_ofNat']
    omega

/-- The sixteen bits of a LID that are in a group. -/
def groupValue (lid : Bitvector) (k : Nat) : UInt16 := UInt16.ofNat (lid.toNat / 2 ^ (16 * k))

theorem lid2ipv6_eq : lid2ipv6 (toString lid) = (List.range 16).flatMap fun k =>
      (hex (htonsValue (groupValue lid k)).toNat).leftpad 4 '0' ++
        if k < 15 then [':'] else [] := by
  apply flatMap_congr
  intro k hm
  have hi := mem_range.mp hm
  have group : groupValue lid k = UInt16.ofNat (lid.toNat / 2 ^ (k * 16) % 2 ^ 16) := by
    rw [groupValue, mul_comm]
    apply UInt16.toNat_inj.mp
    rw [UInt16.toNat_ofNat', UInt16.toNat_ofNat', mod_mod]
  dsimp only
  rw [if_neg (by omega), bitset_toString lid (by omega), group]

theorem exists_groups : ∃ a b c d : Nat → Char,
    (∀ k, (hex (htonsValue (groupValue lid k)).toNat).leftpad 4 '0' = [a k, b k, c k, d k]) ∧
      lid2ipv6 (toString lid) = (List.range 16).flatMap fun k =>
        [a k, b k, c k, d k] ++ if k < 15 then [':'] else [] := by
  have groups : ∀ k, ∃ a b c d,
      (hex (htonsValue (groupValue lid k)).toNat).leftpad 4 '0' = [a, b, c, d] := by
    intro k
    exact ⟨_, _, _, _, leftpad_hex (htonsValue _).toNat_lt⟩
  choose a b c d group using groups
  refine ⟨a, b, c, d, group, ?_⟩
  rw [lid2ipv6_eq]
  simp only [group]

theorem length_readIpv6 :
    (readIpv6 (ipv6H1 lid)).length = 16 ∧ (readIpv6 (ipv6H2 lid)).length = 16 := by
  obtain ⟨a, b, c, d, -, text⟩ := exists_groups lid
  rw [ipv6H1, ipv6H2, text]
  exact ⟨rfl, rfl⟩

theorem readIpv6_lid : readIpv6 (ipv6H1 lid) ++ readIpv6 (ipv6H2 lid) = fidBytes lid := by
  obtain ⟨a, b, c, d, group, text⟩ := exists_groups lid
  have bytes : readIpv6 (ipv6H1 lid) ++ readIpv6 (ipv6H2 lid) =
      (List.range 16).flatMap fun k => [readByte (a k) (b k), readByte (c k) (d k)] := by
    rw [ipv6H1, ipv6H2, text]
    rfl
  have size : 32 = 2 * 16 := rfl
  rw [bytes, fidBytes, size, encode_words]
  apply flatMap_congr
  intro k _
  obtain ⟨low, high⟩ := readByte_group (groupValue lid k) (group k)
  have val : (groupValue lid k).toNat = lid.toNat / 256 ^ (2 * k) % 256 ^ 2 := by
    rw [groupValue, pow_mul, pow_mul]
    rfl
  rw [low, high, val, ← encode_mod]
  rfl

theorem length_fidBytes : (fidBytes fid).length = 32 :=
  length_encode 32 _

theorem memory_words (bits : Bitvector) : memory (words bits) = fidBytes bits := by
  have size : 32 = 4 * 8 := rfl
  rw [memory, words, flatMap_map, fidBytes, size, encode_words]
  apply flatMap_congr
  intro i _
  have word : (UInt32.ofNat (bits.toNat / 2 ^ (32 * i))).toNat =
      bits.toNat / 256 ^ (4 * i) % 256 ^ 4 := by
    rw [pow_mul, pow_mul]
    rfl
  rw [word, encode_mod]

/-- The comparison of all bytes under a mask is the test of the forwarder. -/
theorem matchesField_fidBytes :
    MatchesField (fidBytes lid) (fidBytes lid) (fidBytes fid) ↔ Masks.Covers fid lid := by
  have hs : ∀ bits : Bitvector, bits.toNat < 256 ^ 32 := fun bits => bits.isLt
  rw [MatchesField, fidBytes, fidBytes, zipWith_and_encode,
    zipWith_and_encode, Nat.and_self, ← BitVec.toNat_and]
  constructor
  · intro same
    exact BitVec.eq_of_toNat_eq (encode_inj (hs _) (hs _) same)
  · intro hc
    rw [hc]

theorem matchesField_append {val mask field value' mask' field' : List UInt8}
    (masked : val.length = mask.length) (hf : field.length = mask.length) :
    MatchesField val mask field ∧ MatchesField value' mask' field' ↔
      MatchesField (val ++ value') (mask ++ mask') (field ++ field') := by
  rw [MatchesField, MatchesField, MatchesField, zipWith_append hf, zipWith_append masked]
  constructor
  · intro both
    rw [both.1, both.2]
  · intro same
    apply append_inj same
    rw [length_zipWith, length_zipWith, hf, masked]

/-- The forwarder puts the FID where the addresses of IPv6 are. -/
theorem encapsulate_sdn {fw : Forwarder} {fe : ForwardingEntry} (mac : fw.useMac = true)
    (sdn : fe.protoType = sdnType) (sums : Checksums) (id : UInt32) (fid : Bitvector)
    (payload : List UInt8) : ∃ frame,
      encapsulate fw sums id (fidBytes fid ++ payload) fe = some frame ∧
      ipv6Source frame ++ ipv6Destination frame = fidBytes fid ∧
        (ipv6Source frame).length = 16 := by
  have size := length_fidBytes fid
  let hdr := macHeader fe ++ htons fe.protoType.toNat ++
    sdnHeader (payloadLen (fidBytes fid ++ payload))
  have behind : hdr.length = 14 + 8 := by
    simp [hdr, macHeader, htons, sdnHeader]
  refine ⟨hdr ++ (fidBytes fid ++ payload), ?_, ?_, ?_⟩
  · rw [encapsulate, if_pos mac, sdn, if_neg (by decide), if_pos rfl, ← sdn]
  · rw [ipv6Source, ipv6Destination, ← @drop_drop _ 16 (14 + 8), drop_left' behind,
      ← take_add, take_left' size]
  · rw [ipv6Source, drop_left' behind, length_take, length_append]
    omega

/-- A LID has the same bits in a rule of a switch as in a packet, and a switch finds the rule to
match just if the forwarder finds the LID in the FID. -/
theorem lid_same_bits (lid fid : Bitvector) (fw : Forwarder) (sums : Checksums) (id : UInt32)
    (fe : ForwardingEntry) (payload : List UInt8) (mac : fw.useMac = true)
    (sdn : fe.protoType = sdnType) :
    (readIpv6 (ipv6H1 lid)).length = 16 ∧ (readIpv6 (ipv6H2 lid)).length = 16 ∧
    readIpv6 (ipv6H1 lid) ++ readIpv6 (ipv6H2 lid) = memory (words lid) ∧
    ∃ frame, encapsulate fw sums id (memory (words fid) ++ payload) fe = some frame ∧
      ipv6Source frame ++ ipv6Destination frame = memory (words fid) ∧
      (MatchesField (readIpv6 (ipv6H1 lid)) (readIpv6 (ipv6H1 lid)) (ipv6Source frame) ∧
          MatchesField (readIpv6 (ipv6H2 lid)) (readIpv6 (ipv6H2 lid)) (ipv6Destination frame) ↔
        fid &&& lid = lid) := by
  obtain ⟨first, second⟩ := length_readIpv6 lid
  obtain ⟨frame, sent, addresses, size⟩ := encapsulate_sdn mac sdn sums id fid payload
  rw [memory_words, memory_words]
  refine ⟨first, second, readIpv6_lid lid, frame, sent, addresses, ?_⟩
  rw [matchesField_append rfl (by rw [size, first]), readIpv6_lid, addresses]
  exact matchesField_fidBytes fid lid

/-- The LID with the bits 0 and 9 is in the FID with the bits 0, 9 and 200. -/
theorem lid_same_bits_two :
    ∃ frame, encapsulate ⟨true, 0, []⟩ ⟨fun _ => #v[0, 0], fun _ _ => #v[0, 0]⟩ 0
        (memory (words (0x201#256 ||| 1#256 <<< 200)) ++ [7])
        ⟨#v[0, 0, 0, 0, 0, 1], #v[0, 0, 0, 0, 0, 2], #v[0, 0, 0, 0], #v[0, 0, 0, 0], 1, 0x201,
          sdnType⟩ = some frame ∧
      MatchesField (readIpv6 (ipv6H1 0x201)) (readIpv6 (ipv6H1 0x201)) (ipv6Source frame) ∧
      MatchesField (readIpv6 (ipv6H2 0x201)) (readIpv6 (ipv6H2 0x201)) (ipv6Destination frame) := by
  obtain ⟨-, -, -, frame, sent, -, same⟩ := lid_same_bits 0x201 (0x201#256 ||| 1#256 <<< 200)
    ⟨true, 0, []⟩ ⟨fun _ => #v[0, 0], fun _ _ => #v[0, 0]⟩ 0
    ⟨#v[0, 0, 0, 0, 0, 1], #v[0, 0, 0, 0, 0, 2], #v[0, 0, 0, 0], #v[0, 0, 0, 0], 1, 0x201, sdnType⟩
    [7] rfl rfl
  exact ⟨frame, sent, same.mpr (by decide)⟩

end Blackadder.Deployment
