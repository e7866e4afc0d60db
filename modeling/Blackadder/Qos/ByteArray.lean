import Blackadder.Library.Memory

/-!
The byte array of the QoS packets, whose fields are written and read bit by bit, the most
significant bit first. Both programs that exchange the packets have this array.
-/

namespace Blackadder.Qos

open BitVec

/-- The array, and whatever the memory behind it holds. -/
structure ByteArray where
  size : Nat
  data : View

namespace ByteArray

variable (array : ByteArray)

def byte (offset : Nat) : BitVec 8 := (array.data offset).toBitVec

def store (offset : Nat) (value : BitVec 8) : ByteArray :=
  { array with data := array.data.memcpy offset [UInt8.ofBitVec value] }

/-- The new bytes are not initialised. -/
def extend (extSize : Nat) : ByteArray :=
    { array with size := array.size + extSize }

/-- The bits are shifted in a byte, so those above the eighth are lost. -/
def getLowMask (num : Nat) : BitVec 64 :=
  if 64 < num then 0
  else (List.range num).foldl (fun res i => res ||| (1#8 <<< i).setWidth 64) 0

/-- `setBits` for a byte. -/
def setBits (b : BitVec 8) (lownum offsetBytes offsetbits : Nat) : ByteArray :=
  if 8 < lownum ∨ 8 < offsetbits then array
  else if array.size ≠ 0 ∧ array.size - 1 < offsetBytes then array
  else if array.size < lownum / 8 + offsetBytes then array
  else
    let mask := (getLowMask lownum).setWidth 8
    let b := (b &&& mask) <<< (8 - lownum)
    let mask := mask <<< (8 - lownum)
    if lownum + offsetbits ≤ 8 then
      let b := b >>> offsetbits
      let mask := ~~~(mask >>> offsetbits)
      array.store offsetBytes ((array.byte offsetBytes &&& mask) ||| b)
    else
      let b2 := (b.setWidth 16 <<< 8) >>> offsetbits
      let mask2 := ~~~((mask.setWidth 16 <<< 8) >>> offsetbits)
      let array := array.store offsetBytes
        ((array.byte offsetBytes &&& (mask2 >>> 8).setWidth 8) ||| (b2 >>> 8).setWidth 8)
      array.store (offsetBytes + 1)
        ((array.byte (offsetBytes + 1) &&& mask2.setWidth 8) ||| b2.setWidth 8)

/-- `setBits` for a number of 64 bits: its last bytes, and the offsets as they are moved. -/
def setNumber (b : BitVec 64) (lownum offsetBytes offsetbits : Nat) :
    ByteArray :=
  if array.size < lownum / 8 + offsetBytes then array
  else
    let «to» := (lownum + 7) / 8
    ((List.range' (8 - «to») «to»).foldl
      (fun (state : ByteArray × Nat × Nat) i =>
        let (array, offsetBytes, offsetbits) := state
        if i = 0 ∧ 0 < lownum % 8 then
          let bits := lownum % 8
          let array :=
            array.setBits ((b >>> ((«to» - 1) * 8)).setWidth 8) bits offsetBytes offsetbits
          if 8 < offsetbits + bits then (array, offsetBytes + 1, (offsetbits + bits) % 8)
          else (array, offsetBytes, offsetbits + bits)
        else
          (array.setBits (((b <<< (i * 8)) >>> 56).setWidth 8) 8 offsetBytes offsetbits,
            offsetBytes + 1, offsetbits))
      (array, offsetBytes, offsetbits)).1

/-- `setBits` for a string. -/
def setText (text : List UInt8) (offsetBytes offsetbits : Nat) : ByteArray :=
  if array.size < text.length + offsetBytes then array
  else
    (text.foldl
      (fun (state : ByteArray × Nat) cur =>
        (state.1.setBits cur.toBitVec 8 state.2 offsetbits, state.2 + 1))
      (array, offsetBytes)).1

variable (num offsetBytes offsetbits : Nat)

def getBits8OrLess : BitVec 8 :=
  if 8 < num then 0
  else if num + offsetbits ≤ 8 then (array.byte offsetBytes <<< offsetbits) >>> (8 - num)
  else
    (((array.byte offsetBytes <<< offsetbits) >>> offsetbits) <<< (num - (8 - offsetbits))) |||
      (array.byte (offsetBytes + 1) >>> (16 - num - offsetbits))

def getBits : BitVec 64 :=
  ((List.range ((num + 7) / 8)).foldl
    (fun (state : BitVec 64 × Nat × Nat) i =>
      let (res, offsetBytes, offsetbits) := state
      if i = 0 ∧ 0 < num % 8 then
        let bits := num % 8
        let res := (array.getBits8OrLess bits offsetBytes offsetbits).setWidth 64
        if 8 < offsetbits + bits then (res, offsetBytes + 1, (offsetbits + bits) % 8)
        else (res, offsetBytes, offsetbits + bits)
      else
        ((res <<< 8) ||| (array.getBits8OrLess 8 offsetBytes offsetbits).setWidth 64,
          offsetBytes + 1, offsetbits))
    (0, offsetBytes, offsetbits)).1

def getText : List UInt8 :=
  if array.size < num + offsetBytes then []
  else (List.range num).map fun i =>
    UInt8.ofBitVec (array.getBits8OrLess 8 (offsetBytes + i) offsetbits)

section

variable {array : ByteArray} {offset : Nat}

theorem setBits_byte (b : BitVec 8) (hi : offset < array.size) :
    array.setBits b 8 offset 0 = array.store offset b := by
  have mask : (getLowMask 8).setWidth 8 = allOnes 8 := by decide
  rw [setBits, if_neg (by omega), if_neg (by omega), if_neg (by omega)]
  simp only [mask, Nat.sub_self, shiftLeft_zero, ushiftRight_zero, and_allOnes,
    not_allOnes, and_zero, zero_or, Nat.le_refl, if_true]

theorem setText_eq (text : List UInt8) (fits : offset + text.length ≤ array.size) :
    array.setText text offset 0 = { array with data := array.data.memcpy offset text } := by
  rw [setText, if_neg (by omega)]
  induction text generalizing array offset with
  | nil => simp
  | cons cur later ih =>
    rw [List.length_cons] at fits
    have rest := @ih (array.store offset cur.toBitVec) (offset + 1)
      (show offset + 1 + later.length ≤ array.size by omega)
    rw [List.foldl_cons, setBits_byte _ (show offset < array.size by omega), rest,
      ← List.singleton_append, View.memcpy_append]
    rfl

theorem getBits8OrLess_byte : array.getBits8OrLess 8 offset 0 = array.byte offset := by
  simp [getBits8OrLess]

theorem getBits8OrLess_bit {i : Nat} (low : i < 8) :
    array.getBits8OrLess 1 offset i = if (array.byte offset).getLsbD (7 - i) then 1 else 0 := by
  rw [getBits8OrLess, if_neg (by decide), if_pos (by omega)]
  apply eq_of_getLsbD_eq
  intro j hi
  rw [getLsbD_ushiftRight, getLsbD_shiftLeft]
  by_cases zero : j = 0
  · subst zero
    have hu : ¬ 7 < i := by omega
    cases bit : (array.byte offset).getLsbD (7 - i) with
    | true => simp [hu]
    | false => simp
  · have high : ¬ 8 - 1 + j < 8 := by omega
    have one : (1#8).getLsbD j = false := by
      simp [zero]
    rw [decide_eq_false high, Bool.false_and]
    split
    · exact one.symm
    · exact getLsbD_zero.symm

theorem setNumber_two (b : BitVec 64) (hi : offset + 2 ≤ array.size) :
    array.setNumber b 16 offset 0 =
      (array.store offset ((b >>> 8).setWidth 8)).store (offset + 1) (b.setWidth 8) := by
  have high : ((b <<< 48) >>> 56).setWidth 8 = (b >>> 8).setWidth 8 := by
    apply eq_of_getLsbD_eq
    intro i hi
    have moved : 56 + i - 48 = 8 + i := by omega
    simp only [getLsbD_setWidth, getLsbD_ushiftRight, getLsbD_shiftLeft, moved,
      show 56 + i < 64 by omega, show ¬ 56 + i < 48 by omega, decide_true, decide_false,
      Bool.not_false, Bool.true_and]
  have low : ((b <<< 56) >>> 56).setWidth 8 = b.setWidth 8 := by
    apply eq_of_getLsbD_eq
    intro i hi
    have moved : 56 + i - 56 = i := by omega
    simp only [getLsbD_setWidth, getLsbD_ushiftRight, getLsbD_shiftLeft, moved,
      show 56 + i < 64 by omega, show ¬ 56 + i < 56 by omega, decide_true, decide_false,
      Bool.not_false, Bool.true_and]
  have first := @setBits_byte array offset (((b <<< 48) >>> 56).setWidth 8) (by omega)
  have second := @setBits_byte (array.store offset (((b <<< 48) >>> 56).setWidth 8)) (offset + 1)
    (((b <<< 56) >>> 56).setWidth 8) hi
  rw [setNumber, if_neg (by omega)]
  change ((array.setBits _ 8 offset 0).setBits _ 8 (offset + 1) 0) = _
  rw [first, second, high, low]

theorem getBits_two : array.getBits 16 offset 0 =
    ((array.byte offset).setWidth 64 <<< 8) ||| (array.byte (offset + 1)).setWidth 64 := by
  change (((0 <<< 8) ||| (array.getBits8OrLess 8 offset 0).setWidth 64) <<< 8) |||
    (array.getBits8OrLess 8 (offset + 1) 0).setWidth 64 = _
  rw [getBits8OrLess_byte, getBits8OrLess_byte]
  simp

end

end ByteArray

end Blackadder.Qos
