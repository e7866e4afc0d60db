import Mathlib.Algebra.Group.Nat.Defs

/-!
Numbers as bytes in the order of a little-endian host, the least significant byte first.
-/

namespace LittleEndian

open UInt8 Nat

/-- The first `count` bytes of a number. -/
def encode : Nat → Nat → List UInt8
  | 0, _ => []
  | count + 1, value => UInt8.ofNat value :: encode count (value / 256)

def decode : List UInt8 → Nat
  | [] => 0
  | byte :: rest => byte.toNat + 256 * decode rest

@[simp] theorem length_encode (count val : Nat) : (encode count val).length = count := by
  induction count generalizing val with
  | zero => rfl
  | succ count ih => rw [encode, List.length_cons, ih]

theorem decode_encode (count val : Nat) : decode (encode count val) = val % 256 ^ count := by
  induction count generalizing val with
  | zero => rw [pow_zero, mod_one]; rfl
  | succ count ih =>
    have low : (ofNat val).toNat = val % 256 := toNat_ofNat'
    rw [encode, decode, ih, low, pow_succ', mod_mul]

theorem encode_add (count more val : Nat) :
    encode (count + more) val = encode count val ++ encode more (val / 256 ^ count) := by
  induction count generalizing val with
  | zero => rw [Nat.zero_add, pow_zero, Nat.div_one]; rfl
  | succ count ih =>
    rw [Nat.add_right_comm, encode, ih, pow_succ', Nat.div_div_eq_div_mul]
    rfl

theorem encode_mod (count val : Nat) : encode count (val % 256 ^ count) = encode count val := by
  induction count generalizing val with
  | zero => rfl
  | succ count ih =>
    have low : ofNat (val % 256 ^ (count + 1)) = ofNat val := by
      apply UInt8.toNat_inj.mp
      rw [pow_succ']
      exact mod_mul_right_mod val 256 (256 ^ count)
    rw [encode, encode, low, pow_succ', mod_mul_right_div_self, ih]

theorem encode_words (size count val : Nat) : encode (size * count) val =
    (List.range count).flatMap fun i => encode size (val / 256 ^ (size * i)) := by
  induction count with
  | zero => rfl
  | succ count ih =>
    rw [mul_succ, encode_add, ih, List.range_succ]
    simp

theorem zipWith_and_encode (count val mask : Nat) :
    List.zipWith (· &&& ·) (encode count val) (encode count mask) =
      encode count (val &&& mask) := by
  induction count generalizing val mask with
  | zero => rfl
  | succ count ih =>
    have low : ofNat val &&& ofNat mask = ofNat (val &&& mask) := (ofNat_and val mask).symm
    have high : val / 256 &&& mask / 256 = (val &&& mask) / 256 :=
      (@and_div_two_pow val mask 8).symm
    rw [encode, encode, encode, List.zipWith_cons_cons, low, ih, high]

theorem encode_inj {count val other : Nat} (hs : val < 256 ^ count)
    (hs' : other < 256 ^ count) (same : encode count val = encode count other) : val = other := by
  have decoded := congrArg decode same
  rwa [decode_encode, decode_encode, mod_eq_of_lt hs, mod_eq_of_lt hs'] at decoded

end LittleEndian
