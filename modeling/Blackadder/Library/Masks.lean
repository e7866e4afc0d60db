import Mathlib.Init

/-!
Bit vectors as sets of bits: the test `set & mask == mask`, unions, and the text of a bit vector
with its most significant bit first.
-/

namespace Masks

open BitVec Bool

variable {w : Nat} {set mask other : BitVec w}

/-- All bits of the mask are in the set. -/
def Covers (set mask : BitVec w) : Prop := set &&& mask = mask

instance (set mask : BitVec w) : Decidable (Covers set mask) :=
  inferInstanceAs (Decidable (set &&& mask = mask))

theorem covers_iff : Covers set mask ↔ ∀ i, mask.getLsbD i = true → set.getLsbD i = true := by
  constructor
  · intro hc i hi
    have bit := congrArg (fun bits => bits.getLsbD i) hc
    simpa [hi] using bit
  · intro hi
    apply eq_of_getLsbD_eq
    intro i _
    rw [getLsbD_and]
    cases bit : mask.getLsbD i with
    | false => rw [Bool.and_false]
    | true => rw [hi i bit, Bool.and_self]

theorem covers_self (set : BitVec w) : Covers set set := and_self

theorem covers_or_left (set other : BitVec w) : Covers (set ||| other) set := by
  rw [covers_iff]
  intro i hi
  rw [getLsbD_or, hi, Bool.true_or]

theorem covers_or_right (set other : BitVec w) : Covers (set ||| other) other := by
  rw [BitVec.or_comm]
  exact covers_or_left other set

theorem covers_or_iff : Covers set (mask ||| other) ↔ Covers set mask ∧ Covers set other := by
  simp only [covers_iff, getLsbD_or, or_eq_true]
  constructor
  · intro both
    exact ⟨fun i hi => both i (.inl hi), fun i hi => both i (.inr hi)⟩
  · rintro ⟨first, second⟩ i (hi | hi)
    · exact first i hi
    · exact second i hi

theorem Covers.trans (wide : Covers set mask) (narrow : Covers mask other) : Covers set other := by
  rw [covers_iff] at wide narrow ⊢
  exact fun i hi => wide i (narrow i hi)

/-- The bits of all members of a list. -/
def union (masks : List (BitVec w)) : BitVec w := masks.foldr (· ||| ·) 0

@[simp] theorem union_nil : union ([] : List (BitVec w)) = 0 := rfl

@[simp] theorem union_cons (mask : BitVec w) (masks : List (BitVec w)) :
    union (mask :: masks) = mask ||| union masks := rfl

theorem union_append (masks others : List (BitVec w)) :
    union (masks ++ others) = union masks ||| union others := by
  induction masks with
  | nil => simp
  | cons _ _ ih => rw [List.cons_append, union_cons, union_cons, ih, BitVec.or_assoc]

theorem getLsbD_union {masks : List (BitVec w)} {i : Nat} :
    (union masks).getLsbD i = true ↔ ∃ mask ∈ masks, mask.getLsbD i = true := by
  induction masks with
  | nil => simp
  | cons _ _ ih =>
    rw [union_cons, getLsbD_or, or_eq_true, ih]
    simp

/-- A loop over the characters of a text, of which the first is the most significant bit. -/
def setBits (bits : BitVec w) (text : Vector Bool w) : BitVec w :=
  (List.finRange w).foldl
    (fun bits k => if text[k] then bits ||| BitVec.twoPow w (w - k - 1) else bits) bits

def ofText (text : Vector Bool w) : BitVec w := setBits 0 text

def toText (bits : BitVec w) : Vector Bool w :=
  Vector.ofFn fun i => bits.getLsbD (w - i - 1)

theorem getLsbD_foldl_setBits (text : Vector Bool w) (places : List (Fin w)) (bits : BitVec w)
    (i : Nat) : (places.foldl
      (fun bits k => if text[k] then bits ||| twoPow w (w - k - 1) else bits) bits).getLsbD i =
      (bits.getLsbD i || places.any fun k => text[k] && decide (i = w - k - 1)) := by
  induction places generalizing bits with
  | nil => simp
  | cons first rest ih =>
    rw [List.foldl_cons, ih, List.any_cons, ← Bool.or_assoc]
    congr 1
    split
    · rename_i one
      rw [getLsbD_or, one]
      congr 1
      by_cases here : i = w - first - 1
      · simp [here]
        omega
      · simp [here, eq_comm]
    · rename_i zero
      rw [not_eq_true] at zero
      rw [zero, Bool.false_and, Bool.or_false]

theorem getLsbD_setBits (bits : BitVec w) (text : Vector Bool w) (k : Fin w) :
    (setBits bits text).getLsbD (w - k - 1) = (bits.getLsbD (w - k - 1) || text[k]) := by
  rw [setBits, getLsbD_foldl_setBits]
  congr 1
  rw [Bool.eq_iff_iff, List.any_eq_true]
  constructor
  · rintro ⟨j, -, hf⟩
    rw [and_eq_true, decide_eq_true_iff] at hf
    have hs : j = k := by
      omega
    rw [← hs]
    exact hf.1
  · intro one
    exact ⟨k, List.mem_finRange k, by rw [one, decide_eq_true rfl, Bool.and_self]⟩

theorem setBits_eq_or (bits : BitVec w) (text : Vector Bool w) :
    setBits bits text = bits ||| ofText text := by
  apply eq_of_getLsbD_eq
  intro i hi
  have place : w - (w - i - 1) - 1 = i := by omega
  have left := getLsbD_setBits bits text ⟨w - i - 1, by omega⟩
  have right := getLsbD_setBits 0 text ⟨w - i - 1, by omega⟩
  simp only [place] at left right
  rw [getLsbD_or, left, ofText, right]
  simp

theorem toText_ofText (text : Vector Bool w) : toText (ofText text) = text := by
  apply Vector.ext
  intro i hi
  have bit := getLsbD_setBits 0 text ⟨i, hi⟩
  simp only [toText, Vector.getElem_ofFn, ofText]
  rw [bit]
  simp

theorem ofText_toText (bits : BitVec w) : ofText (toText bits) = bits := by
  apply eq_of_getLsbD_eq
  intro i hi
  have place : w - (w - i - 1) - 1 = i := by omega
  have bit := getLsbD_setBits 0 (toText bits) ⟨w - i - 1, by omega⟩
  simp only [place] at bit
  rw [ofText, bit]
  simp [toText, place]

/-- The number that a text of binary digits stands for, read from the left. -/
def value (text : Vector Bool w) : BitVec w := (BitVec.ofBoolListBE text.toList).cast (by simp)

theorem ofText_eq_value (text : Vector Bool w) : ofText text = value text := by
  apply eq_of_getLsbD_eq
  intro i hi
  have bit := getLsbD_setBits 0 text ⟨w - i - 1, by omega⟩
  have place : w - (w - i - 1) - 1 = i := by omega
  simp only [place] at bit
  rw [ofText, bit, value]
  simp [hi, Nat.sub_sub, Nat.add_comm]

end Masks
