import Mathlib.Data.UInt

namespace Blackadder.Ltp

open List

/-- `forward_list::resize` cuts the list, or fills it up with zeros. -/
def resize (size : Nat) (rtts : List UInt16) : List UInt16 :=
  rtts.take size ++ replicate (size - rtts.length) 0

/-- A time of 0 ms is counted as 1 ms. -/
def counted (rtt : UInt16) : UInt16 := if rtt = 0 then 1 else rtt

/-- `_rtt(rtt)`. -/
def setRtt (ltpRttListSize : UInt32) (rtts : List UInt16) (rtt : UInt16) : List UInt16 :=
  counted rtt :: resize ltpRttListSize.toNat rtts

/-- `_rtt()`. -/
def rtt (ltpRttListSize : UInt32) (rtts : List UInt16) : UInt16 :=
  (rtts.foldl (fun rtt it => rtt + it.toUInt32) 0 / ltpRttListSize).toUInt16

/-- The loop of the constructor, which counts with 16 bits, if it ends within these rounds. -/
def fillRtts (ltpRttListSize : UInt32) : Nat → UInt16 → List UInt16 → Option (List UInt16)
  | 0, _, _ => none
  | rounds + 1, rttListSize, rtts =>
    if rttListSize.toUInt32 < ltpRttListSize then
      fillRtts ltpRttListSize rounds (rttListSize + 1) (200 :: rtts)
    else some rtts

variable (size : UInt32) (start reports : List UInt16)

/-- The list after these reports. -/
def retained : List UInt16 := reports.foldl (setRtt size) start

/-- The times that have been reported last, one more than the list is meant to have. -/
def latest : List UInt16 := (reports.map counted).reverse.take (size.toNat + 1)

def total (rtts : List UInt16) : Nat := (rtts.map UInt16.toNat).sum

theorem lt_of_fillRtts {rounds : Nat} {cnt : UInt16} {rtts filled : List UInt16}
    (ends : fillRtts size rounds cnt rtts = some filled) : size.toNat < 2 ^ 16 := by
  induction rounds generalizing cnt rtts with
  | zero => cases ends
  | succ rounds ih =>
    rw [fillRtts] at ends
    split at ends
    · exact ih ends
    · rename_i last
      have := cnt.toNat_lt
      rw [UInt32.lt_iff_toNat_lt, UInt16.toNat_toUInt32] at last
      omega

/-- What is left of the times at the start lies behind all that have been reported. -/
theorem resize_retained : resize size.toNat (retained size start reports) =
      ((reports.map counted).reverse ++ resize size.toNat start).take size.toNat := by
  induction reports using reverseRecOn with
  | nil =>
    rw [retained, map_nil, reverse_nil, nil_append, foldl_nil, take_of_length_le]
    simp [resize]
    omega
  | append_singleton reports rtt ih =>
    rw [retained] at ih
    rw [retained, foldl_append, foldl_cons, setRtt, ih]
    generalize size.toNat = size
    cases size with
    | zero => rfl
    | succ size =>
      simp [resize, take_take]
      omega

/-- Once the list has been filled, it has one time more than it is meant to have. -/
theorem retained_eq_latest (hm : size.toNat < reports.length) :
    retained size start reports = latest size reports := by
  cases reports using reverseRecOn with
  | nil => simp at hm
  | append_singleton reports rtt =>
    have := resize_retained size start reports
    rw [retained] at this
    simp only [length_append, length_singleton] at hm
    rw [retained, foldl_append, foldl_cons, setRtt, this, latest,
      take_append_of_le_length (by simp; omega)]
    simp

theorem toNat_foldl_add (rtts : List UInt16) (start : UInt32) :
    (rtts.foldl (fun rtt it => rtt + it.toUInt32) start).toNat =
      (start.toNat + total rtts) % 2 ^ 32 := by
  induction rtts generalizing start with
  | nil => simp [total]
  | cons rtt rtts ih =>
    rw [foldl_cons, ih]
    simp [total, Nat.add_assoc]

theorem total_le_length (rtts : List UInt16) : total rtts ≤ rtts.length * 65535 := by
  induction rtts with
  | nil => simp [total]
  | cons rtt rtts ih =>
    have := rtt.toNat_lt
    simp only [total, map_cons, sum_cons, length_cons] at ih ⊢
    omega

theorem total_le {rtts : List UInt16} {low : UInt16} (hm : low ∈ rtts) :
    total rtts + 65535 ≤ low.toNat + rtts.length * 65535 := by
  induction rtts with
  | nil => cases hm
  | cons rtt rtts ih =>
    have := rtt.toNat_lt
    have := total_le_length rtts
    simp only [total, map_cons, sum_cons, length_cons] at ih this ⊢
    rcases mem_cons.mp hm with rfl | hm
    · omega
    · have := ih hm
      omega

/-- One of the times is not above their mean. -/
theorem exists_low {rtts : List UInt16} (some : rtts ≠ []) :
    ∃ low ∈ rtts, rtts.length * low.toNat ≤ total rtts := by
  induction rtts with
  | nil => contradiction
  | cons rtt rtts ih =>
    by_cases last : rtts = []
    · exact ⟨rtt, mem_cons_self, by simp [last, total]⟩
    obtain ⟨low, hm, mean⟩ := ih last
    simp only [total, map_cons, sum_cons, length_cons, Nat.add_mul, Nat.one_mul] at mean ⊢
    by_cases less : rtt.toNat ≤ low.toNat
    · have := Nat.mul_le_mul_left rtts.length less
      exact ⟨rtt, mem_cons_self, by omega⟩
    · exact ⟨low, mem_cons_of_mem rtt hm, by omega⟩

variable {size reports start} {rounds : Nat}

/-- The sum of k + 1 times is divided by k, and this has to be less than one above the largest. -/
theorem rtt_between_iff (positive : 1 ≤ size.toNat)
    (starts : fillRtts size rounds 0 [] = some start) (many : size.toNat + 1 ≤ reports.length) :
    (∃ low ∈ retained size start reports, ∃ high ∈ retained size start reports,
      low ≤ rtt size (retained size start reports) ∧
      rtt size (retained size start reports) ≤ high) ↔
    ∃ high ∈ latest size reports, total (latest size reports) < size.toNat * (high.toNat + 1) := by
  rw [retained_eq_latest size start reports many]
  have len : (latest size reports).length = size.toNat + 1 := by
    simp [latest]
    omega
  have whole : total (latest size reports) < 2 ^ 32 := by
    have := total_le_length (latest size reports)
    have := lt_of_fillRtts size starts
    omega
  have mean : (rtt size (latest size reports)).toNat =
      total (latest size reports) / size.toNat % 2 ^ 16 := by
    rw [← Nat.mod_eq_of_lt whole]
    simp [rtt, toNat_foldl_add]
  -- a quotient of more than 16 bits is above all the times, and its low bits are below them
  have wide : ∀ low ∈ latest size reports,
      total (latest size reports) / size.toNat ≤ low.toNat + 65535 := by
    intro low hl
    have most := total_le hl
    have more := Nat.le_mul_of_pos_left low.toNat positive
    apply Nat.div_le_of_le_mul
    rw [Nat.mul_add]
    omega
  simp only [UInt16.le_iff_toNat_le, mean, Nat.mul_comm size.toNat,
    ← Nat.div_lt_iff_lt_mul positive]
  constructor
  · rintro ⟨low, hl, high, hh, above, below⟩
    have := wide low hl
    exact ⟨high, hh, by omega⟩
  · rintro ⟨high, hh, below⟩
    obtain ⟨low, hl, above⟩ := exists_low (ne_nil_of_mem hh)
    have := high.toNat_lt
    have above : low.toNat ≤ total (latest size reports) / size.toNat := by
      rw [Nat.le_div_iff_mul_le positive, Nat.mul_comm]
      rw [len, Nat.add_mul] at above
      omega
    exact ⟨low, hl, high, hh, by omega, by omega⟩

theorem rtt_between_three : ∃ low ∈ retained 2 [200, 200] [1, 1, 9],
    ∃ high ∈ retained 2 [200, 200] [1, 1, 9], low ≤ rtt 2 (retained 2 [200, 200] [1, 1, 9]) ∧
    rtt 2 (retained 2 [200, 200] [1, 1, 9]) ≤ high :=
  (@rtt_between_iff 2 [200, 200] [1, 1, 9] 3 (by decide) (by decide) (by decide)).mpr (by decide)

/-- The mean of 10 ms and 10 ms is 20 ms. -/
theorem rtt_above_all : fillRtts 1 2 0 [] = some [200] ∧
    retained 1 [200] [10, 10] = [10, 10] ∧ rtt 1 (retained 1 [200] [10, 10]) = 20 := by
  decide

end Blackadder.Ltp
