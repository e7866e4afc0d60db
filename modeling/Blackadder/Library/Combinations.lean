import Mathlib.Algebra.Order.Group.Nat
import Mathlib.Data.Nat.Choose.Basic

/-!
The subsets of the first numbers as the bits of a counter, how many there are of each size, and
numbers that are given out by size in the order of the counter.
-/

namespace Combinations

open List Nat Function

/-- The positions of the ones among the first bits of a number. -/
def positions (n j : Nat) : List Nat := (List.range n).filter j.testBit

def size (n j : Nat) : Nat := (positions n j).length

theorem size_le (n j : Nat) : size n j ≤ n := by
  have hs := length_filter_le j.testBit (List.range n)
  rwa [length_range] at hs

variable {n j : Nat}

theorem size_succ_low (low : j < 2 ^ n) : size (n + 1) j = size n j := by
  rw [size, size, positions, range_succ, filter_append,
    filter_cons_of_neg (by rw [testBit_lt_two_pow low]; decide), filter_nil, append_nil, positions]

theorem size_succ_high (low : j < 2 ^ n) : size (n + 1) (2 ^ n + j) = size n j + 1 := by
  have hs : (List.range n).filter (2 ^ n + j).testBit = (List.range n).filter j.testBit := by
    apply filter_congr
    intro k hm
    exact testBit_two_pow_add_gt (mem_range.mp hm) j
  have set : (2 ^ n + j).testBit n = true := by
    rw [testBit_two_pow_add_eq, testBit_lt_two_pow low]
    rfl
  rw [size, size, positions, range_succ, filter_append, filter_cons_of_pos set,
    filter_nil, hs, length_append, length_singleton, positions]

theorem countP_size (n s : Nat) :
    (List.range (2 ^ n)).countP (fun j => size n j = s) = n.choose s := by
  induction n generalizing s with
  | zero =>
    cases s with
    | zero => rfl
    | succ s => rfl
  | succ n ih =>
    have double : 2 ^ (n + 1) = 2 ^ n + 2 ^ n := by rw [pow_succ]; omega
    have low : (List.range (2 ^ n)).countP (fun j => size (n + 1) j = s) = n.choose s := by
      rw [← ih s]
      apply countP_congr
      intro j hm
      rw [size_succ_low (mem_range.mp hm)]
    have high : ((List.range (2 ^ n)).map (2 ^ n + ·)).countP (fun j => size (n + 1) j = s) =
        (List.range (2 ^ n)).countP (fun j => size n j + 1 = s) := by
      rw [countP_map]
      apply countP_congr
      intro j hm
      rw [comp_apply, size_succ_high (mem_range.mp hm)]
    rw [double, range_add, countP_append, low, high]
    cases s with
    | zero =>
      have none : (List.range (2 ^ n)).countP (fun j => size n j + 1 = 0) = 0 := by
        simp
      rw [none, choose_zero_right, choose_zero_right]
    | succ s =>
      have fewer : (List.range (2 ^ n)).countP (fun j => size n j + 1 = s + 1) = n.choose s := by
        rw [← ih s]
        apply countP_congr
        simp
      rw [fewer, choose_succ_succ, add_comm]

theorem exists_positions (n : Nat) (p : Nat → Bool) :
    ∃ j < 2 ^ n, positions n j = (List.range n).filter p := by
  refine ⟨ofBits fun k : Fin n => p k, ofBits_lt_two_pow _, ?_⟩
  apply filter_congr
  intro k hm
  exact testBit_ofBits_lt _ k (mem_range.mp hm)

theorem eq_zero_of_size (low : j < 2 ^ n) (he : size n j = 0) : j = 0 := by
  apply eq_of_testBit_eq
  intro k
  rw [zero_testBit]
  by_cases hi : k < n
  · have none := filter_eq_nil_iff.mp (length_eq_zero_iff.mp he) k (mem_range.mpr hi)
    exact Bool.eq_false_iff.mpr none
  · exact Nat.testBit_lt_two_pow (low.trans_le (Nat.pow_le_pow_right (by decide) (by omega)))

theorem countP_nonempty (n k : Nat) :
    (List.range' 1 (2 ^ n - 1)).countP (fun j => size n j - 1 = k) = n.choose (k + 1) := by
  have hp : 0 < 2 ^ n := Nat.two_pow_pos n
  have all : List.range (2 ^ n) = 0 :: List.range' 1 (2 ^ n - 1) := by
    conv_lhs => rw [range_eq_range', ← Nat.sub_add_cancel hp, List.range'_succ]
  have he : size n 0 = 0 := by
    rw [size, positions, filter_eq_nil_iff.mpr]
    · rfl
    · simp
  have count := countP_size n (k + 1)
  rw [all, countP_cons_of_neg (by simp [he])] at count
  rw [← count]
  apply countP_congr
  intro j hm
  have hi := mem_range'_1.mp hm
  have some : size n j ≠ 0 := fun none =>
    absurd (eq_zero_of_size (by omega) none) (by omega)
  simp only [decide_eq_true_eq]
  omega

theorem le_choose {k : Nat} (hp : 0 < k) (less : k < n) : n ≤ n.choose k := by
  induction n generalizing k with
  | zero => cases less
  | succ n ih =>
    cases k with
    | zero => cases hp
    | succ k =>
      by_cases last : k + 1 = n
      · subst last
        rw [choose_succ_self_right]
      have others := ih (succ_pos k) (show k + 1 < n by omega)
      have some : 0 < n.choose k := choose_pos (by omega)
      change n ≤ n.choose (k + 1) at others
      change n + 1 ≤ n.choose k + n.choose (k + 1)
      omega

/-- There are at least as many small subsets as their size times the members, or all of them. -/
theorem le_countP_small (hp : 0 < n) (m : Nat) : min (m * n) (2 ^ n - 1) ≤
      (List.range' 1 (2 ^ n - 1)).countP (fun j => size n j - 1 < m) := by
  by_cases large : n ≤ m
  · have all : (List.range' 1 (2 ^ n - 1)).countP (fun j => size n j - 1 < m) = 2 ^ n - 1 := by
      have every : ∀ j ∈ List.range' 1 (2 ^ n - 1), decide (size n j - 1 < m) = true := by
        intro j _
        have hb := size_le n j
        simp only [decide_eq_true_eq]
        omega
      rw [countP_eq_length.mpr every, length_range']
    rw [all]
    exact min_le_right _ _
  · apply (min_le_left _ _).trans
    induction m with
    | zero =>
      rw [Nat.zero_mul]
      exact zero_le _
    | succ m ih =>
      have next := le_choose (succ_pos m) (show m + 1 < n by omega)
      rw [← countP_nonempty] at next
      have split : (List.range' 1 (2 ^ n - 1)).countP (fun j => size n j - 1 < m + 1) =
          (List.range' 1 (2 ^ n - 1)).countP (fun j => size n j - 1 < m) +
            (List.range' 1 (2 ^ n - 1)).countP (fun j => size n j - 1 = m) := by
        generalize List.range' 1 (2 ^ n - 1) = list
        induction list with
        | nil => rfl
        | cons =>
          simp only [countP_cons, decide_eq_true_eq]
          split <;> split <;> split <;> omega
      rw [succ_mul]
      omega

section

variable {α : Type} (key : α → Nat)

/-- Numbers from a counter for each key. -/
def handOut : (Nat → Nat) → List α → List (α × Nat)
  | _, [] => []
  | counter, first :: later =>
    (first, counter (key first)) ::
      handOut (Function.update counter (key first) (counter (key first) + 1)) later

variable {key} {cnt low : Nat → Nat} {list : List α} {a : α} {num : Nat}

theorem map_fst_handOut : (handOut key cnt list).map Prod.fst = list := by
  induction list generalizing cnt with
  | nil => rfl
  | cons _ _ ih => rw [handOut, map_cons, ih]

theorem mem_handOut : (a, num) ∈ handOut key cnt list ↔
    ∃ before after, list = before ++ a :: after ∧
      num = cnt (key a) + before.countP (fun b => key b = key a) := by
  induction list generalizing cnt with
  | nil => simp [handOut]
  | cons first later ih =>
    rw [handOut, mem_cons, ih]
    constructor
    · intro hg
      rcases hg with hs | ⟨before, after, rfl, rfl⟩
      · cases hs
        exact ⟨[], later, rfl, rfl⟩
      refine ⟨first :: before, after, rfl, ?_⟩
      rw [countP_cons, update_apply]
      by_cases hs : key a = key first
      · simp only [hs, if_true, decide_true]
        omega
      · simp [hs, Ne.symm hs]
    · rintro ⟨before, after, split, rfl⟩
      cases before with
      | nil =>
        cases split
        exact .inl rfl
      | cons head before =>
        cases split
        refine .inr ⟨before, after, rfl, ?_⟩
        rw [countP_cons, update_apply]
        by_cases hs : key a = key first
        · simp only [hs, if_true, decide_true]
          omega
        · simp [hs, Ne.symm hs]

theorem number_bounds (hg : (a, num) ∈ handOut key cnt list) : cnt (key a) ≤ num ∧
      num < cnt (key a) + list.countP (fun b => key b = key a) := by
  obtain ⟨before, after, rfl, rfl⟩ := mem_handOut.mp hg
  simp only [countP_append, countP_cons, decide_true, if_true]
  omega

/-- The numbers are different if the counters of the keys keep to ranges of their own. -/
theorem nodup_handOut (ranges : ∀ k, low k ≤ cnt k ∧
      cnt k + list.countP (fun b => key b = k) ≤ low (k + 1)) :
    ((handOut key cnt list).map Prod.snd).Nodup := by
  have growing : Monotone low := monotone_nat_of_le_succ fun k => by
    have range := ranges k
    omega
  induction list generalizing cnt with
  | nil => exact nodup_nil
  | cons first later ih =>
    have rest : ∀ k, low k ≤ update cnt (key first) (cnt (key first) + 1) k ∧
        update cnt (key first) (cnt (key first) + 1) k +
          later.countP (fun b => key b = k) ≤ low (k + 1) := by
      intro k
      have range := ranges k
      rw [countP_cons] at range
      rw [update_apply]
      by_cases hs : k = key first
      · simp only [hs, if_true, decide_true] at range ⊢
        omega
      · simp only [hs, if_false] at range ⊢
        omega
    rw [handOut, map_cons, nodup_cons]
    refine ⟨?_, ih rest⟩
    intro ha
    obtain ⟨⟨b, num⟩, hg, hs⟩ := mem_map.mp ha
    obtain ⟨least, most⟩ := number_bounds hg
    have own := ranges (key first)
    have other := rest (key b)
    rw [countP_cons, if_pos (decide_eq_true rfl)] at own
    rcases lt_trichotomy (key b) (key first) with less | heq | more
    · have order : low (key b + 1) ≤ low (key first) := growing less
      omega
    · rw [heq, update_self] at least
      omega
    · have order : low (key first + 1) ≤ low (key b) := growing more
      omega

/-- For every number below the count there is a member with as many before it. -/
theorem exists_rank {p : α → Bool} {r : Nat} (few : r < list.countP p) :
    ∃ before a after, list = before ++ a :: after ∧ p a = true ∧ before.countP p = r := by
  induction list generalizing r with
  | nil => cases few
  | cons first later ih =>
    cases here : p first with
    | false =>
      rw [countP_cons_of_neg (by simp [here])] at few
      obtain ⟨before, a, after, rfl, hh, count⟩ := ih few
      refine ⟨first :: before, a, after, rfl, hh, ?_⟩
      rw [countP_cons_of_neg (by simp [here]), count]
    | true =>
      cases r with
      | zero => exact ⟨[], first, later, rfl, here, rfl⟩
      | succ r =>
        rw [countP_cons_of_pos here] at few
        obtain ⟨before, a, after, rfl, hh, count⟩ := ih (lt_of_succ_lt_succ few)
        refine ⟨first :: before, a, after, rfl, hh, ?_⟩
        rw [countP_cons_of_pos here, count]

end

end Combinations
