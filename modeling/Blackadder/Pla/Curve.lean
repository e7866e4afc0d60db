import Mathlib.Algebra.QuadraticAlgebra.Basic
import Mathlib.AlgebraicGeometry.EllipticCurve.Affine.Point
import Mathlib.FieldTheory.Finite.Extension
import Mathlib.FieldTheory.Galois.NormalBasis

/-! The arithmetic of `ec.c`, over any field of characteristic two. The result of an addition of
Lopez-Dahab points takes the place of its first operand. -/

namespace Blackadder.Pla

open QuadraticAlgebra WeierstrassCurve Affine

/-- A field stored by a normal basis, so that squaring rotates the coefficients. -/
structure NormalBasis (F : Type) [Field F] where
  coef : F ≃+ (Fin 163 → ZMod 2)
  coef_square : ∀ a i, coef (a ^ 2) (i + 1) = coef a i

theorem ofNat_succ (i : ℕ) : Fin.ofNat 163 (i + 1) = Fin.ofNat 163 i + 1 := by
  apply Fin.ext
  simp [Fin.val_add]

namespace NormalBasis

variable {F : Type} [Field F] (basis : NormalBasis F) (beta : F)

/-- `prevbit` after the round for an index. -/
def prevbit : ℕ → ZMod 2
  | 0 => 0
  | i + 1 => prevbit i + basis.coef beta (Fin.ofNat 163 (i + 1))

def solveQuad [DecidableEq F] : F :=
  let z := basis.coef.symm fun i => basis.prevbit beta i
  if z ^ 2 + z = beta then z else 0

def compressPoint (x y : F) : ZMod 2 := basis.coef (x⁻¹ * y) 0

def decompressPoint [DecidableEq F] (x : F) (y : ZMod 2) : F × F :=
  let beta := x ^ 2
  let alpha := beta * x + beta + 1
  let beta := alpha * beta⁻¹
  let z := basis.solveQuad beta
  let z := if basis.coef z 0 + y = 1 then z + 1 else z
  (x, z * x)

/-- One is `gnb_one`, with all coefficients, since it is its own square. -/
theorem coef_one (i : Fin 163) : basis.coef 1 i = 1 := by
  have same : ∀ n : ℕ, basis.coef 1 (Fin.ofNat 163 n) = basis.coef 1 0 := by
    intro n
    induction n with
    | zero => rfl
    | succ n ih =>
      have square := basis.coef_square 1 (Fin.ofNat 163 n)
      rwa [one_pow, ih, ← ofNat_succ] at square
  have bits : ∀ c : ZMod 2, c ≠ 0 → c = 1 := by decide
  rw [← Fin.ofNat_val_eq_self i, same]
  refine bits _ fun zero => one_ne_zero' F (basis.coef.injective ?_)
  funext j
  rw [← Fin.ofNat_val_eq_self j, same, zero, map_zero, Pi.zero_apply]

/-- Up to the first coefficient, `prevbit` runs through the coefficients of a root. -/
theorem prevbit_of_root (w : F) {i : ℕ} (hi : i < 163) :
    basis.prevbit (w ^ 2 + w) i = basis.coef w (Fin.ofNat 163 i) + basis.coef w 0 := by
  induction i with
  | zero => exact (CharTwo.add_self_eq_zero _).symm
  | succ i ih =>
    rw [prevbit, ih (by omega), ofNat_succ, map_add, Pi.add_apply, basis.coef_square]
    linear_combination CharTwo.add_self_eq_zero (basis.coef w (Fin.ofNat 163 i))

include basis in
theorem add_one_add_one (w : F) : w + 1 + 1 = w := by
  apply basis.coef.injective
  funext i
  simp only [map_add, Pi.add_apply, basis.coef_one]
  linear_combination CharTwo.add_self_eq_zero (1 : ZMod 2)

/-- Of two roots, the one without the first coefficient is found. -/
theorem solveQuad_of_root [DecidableEq F] (w : F) :
    basis.solveQuad (w ^ 2 + w) = (if basis.coef w 0 = 1 then w + 1 else w) ∧
      basis.solveQuad (w ^ 2 + w) ^ 2 + basis.solveQuad (w ^ 2 + w) = w ^ 2 + w := by
  have found : basis.coef.symm (fun i => basis.prevbit (w ^ 2 + w) i) =
      if basis.coef w 0 = 1 then w + 1 else w := by
    apply basis.coef.injective
    rw [AddEquiv.apply_symm_apply]
    funext i
    rw [basis.prevbit_of_root w i.isLt, Fin.ofNat_val_eq_self]
    split
    · rename_i first
      rw [map_add, Pi.add_apply, basis.coef_one, first]
    · rename_i other
      have bits : ∀ c : ZMod 2, c ≠ 1 → c = 0 := by decide
      rw [bits _ other, add_zero]
  have root : (if basis.coef w 0 = 1 then w + 1 else w) ^ 2 +
      (if basis.coef w 0 = 1 then w + 1 else w) = w ^ 2 + w := by
    split
    · linear_combination (w + 1) * basis.add_one_add_one 0
    · rfl
  rw [solveQuad, found, if_pos root]
  exact ⟨rfl, root⟩

/-- The solver finds a root if there is one, and a point is compressed without loss. -/
theorem compression_invertible [DecidableEq F] :
    (∀ beta, (∃ z, z ^ 2 + z = beta) → basis.solveQuad beta ^ 2 + basis.solveQuad beta = beta) ∧
    (∀ beta, (¬ ∃ z, z ^ 2 + z = beta) → basis.solveQuad beta = 0) ∧
    ∀ x y, x ≠ 0 → y ^ 2 + x * y = x ^ 3 + x ^ 2 + 1 →
      basis.decompressPoint x (basis.compressPoint x y) = (x, y) := by
  refine ⟨?_, ?_, ?_⟩
  · rintro _ ⟨z, rfl⟩
    exact (basis.solveQuad_of_root z).2
  · intro beta none
    exact if_neg fun found => none ⟨_, found⟩
  · intro x y hx curve
    have root : (x ^ 2 * x + x ^ 2 + 1) * (x ^ 2)⁻¹ = (x⁻¹ * y) ^ 2 + x⁻¹ * y := by
      field_simp
      linear_combination -curve
    have own : x⁻¹ * y * x = y := by field_simp
    rw [decompressPoint, root, (basis.solveQuad_of_root _).1, compressPoint]
    by_cases first : basis.coef (x⁻¹ * y) 0 = 1
    · simp [first, basis.coef_one, basis.add_one_add_one, own, CharTwo.add_self_eq_zero]
    · simp [first, CharTwo.add_self_eq_zero, own]

/-- The sum of all coefficients is the trace. -/
theorem sum_coef : ∑ i, basis.coef beta i = basis.coef beta 0 + basis.prevbit beta 162 := by
  have run : ∀ n, basis.prevbit beta n =
      ∑ i ∈ Finset.range n, basis.coef beta (Fin.ofNat 163 (i + 1)) := by
    intro n
    induction n with
    | zero => rfl
    | succ n ih => rw [prevbit, ih, Finset.sum_range_succ]
  rw [run, Fin.sum_univ_succ,
    ← Fin.sum_univ_eq_sum_range (fun i => basis.coef beta (Fin.ofNat 163 (i + 1)))]
  congr 1

theorem sum_coef_square : ∑ i, basis.coef (beta ^ 2) i = ∑ i, basis.coef beta i := by
  rw [← Equiv.sum_comp (Equiv.addRight 1)]
  exact Finset.sum_congr rfl fun i _ => basis.coef_square beta i

theorem exists_root (even : ∑ i, basis.coef beta i = 0) : ∃ z, z ^ 2 + z = beta := by
  generalize hz : basis.coef.symm (fun i => basis.prevbit beta i) = z
  have own : ∀ i, basis.coef z i = basis.prevbit beta i := by
    simp [← hz]
  have bits : ∀ c d : ZMod 2, c + d = 0 → d = c := by decide
  refine ⟨z, basis.coef.injective (funext fun i => ?_)⟩
  rw [map_add, Pi.add_apply, own]
  obtain ⟨_ | k, hk⟩ := i
  · have last := basis.coef_square z 162
    rw [own] at last
    exact (add_zero _).trans (last.trans (bits _ _ (basis.sum_coef beta ▸ even)))
  · have next := basis.coef_square z (Fin.ofNat 163 k)
    have here : Fin.ofNat 163 (k + 1) = ⟨k + 1, hk⟩ := Fin.ext (Nat.mod_eq_of_lt hk)
    rw [own, ← ofNat_succ, here, Fin.val_ofNat, Nat.mod_eq_of_lt (by omega)] at next
    rw [next, prevbit, here]
    linear_combination CharTwo.add_self_eq_zero (basis.prevbit beta k)

include basis in
/-- Of v, v + 1 and v² + v one is the inverse of the x coordinate of a point: the traces of the
three right sides have the sum 0. -/
theorem exists_point : ∃ x y : F, x ≠ 0 ∧ y ^ 2 + x * y = x ^ 3 + x ^ 2 + 1 := by
  have two : (2 : F) = 0 := by linear_combination basis.add_one_add_one 0
  have bits : ∀ c : ZMod 2, c ≠ 0 → c = 1 := by decide
  by_contra none
  have odd (w : F) (hw : w ≠ 0) : ∑ i, basis.coef (w + w⁻¹ + 1) i = 1 := by
    refine bits _ fun even => none ?_
    obtain ⟨z, hz⟩ := basis.exists_root _ even
    refine ⟨w⁻¹, (z + w) * w⁻¹, inv_ne_zero hw, ?_⟩
    field_simp at hz ⊢
    grind
  obtain ⟨v, hv⟩ : ∃ v : F, v ^ 4 ≠ v := by
    refine ⟨basis.coef.symm (Pi.single 0 1), fun same => ?_⟩
    generalize hv : basis.coef.symm (Pi.single 0 1) = v at same
    have first := basis.coef_square v 0
    have second := basis.coef_square (v ^ 2) 1
    rw [← pow_mul, same] at second
    rw [zero_add, ← second, ← hv, AddEquiv.apply_symm_apply] at first
    exact absurd first (by decide)
  have h0 : v ≠ 0 := by grind
  have h1 : v + 1 ≠ 0 := by grind
  have h2 : v ^ 2 + v ≠ 0 := by grind
  have sum : v + v⁻¹ + 1 + (v + 1 + (v + 1)⁻¹ + 1) + (v ^ 2 + v + (v ^ 2 + v)⁻¹ + 1) =
      v ^ 2 + v := by
    field_simp
    grind
  have add (a b : F) : ∑ i, basis.coef (a + b) i = ∑ i, basis.coef a i + ∑ i, basis.coef b i := by
    simp [Finset.sum_add_distrib]
  have total := congrArg (fun a => ∑ i, basis.coef a i) sum
  rw [add (_ + _) (_ + 1), add (v + _ + 1), odd v h0, odd (v + 1) h1, odd (v ^ 2 + v) h2, add,
    sum_coef_square, CharTwo.add_self_eq_zero (∑ i, basis.coef v i)] at total
  exact absurd total (by decide)

open FiniteField in
/-- The powers of the Frobenius automorphism make a normal basis of the field of 2¹⁶³ elements. -/
theorem nonempty_galoisField : Nonempty (NormalBasis (GaloisField 2 163)) := by
  let frob := frobeniusAlgEquivOfAlgebraic (ZMod 2) (GaloisField 2 163)
  have rank : Module.finrank (ZMod 2) (GaloisField 2 163) = 163 := GaloisField.finrank 2 (by decide)
  have order : orderOf frob = 163 := by rw [orderOf_frobeniusAlgEquivOfAlgebraic, rank]
  let places : Fin 163 ≃ Gal(GaloisField 2 163/ZMod 2) :=
    (finCongr rank.symm).trans (.ofBijective _ (bijective_frobeniusAlgEquivOfAlgebraic_pow _ _))
  let basis := (IsGalois.normalBasis (ZMod 2) (GaloisField 2 163)).reindex places.symm
  have turn (j : Fin 163) : frob (basis j) = basis (j + 1) := by
    have next : places (j + 1) = frob * places j := by
      change frob ^ (j + 1).val = frob * frob ^ j.val
      rw [← pow_succ', ← pow_mod_orderOf frob (j.val + 1), order, Fin.val_add]
      rfl
    simp only [basis, Module.Basis.reindex_apply, Equiv.symm_symm, next]
    rw [IsGalois.normalBasis_apply, IsGalois.normalBasis_apply (frob * _)]
    rfl
  refine ⟨basis.equivFun.toAddEquiv, fun a i => ?_⟩
  have same : basis.coord (i + 1) ∘ₗ frob.toLinearMap = basis.coord i :=
    basis.ext fun j => by simp [turn, Finsupp.single_apply]
  have square : a ^ 2 = frob a := by simp [frob]
  rw [square]
  exact congrArg (· a) same

open Classical in
theorem compression_invertible_galoisField :
    ∃ (basis : NormalBasis (GaloisField 2 163)) (x y : GaloisField 2 163), x ≠ 0 ∧
      y ^ 2 + x * y = x ^ 3 + x ^ 2 + 1 ∧
      basis.decompressPoint x (basis.compressPoint x y) = (x, y) := by
  obtain ⟨basis⟩ := nonempty_galoisField
  obtain ⟨x, y, hx, on⟩ := basis.exists_point
  exact ⟨basis, x, y, hx, on, basis.compression_invertible.2.2 x y hx on⟩

end NormalBasis

/-- The integers with a τ such that τ² = τ - 2. -/
abbrev ZTau : Type := QuadraticAlgebra ℤ (-2) 1

def degree : ℕ := 163

/-- The array `U` of `tau_init`. -/
def lucasU : ℕ → ℤ
  | 0 => 0
  | 1 => 1
  | i + 2 => lucasU (i + 1) - 2 * lucasU i

def s0 : ℤ := (1 - lucasU (degree + 3 - 1 - 0)) / 2

def s1 : ℤ := -((1 - lucasU (degree + 3 - 1 - 1)) / 2)

/-- `r0` and `r1`, with what the rounding makes of the quotients. -/
def tauRedMod (q0 q1 n : ℤ) : ZTau :=
  let d0 := s0 + s1
  ⟨n - d0 * q0 - s1 * q1 * 2, s1 * q0 - s0 * q1⟩

/-- The digit that is taken off, which is zero where the code does nothing. -/
def digit (r : ZTau) : ℤ := if r.re % 2 = 1 then 2 - (r.re - r.im * 2) % 4 else 0

def next (r : ZTau) : ZTau := ⟨r.im + (r.re - digit r) / 2, -((r.re - digit r) / 2)⟩

/-- The digits of the loop of `ec_multiply_tau`, if it ends within some rounds. -/
def digits (rounds : ℕ) (r : ZTau) : Option (List ℤ) :=
  if r.re ≠ 0 ∨ r.im ≠ 0 then
    match rounds with
    | 0 => none
    | rounds + 1 => (digits rounds (next r)).map (digit r :: ·)
  else some []

theorem omega_pow_succ (k : ℕ) : (ω : ZTau) ^ (k + 1) = ⟨-2 * lucasU k, lucasU (k + 1)⟩ := by
  induction k with
  | zero => rfl
  | succ k ih =>
    rw [pow_succ', ih, omega_mul_mk, lucasU]
    ext <;> ring

theorem lucasU_odd (k : ℕ) : lucasU (k + 1) % 2 = 1 := by
  induction k with
  | zero => rfl
  | succ k ih =>
    rw [lucasU]
    omega

/-- The element by which a scalar is reduced. -/
theorem modulus_mul : (⟨s0 + s1, -s1⟩ : ZTau) * (ω - 1) = ω ^ 163 - 1 := by
  have h5 : lucasU 165 = lucasU 164 - 2 * lucasU 163 := rfl
  have h4 : lucasU 164 = lucasU 163 - 2 * lucasU 162 := rfl
  have odd : lucasU 163 % 2 = 1 := lucasU_odd 162
  rw [omega_pow_succ 162]
  ext <;> simp [s0, s1, degree] <;> omega

theorem digit_cases (r : ZTau) : (r.re % 2 = 0 ∧ digit r = 0) ∨
    (r.re % 2 = 1 ∧ (digit r = 1 ∨ digit r = -1) ∧ (r.re - digit r) % 4 = r.im * 2 % 4) := by
  rw [digit]
  split <;> omega

theorem omega_mul_next (r : ZTau) : ω * next r + (digit r : ZTau) = r := by
  have := digit_cases r
  rw [next]
  ext
  · simp
    omega
  · simp

/-- Two rounds from a digit on make the norm smaller. -/
theorem norm_lt_of_odd {r final : ZTau} {u : ℤ} (twice : ω * (ω * final) + (u : ZTau) = r)
    (hr : r.re % 2 = 1) (hu : u = 1 ∨ u = -1) (hm : (r.re - u) % 4 = r.im * 2 % 4) :
    final.norm < r.norm := by
  have four : 4 * final.norm = (r - (u : ZTau)).norm := by
    rw [← twice, add_sub_cancel_right, map_mul]
    simp [norm_def]
    ring
  simp [norm_def] at four ⊢
  have square : r.im = 0 ∨ 1 ≤ r.im * r.im := by
    rw [or_iff_not_imp_left]
    exact mul_self_pos.mpr
  rcases hu with rfl | rfl <;> rcases square with hb | hb
  · have far : 1 ≤ r.re ∨ r.re ≤ -3 := by omega
    rcases far with far | far <;> nlinarith
  · nlinarith [sq_nonneg (3 * (2 * r.re + r.im) + 2)]
  · have far : 3 ≤ r.re ∨ r.re ≤ -1 := by omega
    rcases far with far | far <;> nlinarith
  · nlinarith [sq_nonneg (3 * (2 * r.re + r.im) - 2)]

theorem digit_next {r : ZTau} (odd : r.re % 2 = 1) : digit (next r) = 0 := by
  have cases := digit_cases r
  have later := digit_cases (next r)
  simp only [next] at later ⊢
  omega

variable {r : ZTau} {ds : List ℤ}

theorem norm_pos (some : r.re ≠ 0 ∨ r.im ≠ 0) : 0 < r.norm := by
  simp [norm_def]
  rcases some with ha | hb
  · nlinarith [mul_self_pos.mpr ha, sq_nonneg (r.re + 4 * r.im)]
  · nlinarith [mul_self_pos.mpr hb, sq_nonneg (2 * r.re + r.im)]

/-- The loop ends with the digits of `r`, of which no two in a row are other than zero. -/
structure Recodes (r : ZTau) (ds : List ℤ) : Prop where
  ends : ∃ rounds, digits rounds r = some ds
  value : ∑ i : Fin ds.length, (ds.get i : ZTau) * ω ^ (i : ℕ) = r
  small : ∀ u ∈ ds, u ∈ [-1, 0, 1]
  apart : ds.IsChain fun u v => u = 0 ∨ v = 0

theorem head_digits {rounds : ℕ} (run : digits rounds r = some ds) :
    ∀ u ∈ ds.head?, u = digit r := by
  rw [digits.eq_def] at run
  split at run
  · cases rounds with
    | zero => cases run
    | succ =>
      obtain ⟨later, -, rfl⟩ := Option.map_eq_some_iff.mp run
      simp
  · cases run
    simp

theorem Recodes.nil (none : ¬ (r.re ≠ 0 ∨ r.im ≠ 0)) : Recodes r [] := by
  refine ⟨⟨0, by rw [digits, if_neg none]⟩, ?_, by simp, .nil⟩
  push Not at none
  exact QuadraticAlgebra.ext none.1.symm none.2.symm

theorem Recodes.cons (some : r.re ≠ 0 ∨ r.im ≠ 0) (h : Recodes (next r) ds) :
    Recodes r (digit r :: ds) := by
  obtain ⟨rounds, run⟩ := h.ends
  have cases := digit_cases r
  refine ⟨⟨rounds + 1, by rw [digits, if_pos some, run, Option.map_some]⟩, ?_, ?_, ?_⟩
  · have shifted : ∑ i : Fin ds.length, (ds.get i : ZTau) * ω ^ ((i : ℕ) + 1) = ω * next r := by
      rw [← h.value, Finset.mul_sum]
      exact Finset.sum_congr rfl fun i _ => by ring
    conv_rhs => rw [← omega_mul_next r, ← shifted, add_comm]
    simp [Fin.sum_univ_succ]
  · refine List.forall_mem_cons.mpr ⟨?_, h.small⟩
    simp
    omega
  · refine List.isChain_cons.mpr ⟨fun u hu => ?_, h.apart⟩
    rw [head_digits run u hu]
    exact cases.imp And.right fun odd => digit_next odd.1

theorem exists_recodes (r : ZTau) : ∃ ds, Recodes r ds := by
  induction hn : r.norm.toNat using Nat.strong_induction_on generalizing r with
  | _ n ih =>
    by_cases some : r.re ≠ 0 ∨ r.im ≠ 0
    · have positive := norm_pos some
      have once := omega_mul_next r
      rcases digit_cases r with ⟨-, zero⟩ | ⟨odd, hu, hm⟩
      · have half : r.norm = 2 * (next r).norm := by
          conv_lhs => rw [← once, zero, Int.cast_zero, add_zero, map_mul]
          simp [norm_def]
        obtain ⟨ds, h⟩ := ih _ (by omega) (next r) rfl
        exact ⟨_, h.cons some⟩
      · by_cases more : (next r).re ≠ 0 ∨ (next r).im ≠ 0
        · have twice := omega_mul_next (next r)
          rw [digit_next odd, Int.cast_zero, add_zero] at twice
          rw [← twice] at once
          have smaller := norm_lt_of_odd once odd hu hm
          obtain ⟨ds, h⟩ := ih _ (by omega) (next (next r)) rfl
          exact ⟨_, (h.cons more).cons some⟩
        · exact ⟨_, (Recodes.nil more).cons some⟩
    · exact ⟨_, .nil some⟩

/-- The reduction of a scalar is congruent to it modulo (τ¹⁶³ - 1) / (τ - 1), whatever the rounding
gives, and every element has the digits that the loop takes off. -/
theorem tau_recoding (n q0 q1 r0 r1 : ℤ) :
    (∃ modulus : ZTau, modulus * (ω - 1) = ω ^ 163 - 1 ∧ modulus ∣ n - tauRedMod q0 q1 n) ∧
      ∃ ds, Recodes ⟨r0, r1⟩ ds := by
  refine ⟨⟨_, modulus_mul, ⟨q0, q1⟩, ?_⟩, exists_recodes _⟩
  ext <;> simp [tauRedMod] <;> ring

structure EcPoint (F : Type) where
  x : F
  y : F
  z : F
deriving DecidableEq

variable {F : Type} [Field F]

/-- A round of `gnb_inverse`, where the rotation by `k` makes for `k` squarings. -/
def inverseRound (mm1 : ℕ) (b : F) (s : F × ℕ) (i : ℕ) : F × ℕ :=
  let eta := s.1 ^ 2 ^ s.2 * s.1
  let k := s.2 * 2
  if mm1.testBit i then (eta ^ 2 * b, k + 1) else (eta, k)

def gnbInverse (b : F) : F :=
  let mm1 := degree - 1
  ((List.range mm1.log2).reverse.foldl (inverseRound mm1 b) (b, 1)).1 ^ 2

/-- Each round takes one more bit of `mm1` into `k`, the number of bits of the exponent. -/
theorem foldl_inverseRound (mm1 : ℕ) (b : F) (n : ℕ) :
    (List.range n).reverse.foldl (inverseRound mm1 b) (b ^ (2 ^ (mm1 >>> n) - 1), mm1 >>> n) =
      (b ^ (2 ^ mm1 - 1), mm1) := by
  induction n with
  | zero => rfl
  | succ n ih =>
    have bits : mm1 >>> n = mm1 >>> (n + 1) * 2 + (mm1.testBit n).toNat := by
      rw [Nat.shiftRight_succ, Nat.toNat_testBit, Nat.shiftRight_eq_div_pow]
      omega
    rw [List.range_succ, List.reverse_append, List.reverse_singleton, List.singleton_append,
      List.foldl_cons, ← ih]
    congr 1
    rw [inverseRound, bits]
    generalize mm1 >>> (n + 1) = k
    obtain ⟨m, hm⟩ : ∃ m, 2 ^ k = m + 1 := Nat.exists_eq_add_one.mpr (by positivity)
    have double : 2 ^ (k * 2) = m * (m + 1) + m + 1 := by
      rw [pow_mul, hm]
      ring
    cases mm1.testBit n with
    | false => simp [double, hm, pow_add, pow_mul]
    | true =>
      have odd : 2 ^ (k * 2 + 1) = (m * (m + 1) + m) * 2 + 1 + 1 := by
        rw [pow_succ, double]
        ring
      simp [odd, hm, pow_add, pow_mul]

/-- The chain of powers ends with the inverse, in the field of 2¹⁶³ elements. -/
theorem gnbInverse_eq (b : F) : gnbInverse b = b ^ (2 ^ 163 - 2) ∧
    (Nat.card F = 2 ^ 163 → gnbInverse b = b⁻¹) := by
  have power : gnbInverse b = b ^ (2 ^ 163 - 2) := by
    have rounds := foldl_inverseRound 162 b 7
    rw [show 162 >>> 7 = 1 from rfl, pow_one, pow_one] at rounds
    have unfolded : gnbInverse b = ((List.range 7).reverse.foldl (inverseRound 162 b) (b, 1)).1 ^
      2 :=
      rfl
    rw [unfolded, rounds, ← pow_mul]
    exact congrArg (b ^ ·) (by norm_num)
  refine ⟨power, fun card => ?_⟩
  rw [power]
  by_cases zero : b = 0
  · rw [zero, inv_zero, zero_pow (by decide)]
  have : Finite F := Nat.finite_of_card_ne_zero (by simp [card])
  have := Fintype.ofFinite F
  have fermat := FiniteField.pow_card_sub_one_eq_one b zero
  rw [← Nat.card_eq_fintype_card, card] at fermat
  exact eq_inv_of_mul_eq_one_left (by rw [← pow_succ]; exact fermat)

theorem gnbInverse_eq_galoisField : ∀ b : GaloisField 2 163, gnbInverse b = b⁻¹ := fun b =>
  (gnbInverse_eq b).2 (GaloisField.card 2 163 (by decide))

/-- `ec_init` copies `gnb_one` before `gnb_init` has set it, while it has zeros. -/
def infinityLd : EcPoint F := ⟨0, 0, 0⟩

def ecNormalize (p : EcPoint F) : EcPoint F :=
  let z := p.z⁻¹
  let x := p.x * z
  let z := z ^ 2
  ⟨x, p.y * z, 1⟩

section

variable [DecidableEq F]

def ecDoubleLd (p : EcPoint F) : EcPoint F :=
  if p = infinityLd then infinityLd
  else
    let t1 := p.z ^ 2
    let t2 := p.x ^ 2
    let z := t1 * t2
    let x := t2 ^ 2
    -- the square of `t1` is not used: its product with b would have been the next `t2`
    let x := x + t2
    let t1 := p.y ^ 2
    let t1 := t1 + z
    let t1 := t1 + t2
    let y := x * t1
    let t1 := t2 * z
    ⟨x, y + t1, z⟩

def ecAddLd (p q : EcPoint F) : EcPoint F :=
  if q = infinityLd then p
  else if p = infinityLd then q
  else
    let t1 := p.z * q.x
    let t2 := p.z ^ 2
    let x := p.x + t1
    let t1 := p.z * x
    let t3 := t2 * q.y
    let y := p.y + t3
    if x = 0 then
      if y = 0 then ecDoubleLd q else infinityLd
    else
      let z := t1 ^ 2
      let t3 := t1 * y
      let t1 := t1 + t2
      let t2 := x ^ 2
      let x := t2 * t1
      let t2 := y ^ 2
      let x := x + t2
      let x := x + t3
      let t2 := q.x * z
      let t2 := t2 + x
      let t1 := z ^ 2
      let t3 := t3 + z
      let y := t3 * t2
      let t2 := q.x + q.y
      let t3 := t1 * t2
      ⟨x, y + t3, z⟩

end

/-- y² + xy = x³ + x² + 1. -/
def curve (F : Type) [Field F] : Affine F := ⟨1, 1, 0, 0, 1⟩

def Represents (p : EcPoint F) : (curve F).Point → Prop
  | .zero => p = infinityLd
  | .some x y _ => p.z ≠ 0 ∧ p.x / p.z = x ∧ p.y / p.z ^ 2 = y

variable {p : EcPoint F} {x y x' y' l : F} {h : (curve F).Nonsingular x y}

theorem represents_some : Represents p (.some x y h) ↔
    p.z ≠ 0 ∧ p.x = x * p.z ∧ p.y = y * p.z ^ 2 := by
  refine and_congr_right fun hz => ?_
  rw [div_eq_iff hz, div_eq_iff (pow_ne_zero 2 hz)]

theorem ecNormalize_eq (hr : Represents p (.some x y h)) : ecNormalize p = ⟨x, y, 1⟩ := by
  obtain ⟨-, rfl, rfl⟩ := hr
  simp only [ecNormalize, inv_pow, div_eq_mul_inv]

variable [CharP F 2]

theorem curve_nonsingular : (curve F).Nonsingular x y ↔ y ^ 2 + x * y = x ^ 3 + x ^ 2 + 1 := by
  rw [nonsingular_iff, equation_iff]
  simp only [curve]
  grind

theorem curve_negY : (curve F).negY x y = x + y := by
  simp only [negY, curve]
  grind

theorem curve_addX : (curve F).addX x x' l = l ^ 2 + l + 1 + x + x' := by
  simp only [addX, curve]
  grind

theorem curve_addY : (curve F).addY x x' y l = (l + 1) * (l ^ 2 + l + 1 + x + x') + l * x + y := by
  rw [addY, curve_negY, negAddY, curve_addX]
  grind

variable [DecidableEq F]

/-- The x coordinate of twice a point is x² + 1 / x², and that of the result is x² + 1. -/
theorem ecDoubleLd_iff (h : (curve F).Nonsingular x y) :
    Represents (ecDoubleLd ⟨x, y, 1⟩) (.some x y h + .some x y h) ↔ x = 0 ∨ x = 1 := by
  have on := curve_nonsingular.mp h
  rw [ecDoubleLd, if_neg (by simp [infinityLd])]
  by_cases zero : x = 0
  · rw [Point.add_of_Y_eq rfl (by rw [curve_negY, zero, zero_add])]
    simp [zero, infinityLd, Represents]
  · have other : y ≠ (curve F).negY x y := by
      rw [curve_negY]
      grind
    have slope : (curve F).slope x x y y = (x ^ 2 + y) / x := by
      rw [slope_of_Y_ne rfl other, curve_negY]
      simp only [curve]
      grind
    rw [Point.add_of_Y_ne other, represents_some, curve_addX, curve_addY]
    rw [or_iff_right zero]
    constructor
    · grind
    · rintro rfl
      grind

theorem ecAddLd_iff (hr : Represents p (.some x y h)) (h' : (curve F).Nonsingular x' y') :
    Represents (ecAddLd p ⟨x', y', 1⟩) (.some x y h + .some x' y' h') ↔
      (x = x' → y = y' → x = 0 ∨ x = 1) := by
  obtain ⟨hz, hx, hy⟩ := represents_some.mp hr
  have finite : p ≠ infinityLd := by
    rintro rfl
    exact hz rfl
  have meets : p.x + p.z * x' = 0 ↔ x = x' := by grind
  have equal : p.y + p.z ^ 2 * y' = 0 ↔ y = y' := by grind
  simp only [ecAddLd, if_neg finite, meets, equal]
  rw [if_neg (by simp [infinityLd])]
  by_cases hn : x = x'
  · subst hn
    rw [if_pos rfl, imp_iff_right rfl]
    by_cases same : y = y'
    · subst same
      rw [if_pos rfl, imp_iff_right rfl]
      exact ecDoubleLd_iff h
    · rw [if_neg same, Point.add_of_Y_eq rfl ((Y_eq_of_X_eq h.1 h'.1 rfl).resolve_left same)]
      exact iff_of_true rfl fun again => absurd again same
  · refine iff_of_true ?_ fun again => absurd again hn
    have slope : y + y' = (curve F).slope x x' y y' * (x + x') := by
      rw [slope_of_X_ne hn]
      grind
    rw [if_neg hn, Point.add_of_X_ne hn, represents_some, curve_addX, curve_addY]
    generalize (curve F).slope x x' y y' = l at *
    refine ⟨?_, ?_, ?_⟩ <;> grind

/-- Doubling is right for points with x = 0 and x = 1 only, and addition unless it comes to another
doubling. -/
theorem projective_iff (hr : Represents p (.some x y h)) (h' : (curve F).Nonsingular x' y') :
    (Represents (ecAddLd p ⟨x', y', 1⟩) (.some x y h + .some x' y' h') ↔
      (x = x' → y = y' → x = 0 ∨ x = 1)) ∧
    (Represents (ecDoubleLd ⟨x', y', 1⟩) (.some x' y' h' + .some x' y' h') ↔ x' = 0 ∨ x' = 1) ∧
    ecNormalize p = ⟨x, y, 1⟩ :=
  ⟨ecAddLd_iff hr h', ecDoubleLd_iff h', ecNormalize_eq hr⟩

/-- The field with four elements. -/
abbrev F4 : Type := QuadraticAlgebra (ZMod 2) 1 1

instance factF4 : Fact (∀ r : ZMod 2, r ^ 2 ≠ 1 + 1 * r) := ⟨by decide⟩

instance charPF4 : CharP F4 2 := CharTwo.of_one_ne_zero_of_two_eq_zero (by decide) (by decide)

theorem nonsingular_omega : (curve F4).Nonsingular ω 1 := curve_nonsingular.mpr (by decide)

/-- The point of order two. -/
theorem torsion : (curve F4).Nonsingular 0 1 := curve_nonsingular.mpr (by decide)

theorem projective_torsion : let p : EcPoint F4 := ⟨0, ω + 1, ω⟩
    Represents p (.some 0 1 torsion) ∧
    Represents (ecAddLd p ⟨ω, 1, 1⟩) (.some 0 1 torsion + .some ω 1 nonsingular_omega) ∧
    Represents (ecAddLd p ⟨0, 1, 1⟩) (.some 0 1 torsion + .some 0 1 torsion) ∧
    ecNormalize p = ⟨0, 1, 1⟩ := by
  intro p
  have own : Represents p (.some 0 1 torsion) := represents_some.mpr (by decide)
  have agrees := projective_iff own nonsingular_omega
  exact ⟨own, agrees.1.mpr (by decide), (projective_iff own torsion).1.mpr (by decide), agrees.2.2⟩

/-- The x coordinate of the result is ω, and that of twice the point is 1. -/
theorem double_omega : ecDoubleLd ⟨ω, 1, 1⟩ = (⟨1, ω + 1, ω + 1⟩ : EcPoint F4) ∧
    ¬ Represents (ecDoubleLd (⟨ω, 1, 1⟩ : EcPoint F4))
      (.some ω 1 nonsingular_omega + .some ω 1 nonsingular_omega) :=
  ⟨by decide, fun right => absurd ((ecDoubleLd_iff nonsingular_omega).mp right) (by decide)⟩

def ecSubLd (p q : EcPoint F) : EcPoint F := ecAddLd p ⟨q.x, q.x + q.y, q.z⟩

/-- The rounds of `ec_multiply_tau`, for the digits that they take off the scalar. -/
def ecMultiplyTau (q p : EcPoint F) : List ℤ → EcPoint F
  | [] => q
  | u :: ds =>
    ecMultiplyTau (if u = 1 then ecAddLd q p else if u = -1 then ecSubLd q p else q)
      ⟨p.x ^ 2, p.y ^ 2, p.z ^ 2⟩ ds

def tau : (curve F).Point → (curve F).Point
  | .zero => .zero
  | .some x y h => .some (x ^ 2) (y ^ 2) <| by
    rw [curve_nonsingular] at h ⊢
    grind

/-- No round adds a point to itself. -/
def Distinct (Q P : (curve F).Point) : List ℤ → Prop
  | [] => True
  | u :: ds => (u ≠ 0 → Q ≠ u • P) ∧ Distinct (Q + u • P) (tau P) ds

variable {P : (curve F).Point}

theorem ecAddLd_represents (hp : Represents p P) (h : (curve F).Nonsingular x y)
    (hd : P ≠ .some x y h) : Represents (ecAddLd p ⟨x, y, 1⟩) (P + .some x y h) := by
  cases P with
  | zero =>
    obtain rfl : p = infinityLd := hp
    rw [ecAddLd, if_neg (by simp [infinityLd]), if_pos rfl, ← Point.zero_def, zero_add,
      represents_some]
    simp
  | some =>
    refine (ecAddLd_iff hp h).mpr ?_
    rintro rfl rfl
    exact absurd rfl hd

theorem round_represents (hp : Represents p P) (hd : digit r ≠ 0 → P ≠ digit r • .some x y h) :
    Represents (if digit r = 1 then ecAddLd p ⟨x, y, 1⟩ else if digit r = -1 then
      ecSubLd p ⟨x, y, 1⟩ else p) (P + digit r • .some x y h) := by
  rcases digit_cases r with ⟨-, hu⟩ | ⟨-, hu | hu, -⟩
  · simpa [hu] using hp
  · rw [hu, one_zsmul] at hd ⊢
    exact ecAddLd_represents hp h (hd (by decide))
  · rw [hu, neg_one_zsmul, Point.neg_some] at hd ⊢
    simp only [curve_negY] at hd ⊢
    exact ecAddLd_represents hp _ (hd (by decide))

/-- The equation of τ holds in the group of the curve. -/
theorem two_smul_add_tau (P : (curve F).Point) : (2 : ℤ) • P + tau (tau P) = tau P := by
  rw [two_zsmul, ← eq_sub_iff_add_eq]
  cases P with
  | zero => simp [tau, ← Point.zero_def]
  | some x y h =>
    have on := curve_nonsingular.mp h
    by_cases zero : x = 0
    · rw [Point.add_of_Y_eq rfl (by rw [curve_negY, zero, zero_add]), eq_comm, sub_eq_zero]
      simp only [tau, Point.some.injEq]
      grind
    · have slope : (curve F).slope x x y y = (x ^ 2 + y) / x := by
        rw [slope_of_Y_ne rfl (by rw [curve_negY]; grind), curve_negY]
        simp only [curve]
        grind
      have later : (curve F).slope (x ^ 2) ((x ^ 2) ^ 2) (y ^ 2) ((x ^ 2) ^ 2 + (y ^ 2) ^ 2) =
          (x ^ 2 + y) / x + x ^ 2 := by
        by_cases one : x ^ 2 = (x ^ 2) ^ 2
        · rw [slope_of_Y_ne one (by rw [curve_negY]; grind), curve_negY]
          simp only [curve]
          grind
        · rw [slope_of_X_ne one]
          grind
      rw [sub_eq_add_neg]
      simp only [tau, Point.neg_some, curve_negY]
      rw [Point.add_some (by rw [curve_negY]; grind), Point.add_some (by rw [curve_negY]; grind)]
      simp only [Point.some.injEq, curve_addX, curve_addY, slope, later]
      grind

theorem smul_next (r : ZTau) (P : (curve F).Point) : r.re • P + r.im • tau P =
    digit r • P + ((next r).re • tau P + (next r).im • tau (tau P)) := by
  have even : r.re = digit r + 2 * ((r.re - digit r) / 2) := by
    have := digit_cases r
    omega
  rw [next, eq_sub_of_add_eq' (two_smul_add_tau P)]
  generalize digit r = u at even ⊢
  generalize (r.re - u) / 2 = half at even ⊢
  rw [even]
  module

/-- With the digits of r0 + r1 τ the loop comes to r0 P + r1 τ(P), unless it has to double a
point. -/
theorem ecMultiplyTau_represents {rounds : ℕ} (run : digits rounds r = some ds)
    (hp : Represents p P) (distinct : Distinct P (.some x y h) ds) :
    Represents (ecMultiplyTau p ⟨x, y, 1⟩ ds)
      (P + (r.re • .some x y h + r.im • tau (.some x y h))) := by
  fun_induction digits rounds r generalizing ds p P x y h with
  | case1 => cases run
  | case2 r _ rounds ih =>
    obtain ⟨later, ends, rfl⟩ := Option.map_eq_some_iff.mp run
    rw [smul_next, ← add_assoc, ecMultiplyTau, one_pow]
    exact ih ends (round_represents hp distinct.1) distinct.2
  | case3 _ r none =>
    cases run
    push Not at none
    simpa [ecMultiplyTau, none] using hp

/-- What (τ¹⁶³ - 1) / (τ - 1) makes of a point: infinity, in the subgroup of prime order. -/
def modulus (P : (curve F).Point) : (curve F).Point := (s0 + s1) • P - s1 • tau P

/-- For a scalar the loop ends, and comes to nP up to multiples of the modulus. -/
theorem ecMultiplyTau_scalar (h : (curve F).Nonsingular x y) (n q0 q1 : ℤ) :
    ∃ rounds ds, digits rounds (tauRedMod q0 q1 n) = some ds ∧ (Distinct 0 (.some x y h) ds →
      Represents (ecMultiplyTau infinityLd ⟨x, y, 1⟩ ds)
        (n • .some x y h - (q0 • modulus (.some x y h) + q1 • modulus (tau (.some x y h))))) := by
  obtain ⟨ds, recodes⟩ := exists_recodes (tauRedMod q0 q1 n)
  obtain ⟨rounds, run⟩ := recodes.ends
  refine ⟨rounds, ds, run, fun distinct => ?_⟩
  have start : Represents infinityLd (0 : (curve F).Point) := rfl
  have reduced := ecMultiplyTau_represents run start distinct
  rw [zero_add] at reduced
  convert reduced using 1
  rw [modulus, modulus, eq_sub_of_add_eq' (two_smul_add_tau (.some x y h)), tauRedMod]
  module

theorem ecMultiplyTau_scalar_torsion : ∃ ds, Represents (ecMultiplyTau infinityLd ⟨0, 1, 1⟩ ds)
    ((1 : ℤ) • .some 0 1 torsion - ((0 : ℤ) • modulus (.some 0 1 torsion) +
      (0 : ℤ) • modulus (tau (.some 0 1 torsion)))) := by
  obtain ⟨rounds, ds, run, right⟩ := ecMultiplyTau_scalar torsion 1 0 0
  have reduced : tauRedMod 0 0 1 = 1 := by ext <;> simp [tauRedMod]
  rw [reduced] at run
  cases rounds with
  | zero => cases run
  | succ rounds =>
    have last : digits rounds (next 1) = some [] := by rw [digits.eq_def, if_neg (by decide)]
    rw [digits, if_pos (by decide), last] at run
    cases run
    exact ⟨_, right ⟨fun _ => by simp [show digit 1 = 1 from rfl], trivial⟩⟩

end Blackadder.Pla
