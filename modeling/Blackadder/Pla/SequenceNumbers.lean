import Mathlib.Algebra.Group.Int.Defs
import Mathlib.Algebra.Group.Nat.Defs
import Mathlib.Data.Set.Insert

namespace Blackadder.Pla

open Function

def windowSize : Nat := 128

/-- A `pla_connection`. The place of `windowLow` in the `window` is `lowIndex`. -/
structure PlaConnection where
  windowLow : Nat := 0
  lowIndex : Nat := 0
  window : Nat → Bool := fun _ => false

/-- Conversions to `int` and `uint64_t`. -/
def toInt (n : Int) : Int := (n + 2 ^ 31) % 2 ^ 32 - 2 ^ 31
def toUInt64 (n : Int) : Nat := (n % 2 ^ 64).toNat

/-- The loop that clears places from `lowIndex` on. -/
def clear (lowIndex : Nat) : Nat → (Nat → Bool) → Nat → Bool
  | 0, window => window
  | i + 1, window => clear lowIndex i (update window ((lowIndex + i) % windowSize) false)

/-- A number of a sender that has an entry. Nothing comes of it where the loop would start below
zero or a sum of type `int` overflows. -/
def PlaConnection.check (entry : PlaConnection) (seqnum : Nat) : Option (UInt8 × PlaConnection) :=
  if seqnum < entry.windowLow then some (0, entry)
  else
    let windowHigh := toInt (entry.windowLow + windowSize - 1)
    if seqnum ≤ toUInt64 windowHigh then
      let entryIndex := toUInt64 (entry.lowIndex + (seqnum - entry.windowLow)) % windowSize
      if entry.window entryIndex then some (0, entry)
      else some (1, { entry with window := update entry.window entryIndex true })
    else
      let advance := toInt (seqnum - windowHigh)
      if advance < 0 ∨ 2 ^ 31 ≤ entry.lowIndex + advance then none
      else
        let nulledEntries := min windowSize advance.toNat
        let lowIndex := (entry.lowIndex + advance.toNat) % windowSize
        let windowLow := toUInt64 (entry.windowLow + advance)
        let place := toUInt64 (lowIndex + (seqnum - windowLow)) % windowSize
        let window := update (clear entry.lowIndex nulledEntries entry.window) place true
        some (1, ⟨windowLow, lowIndex, window⟩)

section

variable {Key : Type} [DecidableEq Key]

/-- `malloc` fails where there is no `memory`, and the result is `-ENOMEM`. -/
def libplaCheckSequenceNumber (connections : Key → Option PlaConnection) (memory : Bool)
    (implCert : Key) (seqnum : Nat) : Option (UInt8 × (Key → Option PlaConnection)) :=
  if ¬ memory ∧ connections implCert = none then some (244, connections)
  else
    (((connections implCert).getD {}).check seqnum).map fun (res, entry) =>
      (res, update connections implCert (some entry))

end

/-- The entry of a sender of which `numbers` have been accepted. -/
structure Keeps (numbers : Set Nat) (entry : PlaConnection) : Prop where
  index : entry.lowIndex = entry.windowLow % windowSize
  small : entry.windowLow + windowSize ≤ 2 ^ 31
  low : ∀ n, n < entry.windowLow ↔ ∃ m ∈ numbers, n + windowSize ≤ m
  marks : ∀ n, entry.windowLow ≤ n → n < entry.windowLow + windowSize →
    (entry.window (n % windowSize) = true ↔ n ∈ numbers)

theorem keeps_nothing : Keeps ∅ {} := by
  constructor <;> simp [windowSize]

theorem clear_iff {lowIndex turns place : Nat} {window : Nat → Bool} :
    clear lowIndex turns window place = true ↔
      window place = true ∧ ∀ i < turns, place ≠ (lowIndex + i) % windowSize := by
  induction turns generalizing window with
  | zero => simp [clear]
  | succ i ih =>
    rw [clear, ih, update_apply, Nat.forall_lt_succ_right]
    split <;> simp_all

variable {numbers : Set Nat} {entry : PlaConnection} {n : Nat}

theorem Keeps.below (keeps : Keeps numbers entry) (hm : n ∈ numbers) :
    n < entry.windowLow + windowSize := by
  by_contra above
  have := (keeps.low entry.windowLow).mpr ⟨n, hm, by omega⟩
  omega

/-- A number in the window gets its mark. -/
theorem Keeps.mark (keeps : Keeps numbers entry) (low : entry.windowLow ≤ n)
    (high : n < entry.windowLow + windowSize) : Keeps (insert n numbers)
      { entry with window := update entry.window (n % windowSize) true } := by
  obtain ⟨idx, small, passed, marks⟩ := keeps
  refine ⟨idx, small, fun m => ?_, fun m hl hh => ?_⟩ <;> dsimp only at *
  · rw [Set.exists_mem_insert, ← passed]
    omega
  · rw [update_apply, Set.mem_insert_iff, ← marks m hl hh]
    unfold windowSize at *
    split
    · have : m = n := by omega
      simp [this]
    · have : m ≠ n := fun same => by simp_all
      simp [this]

/-- For a number above it the window moves up. -/
theorem Keeps.advance (keeps : Keeps numbers entry) (high : entry.windowLow + windowSize ≤ n)
    (fits : n < 2 ^ 31) : Keeps (insert n numbers)
      ⟨n + 1 - windowSize, (n + 1) % windowSize,
        update (clear entry.lowIndex (min windowSize (n + 1 - (entry.windowLow + windowSize)))
          entry.window) (n % windowSize) true⟩ := by
  have below := fun m => keeps.below (n := m)
  obtain ⟨idx, small, passed, marks⟩ := keeps
  refine ⟨?_, ?_, fun m => ?_, fun m hl hh => ?_⟩ <;> unfold windowSize at * <;> dsimp only at *
  · omega
  · omega
  · rw [Set.exists_mem_insert, ← passed]
    omega
  rw [update_apply, Set.mem_insert_iff]
  by_cases same : m = n
  · simp [same]
  rw [if_neg (by omega), clear_iff, idx, or_iff_right same]
  by_cases old : m < entry.windowLow + 128
  · rw [marks m (by omega) old]
    refine and_iff_left fun i turn => ?_
    unfold windowSize
    omega
  · refine iff_of_false (fun ⟨_, kept⟩ => ?_) fun hm => old (below m hm)
    -- the place was that of a number below the window, and has been cleared
    refine kept ((m - entry.windowLow) % 128) (by omega) ?_
    unfold windowSize
    omega

/-- A number has not been accepted, and none that is a window's length above it. -/
def InOrder (numbers : Set Nat) (n : Nat) : Prop :=
  n ∉ numbers ∧ ∀ m ∈ numbers, m < n + windowSize

theorem Keeps.inOrder_iff (keeps : Keeps numbers entry) :
    InOrder numbers n ↔ n ∉ numbers ∧ entry.windowLow ≤ n := by
  rw [InOrder, ← Nat.not_lt, keeps.low]
  simp

theorem Keeps.check (keeps : Keeps numbers entry) (fits : n < 2 ^ 31) : (InOrder numbers n ∧
        ∃ after, entry.check n = some (1, after) ∧ Keeps (insert n numbers) after) ∨
      ¬ InOrder numbers n ∧ entry.check n = some (0, entry) := by
  have mark := keeps.mark (n := n)
  have moved := keeps.advance (n := n)
  have below := keeps.below (n := n)
  rw [keeps.inOrder_iff]
  obtain ⟨idx, small, -, marks⟩ := keeps
  unfold PlaConnection.check windowSize at *
  have hw : toInt (entry.windowLow + (128 : Nat) - 1) = entry.windowLow + 127 := by
    unfold toInt
    omega
  have hh : toUInt64 (entry.windowLow + 127) = entry.windowLow + 127 := by
    unfold toUInt64
    omega
  simp only [hw, hh]
  split
  · exact .inr ⟨fun order => by omega, rfl⟩
  split
  · have hp : toUInt64 (entry.lowIndex + (n - entry.windowLow)) % 128 = n % 128 := by
      unfold toUInt64
      omega
    rw [hp, ← marks n (by omega) (by omega)]
    split
    · rename_i marked
      exact .inr ⟨fun order => order.1 marked, rfl⟩
    · rename_i unmarked
      exact .inl ⟨⟨unmarked, by omega⟩, _, rfl, mark (by omega) (by omega)⟩
  · have ha : toInt (n - (entry.windowLow + 127)) = (n + 1 - (entry.windowLow + 128) : Nat) := by
      unfold toInt
      omega
    rw [ha, if_neg (by omega)]
    refine .inl ⟨⟨fun hm => by have := below hm; omega, by omega⟩, _, rfl, ?_⟩
    have hx : (entry.lowIndex + (n + 1 - (entry.windowLow + 128))) % 128 = (n + 1) % 128 := by omega
    have hl : toUInt64 (entry.windowLow + (n + 1 - (entry.windowLow + 128) : Nat)) =
        n + 1 - 128 := by
      unfold toUInt64
      omega
    have hp : toUInt64 (((n + 1) % 128 : Nat) + (n - (n + 1 - 128 : Nat))) % 128 = n % 128 := by
      unfold toUInt64
      omega
    simpa only [Int.toNat_natCast, hl, hx, hp] using moved (by omega) fits

variable {Key : Type} [DecidableEq Key]

/-- The calls so far; `accepted` has the numbers that were accepted. -/
inductive Receives : (Key → Option PlaConnection) → List (Key × Nat) → Prop
  | start : Receives (fun _ => none) []
  | next (before : Receives connections accepted) (small : seqnum < 2 ^ 31)
      (returns : libplaCheckSequenceNumber connections memory key seqnum = some (res, after)) :
      Receives after (if res = 1 then (key, seqnum) :: accepted else accepted)

variable {connections : Key → Option PlaConnection} {accepted : List (Key × Nat)}

/-- The numbers of a sender. -/
def of (accepted : List (Key × Nat)) (key : Key) : Set Nat := { n | (key, n) ∈ accepted }

theorem of_cons {key other : Key} : of ((key, n) :: accepted) other =
    if other = key then insert n (of accepted other) else of accepted other := by
  ext m
  split <;> simp_all [of]

/-- One call, as long as the entries are those of what has been accepted. -/
theorem libplaCheckSequenceNumber_spec
    (keeps : ∀ key, Keeps (of accepted key) ((connections key).getD {})) (memory : Bool)
    (key : Key) (small : n < 2 ^ 31) :
    ∃ res after, libplaCheckSequenceNumber connections memory key n = some (res, after) ∧
      (res = 1 ↔ (memory ∨ connections key ≠ none) ∧ InOrder (of accepted key) n) ∧
      ∀ other, Keeps (of (if res = 1 then (key, n) :: accepted else accepted) other)
        ((after other).getD {}) := by
  rw [libplaCheckSequenceNumber]
  split
  · rename_i full
    exact ⟨_, _, rfl, by simp [full], keeps⟩
  rename_i room
  have hr : memory ∨ connections key ≠ none := by
    by_contra none
    exact room (by simpa using none)
  simp only [hr, true_and]
  rcases (keeps key).check small with ⟨order, after, returns, kept⟩ | ⟨disorder, returns⟩
  · refine ⟨1, _, by rw [returns]; rfl, by simp [order], fun other => ?_⟩
    rw [if_pos rfl, of_cons]
    split
    · rename_i same
      simpa [same] using kept
    · rename_i different
      simpa [different] using keeps other
  · refine ⟨0, _, by rw [returns]; rfl, by simp [disorder], fun other => ?_⟩
    rw [if_neg (by decide), update_apply]
    split
    · rename_i same
      exact same ▸ keeps key
    · exact keeps other

theorem Receives.keeps (run : Receives connections accepted) :
    accepted.Nodup ∧ ∀ key, Keeps (of accepted key) ((connections key).getD {}) := by
  induction run with
  | start => exact ⟨.nil, fun key => by simpa [of] using keeps_nothing⟩
  | next _ small returns ih =>
    obtain ⟨res, after, hr, order, kept⟩ := libplaCheckSequenceNumber_spec ih.2 _ _ small
    rw [hr] at returns
    cases returns
    refine ⟨?_, kept⟩
    split
    · rename_i one
      exact List.nodup_cons.mpr ⟨(order.mp one).2.1, ih.1⟩
    · exact ih.1

/-- No number is accepted twice of one sender, and all that are in order are, as long as there is
memory and the numbers fit into an `int`. -/
theorem replays_rejected (run : Receives connections accepted) :
    accepted.Nodup ∧ ∀ (memory : Bool) (key : Key), ∀ n < 2 ^ 31, ∃ res after,
      libplaCheckSequenceNumber connections memory key n = some (res, after) ∧
        (res = 1 ↔ (memory ∨ connections key ≠ none) ∧ InOrder (of accepted key) n) := by
  refine ⟨run.keeps.1, fun memory key n small => ?_⟩
  obtain ⟨res, after, returns, order, -⟩ :=
    libplaCheckSequenceNumber_spec run.keeps.2 memory key small
  exact ⟨res, after, returns, order⟩

theorem replays_rejected_second : ∃ connections : Nat → Option PlaConnection,
    Receives connections [(0, 5)] ∧ ∃ res after,
      libplaCheckSequenceNumber connections true 0 5 = some (res, after) ∧ res ≠ 1 := by
  obtain ⟨res, after, returns, order⟩ := (replays_rejected .start).2 true 0 5 (by decide)
  have run := Receives.next .start (by decide) returns
  rw [if_pos (order.mpr ⟨.inl rfl, by simp [InOrder, of]⟩)] at run
  obtain ⟨res, later, returns, order⟩ := (replays_rejected run).2 true 0 5 (by decide)
  exact ⟨after, run, res, later, returns, fun one => (order.mp one).2.1 List.mem_cons_self⟩

end Blackadder.Pla
