import Mathlib.Init

/-- A block of memory from its first address on, as far as it has been written. -/
abbrev Memory : Type := Nat → Option UInt8

namespace Memory

open List

variable {m : Memory} {bytes more : List UInt8} {n : Nat}

def blank : Memory := fun _ => none

def memcpy (m : Memory) (offset : Nat) (bytes : List UInt8) : Memory := fun i =>
  if offset ≤ i ∧ i < offset + bytes.length then bytes[i - offset]? else m i

/-- Exactly the first `n` bytes have been written. -/
def Filled (m : Memory) (n : Nat) : Prop := ∀ i, (m i).isSome = true ↔ i < n

/-- The bytes have been written from the first address on, and nothing else. -/
def Holds (m : Memory) (bytes : List UInt8) : Prop := ∀ i, m i = bytes[i]?

theorem holds_blank : blank.Holds [] := fun _ => rfl

variable {off : Nat} {front : List UInt8}

theorem Holds.memcpy (holds : m.Holds bytes) (behind : off = bytes.length) (more : List UInt8) :
    (m.memcpy off more).Holds (bytes ++ more) := by
  subst behind
  intro i
  unfold Memory.memcpy
  by_cases hi : bytes.length ≤ i ∧ i < bytes.length + more.length
  · rw [if_pos hi, getElem?_append_right hi.1]
  rw [if_neg hi, holds]
  by_cases before : i < bytes.length
  · rw [getElem?_append_left before]
  · rw [getElem?_eq_none (by omega), getElem?_eq_none (by simp; omega)]

theorem Holds.filled_iff (holds : m.Holds bytes) : m.Filled n ↔ n = bytes.length := by
  have hi : ∀ i, (m i).isSome = true ↔ i < bytes.length := by
    intro i
    rw [holds]
    simp
  constructor
  · intro hf
    have same : ∀ i, i < n ↔ i < bytes.length := fun i => (hf i).symm.trans (hi i)
    have hu := (same n).mpr
    have hl := (same bytes.length).mp
    omega
  · rintro rfl
    exact hi

/-- Room in front of the block, none of which has been written. -/
def shift (m : Memory) (n : Nat) : Memory := fun i => if i < n then none else m (i - n)

/-- The room of `n` bytes in front of `rest` has been filled as far as `front` goes. -/
def Filling (m : Memory) (front : List UInt8) (n : Nat) (rest : List UInt8) : Prop :=
  ∀ i, m i = if i < n then front[i]? else rest[i - n]?

theorem Holds.shift (holds : m.Holds bytes) (n : Nat) : (m.shift n).Filling [] n bytes := by
  intro i
  rw [Memory.shift, holds]
  rfl

theorem Filling.memcpy (filling : m.Filling front n bytes) (behind : off = front.length)
    (more : List UInt8) (fits : front.length + more.length ≤ n) :
    (m.memcpy off more).Filling (front ++ more) n bytes := by
  subst behind
  intro i
  unfold Memory.memcpy
  by_cases hi : front.length ≤ i ∧ i < front.length + more.length
  · rw [if_pos hi, if_pos (by omega), getElem?_append_right hi.1]
  rw [if_neg hi, filling]
  by_cases before : i < front.length
  · rw [getElem?_append_left before]
  · have beyond : front[i]? = none := getElem?_eq_none (by omega)
    have beyond' : (front ++ more)[i]? = none := getElem?_eq_none (by simp; omega)
    rw [beyond, beyond']

theorem Filling.holds (filling : m.Filling front n bytes) (full : front.length = n) :
    m.Holds (front ++ bytes) := by
  subst full
  intro i
  rw [filling]
  split
  · rename_i before
    rw [getElem?_append_left before]
  · rename_i behind
    rw [getElem?_append_right (Nat.le_of_not_lt behind)]

end Memory

/-- What a reader without bounds checks finds from an address on. -/
abbrev View : Type := Nat → UInt8

namespace View

variable {view : View} {offset : Nat} {bytes more : List UInt8}

/-- `length` bytes from the offset on. -/
def read (view : View) (offset length : Nat) : List UInt8 :=
  (List.range length).map fun i => view (offset + i)

/-- The bytes are there from the offset on; what follows them is open. -/
def Shows (view : View) (offset : Nat) (bytes : List UInt8) : Prop :=
  ∀ i (inside : i < bytes.length), view (offset + i) = bytes[i]

theorem shows_append : view.Shows offset (bytes ++ more) ↔
    view.Shows offset bytes ∧ view.Shows (offset + bytes.length) more := by
  constructor
  · intro hs
    refine ⟨fun i hi => ?_, fun i hi => ?_⟩
    · rw [hs i (by simp; omega), List.getElem_append_left hi]
    · rw [Nat.add_assoc, hs (bytes.length + i) (by simp; omega)]
      simp
  · rintro ⟨front, back⟩ i hi
    by_cases before : i < bytes.length
    · rw [front i before, List.getElem_append_left before]
    have hf := back (i - bytes.length) (by simp at hi; omega)
    rw [List.getElem_append_right (by omega), ← hf]
    congr 1
    omega

theorem shows_cons {byte : UInt8} : view.Shows offset (byte :: bytes) ↔
    view offset = byte ∧ view.Shows (offset + 1) bytes := by
  have single : view.Shows offset [byte] ↔ view offset = byte := by
    constructor
    · intro hs
      exact hs 0 Nat.one_pos
    · rintro rfl i hi
      have zero : i = 0 := by simpa using hi
      subst zero
      rfl
  rw [← List.singleton_append, shows_append, single]
  rfl

theorem read_add (view : View) (off n m : Nat) :
    view.read off (n + m) = view.read off n ++ view.read (off + n) m := by
  simp [read, List.range_add, Nat.add_assoc]

theorem shows_shift {n : Nat} :
    Shows (fun i => view (n + i)) offset bytes ↔ view.Shows (n + offset) bytes := by
  simp only [Shows, Nat.add_assoc]

theorem Shows.drop (hs : view.Shows offset bytes) (k : Nat) :
    view.Shows (offset + k) (bytes.drop k) := by
  intro i hi
  rw [List.length_drop] at hi
  rw [Nat.add_assoc, hs (k + i) (by omega), List.getElem_drop]

theorem shows_read (view : View) (off len : Nat) : view.Shows off (view.read off len) := by
  intro i hi
  simp [read]

theorem read_of_shows (hs : view.Shows offset bytes) : view.read offset bytes.length = bytes := by
  apply List.ext_getElem
  · simp [read]
  · intro i _ hi
    simp only [read, List.getElem_map, List.getElem_range]
    exact hs i hi

/-- A copy into memory that already holds something. -/
def memcpy (view : View) (offset : Nat) (bytes : List UInt8) : View := fun i =>
  if offset ≤ i then bytes.getD (i - offset) (view i) else view i

theorem shows_memcpy (view : View) (off : Nat) (bytes : List UInt8) :
    (view.memcpy off bytes).Shows off bytes := by
  intro i hi
  rw [memcpy, if_pos (Nat.le_add_right _ _), Nat.add_sub_cancel_left, List.getD_eq_getElem?_getD,
    List.getElem?_eq_getElem hi, Option.getD_some]

variable {start : Nat}

theorem Shows.memcpy (hs : view.Shows start more) (before : start + more.length ≤ offset)
    (bytes : List UInt8) : (view.memcpy offset bytes).Shows start more := by
  intro i hi
  rw [View.memcpy, if_neg (by omega)]
  exact hs i hi

theorem memcpy_of_le (view : View) {i : Nat} (behind : offset + bytes.length ≤ i) :
    view.memcpy offset bytes i = view i := by
  rw [View.memcpy, if_pos (by omega), List.getD_eq_getElem?_getD,
    List.getElem?_eq_none (by omega), Option.getD_none]

@[simp] theorem memcpy_nil (view : View) (off : Nat) : view.memcpy off [] = view := by
  funext i
  simp [memcpy]

theorem memcpy_append (view : View) (off : Nat) (bytes more : List UInt8) :
    view.memcpy off (bytes ++ more) =
      (view.memcpy off bytes).memcpy (off + bytes.length) more := by
  funext i
  by_cases behind : off + bytes.length ≤ i
  · have same : i - off - bytes.length = i - (off + bytes.length) := by omega
    rw [memcpy, if_pos (by omega), memcpy, if_pos behind, memcpy_of_le view behind,
      List.getD_eq_getElem?_getD, List.getElem?_append_right (by omega), same,
      List.getD_eq_getElem?_getD]
  · rw [memcpy, memcpy, if_neg behind, memcpy]
    by_cases before : off ≤ i
    · rw [if_pos before, if_pos before, List.getD_eq_getElem?_getD,
        List.getElem?_append_left (by omega),
        List.getD_eq_getElem?_getD]
    · rw [if_neg before, if_neg before]

theorem Shows.memcpy_before (hs : view.Shows start more) (behind : offset + bytes.length ≤ start) :
    (view.memcpy offset bytes).Shows start more := by
  intro i hi
  rw [memcpy_of_le view (by omega)]
  exact hs i hi

theorem Shows.overwrite {start : Nat} {front old new back : List UInt8}
    (hs : view.Shows start (front ++ old ++ back)) (place : offset = start + front.length)
    (same : new.length = old.length) : (view.memcpy offset new).Shows start
      (front ++ new ++ back) := by
  simp only [shows_append, List.length_append, same] at hs ⊢
  obtain ⟨⟨before, _⟩, behind⟩ := hs
  subst place
  exact ⟨⟨before.memcpy (Nat.le_refl _) new, shows_memcpy view _ new⟩,
    behind.memcpy_before (by omega)⟩

theorem Shows.append_memcpy (hs : view.Shows 0 more) (behind : offset = more.length)
    (bytes : List UInt8) : (view.memcpy offset bytes).Shows 0 (more ++ bytes) := by
  rw [shows_append, Nat.zero_add, ← behind]
  exact ⟨hs.memcpy (by omega) bytes, shows_memcpy view offset bytes⟩

end View

/-- The reader is given the written memory from the offset on. -/
theorem Memory.Holds.shows {m : Memory} {front bytes : List UInt8} {view : View} {n : Nat}
    (holds : m.Holds (front ++ bytes)) (len : n = (front ++ bytes).length)
    (hg : ∀ i, front.length + i < n → m (front.length + i) = some (view i)) :
    view.Shows 0 bytes := by
  intro i hi
  have hf := hg i (by rw [len, List.length_append]; omega)
  rw [holds, List.getElem?_append_right (by omega), Nat.add_sub_cancel_left,
    List.getElem?_eq_getElem hi] at hf
  rw [Nat.zero_add]
  exact (Option.some_inj.mp hf).symm
