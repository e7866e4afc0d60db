import Mathlib.Data.Finset.Card

/-- A cyclic buffer of `n` slots. The next value goes to the slot at the cursor. -/
structure RingBuffer (α : Type) (n : Nat) where
  slots : Vector α n
  cursor : Fin n

namespace RingBuffer

open Nat Vector

variable {α : Type} {n : Nat}

def advance (cursor : Fin n) : Fin n :=
  if last : cursor.val + 1 = n then ⟨0, by have := cursor.isLt; omega⟩
  else ⟨cursor.val + 1, by have := cursor.isLt; omega⟩

def store (ring : RingBuffer α n) (value : α) : RingBuffer α n :=
  ⟨ring.slots.set ring.cursor value, advance ring.cursor⟩

variable {count : Nat}

theorem advance_eq_mod {cursor : Fin n} (place : cursor.val = count % n) :
    (advance cursor).val = (count + 1) % n := by
  have shifted : (count + 1) % n = (cursor.val + 1) % n := by
    rw [place, ← Nat.div_add_mod count n, Nat.add_assoc]
    simp
  rw [shifted, advance]
  split
  · rename_i last
    rw [last, mod_self]
  · rw [mod_eq_of_lt (by omega)]

/-- The ring had the given slots and was then given `history`: a slot has the last value that came
to it, or still the one it had. -/
structure Records (ring : RingBuffer α n) (start : Vector α n) (history : List α) : Prop where
  cursor : ring.cursor.val = history.length % n
  recent : ∀ i (inside : i < history.length) (slot : i % n < n), history.length ≤ i + n →
    ring.slots[i % n] = history[i]
  untouched : ∀ i (slot : i < n), history.length ≤ i → ring.slots[i] = start[i]

theorem records_start (start : Vector α n) (hp : 0 < n) : Records ⟨start, ⟨0, hp⟩⟩ start [] where
  cursor := (zero_mod n).symm
  recent i hi := absurd hi (not_lt_zero i)
  untouched _ _ _ := rfl

variable {ring : RingBuffer α n} {start : Vector α n} {history : List α}

theorem mod_ne_of_near {i j : Nat} (before : i < j) (near : j < i + n) : i % n ≠ j % n := by
  intro hs
  have whole : (j - i) % n = 0 := sub_mod_eq_zero_of_mod_eq hs.symm
  rw [mod_eq_of_lt (by omega)] at whole
  omega

theorem Records.store (records : Records ring start history) (val : α) :
    Records (ring.store val) start (history ++ [val]) where
  cursor := by
    rw [List.length_append]
    exact advance_eq_mod records.cursor
  recent i hi slot near := by
    rw [List.length_append, List.length_singleton] at hi near
    by_cases new : i = history.length
    · subst new
      simp [RingBuffer.store, records.cursor]
    have other : history.length % n ≠ i % n := (mod_ne_of_near (by omega) (by omega)).symm
    simp only [RingBuffer.store, records.cursor]
    rw [getElem_set_ne _ slot other, records.recent i (by omega) slot (by omega),
      List.getElem_append_left]
  untouched i slot behind := by
    rw [List.length_append, List.length_singleton] at behind
    have other : history.length % n ≠ i := by
      rw [mod_eq_of_lt (by omega)]
      omega
    simp only [RingBuffer.store, records.cursor]
    rw [getElem_set_ne _ slot other]
    exact records.untouched i slot (by omega)

/-- The last time that a value came to a slot, once one has come to it. -/
theorem exists_recent {slot : Nat} (hi : slot < n) (hr : slot < count) :
    ∃ i, i < count ∧ count ≤ i + n ∧ i % n = slot := by
  have rounds := div_add_mod (count - 1 - slot) n
  have rest : (count - 1 - slot) % n < n := mod_lt _ (by omega)
  refine ⟨slot + n * ((count - 1 - slot) / n), by omega, by omega, ?_⟩
  rw [add_mul_mod_self_left, mod_eq_of_lt hi]

/-- The last `n` values, and the slots that no value has come to, are what the ring contains. -/
theorem Records.mem_iff (records : Records ring start history) {val : α} : val ∈ ring.slots ↔
      val ∈ history.drop (history.length - n) ∨ val ∈ start.toList.drop history.length := by
  rw [mem_iff_getElem, List.mem_drop_iff_getElem, List.mem_drop_iff_getElem]
  constructor
  · rintro ⟨slot, hi, rfl⟩
    by_cases hr : slot < history.length
    · obtain ⟨i, before, near, rfl⟩ := exists_recent hi hr
      refine .inl ⟨i - (history.length - n), by omega, ?_⟩
      rw [records.recent i before hi near]
      congr 1
      omega
    · refine .inr ⟨slot - history.length, by rw [length_toList]; omega, ?_⟩
      rw [records.untouched slot hi (by omega), getElem_toList]
      congr 1
      omega
  · rintro (⟨i, hi, rfl⟩ | ⟨i, hi, rfl⟩)
    · have slot : (history.length - n + i) % n < n :=
        mod_lt _ (lt_of_le_of_lt (zero_le _) ring.cursor.isLt)
      exact ⟨_, slot, records.recent _ (by omega) slot (by omega)⟩
    · rw [length_toList] at hi
      refine ⟨history.length + i, by omega, ?_⟩
      rw [records.untouched _ (by omega) (by omega), getElem_toList]

end RingBuffer

section

variable {α : Type} {n : Nat}

/-- No value comes again before `n` others have come. -/
def Spaced (n : Nat) (history : List α) : Prop :=
  ∀ i j value, i < j → j ≤ i + n → history[i]? = some value → history[j]? ≠ some value

theorem spaced_nil : Spaced n ([] : List α) := by
  intro i j val _ _ hf
  cases hf

variable {val : α}

theorem Spaced.append {history : List α} (spaced : Spaced n history)
    (fresh : val ∉ history.drop (history.length - n)) : Spaced n (history ++ [val]) := by
  intro i j other earlier near hf ha
  have hi : j < history.length + 1 := by
    simpa using (List.getElem?_eq_some_iff.mp ha).1
  rw [List.getElem?_append_left (by omega)] at hf
  by_cases last : j = history.length
  · subst last
    rw [List.getElem?_concat_length] at ha
    cases ha
    obtain ⟨hb, rfl⟩ := List.getElem?_eq_some_iff.mp hf
    apply fresh
    rw [List.mem_drop_iff_getElem]
    refine ⟨i - (history.length - n), by omega, ?_⟩
    congr 1
    omega
  · rw [List.getElem?_append_left (by omega)] at ha
    exact spaced i j other earlier near hf ha

variable [DecidableEq α]

/-- Between two times that the same value comes there are at least `n` different others. -/
theorem Spaced.others {before between after : List α}
    (spaced : Spaced n (before ++ val :: (between ++ val :: after))) :
    n ≤ (between.toFinset.erase val).card := by
  have first : (before ++ val :: (between ++ val :: after))[before.length]? = some val := by
    simp
  have inner : ∀ k x, between[k]? = some x →
      (before ++ val :: (between ++ val :: after))[before.length + (k + 1)]? = some x := by
    intro k x hf
    have hi := (List.getElem?_eq_some_iff.mp hf).1
    rw [List.getElem?_append_right (by omega), Nat.add_sub_cancel_left, List.getElem?_cons_succ,
      List.getElem?_append_left hi, hf]
  have second : (before ++ val :: (between ++ val :: after))[
      before.length + (between.length + 1)]? = some val := by
    simp
  have far : n ≤ between.length := by
    by_contra near
    exact spaced _ _ val (by omega) (by omega) first second
  -- The last `n` values before the second time are different from it and from each other.
  let recent := between.drop (between.length - n)
  have size : recent.length = n := by
    simp only [recent, List.length_drop]
    omega
  have place : ∀ i (hi : i < recent.length), between[between.length - n + i]? = some recent[i] := by
    intro i hi
    rw [← List.getElem?_drop, List.getElem?_eq_getElem hi]
  have hd : recent.Nodup := by
    rw [List.nodup_iff_pairwise_ne, List.pairwise_iff_getElem]
    intro i j before_j hi earlier hs
    exact spaced _ _ _ (by omega) (by omega) (inner _ _ (place i before_j))
      (hs ▸ inner _ _ (place j hi))
  have other : val ∉ recent := by
    intro hm
    obtain ⟨i, hi, rfl⟩ := List.mem_iff_getElem.mp hm
    exact spaced _ _ _ (by omega) (by omega) (inner _ _ (place i hi)) second
  calc n = recent.toFinset.card := by rw [List.toFinset_card_of_nodup hd, size]
    _ ≤ (between.toFinset.erase val).card := by
      apply Finset.card_le_card
      intro x hm
      rw [List.mem_toFinset] at hm
      rw [Finset.mem_erase, List.mem_toFinset]
      exact ⟨fun hs => other (hs ▸ hm), List.mem_of_mem_drop hm⟩

end
