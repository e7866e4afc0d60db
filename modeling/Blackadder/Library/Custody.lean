import Mathlib.Logic.Function.Basic

/-! Logs of what happens to objects that have to be given away once. -/

namespace Custody

open List Or

/-- An event touches an object. It may spend the object, or make a copy of it. -/
structure Event (η : Type) where
  touched : η
  spends : Bool := false
  copy : Option η := none

variable {η : Type} [DecidableEq η] {h : η} {log before after : List (Event η)} {event : Event η}

/-- The first event that spends the object is the last one that touches it. -/
def spentOnce (h : η) : List (Event η) → Bool
  | [] => false
  | event :: rest =>
    if event.touched = h ∧ event.spends = true then rest.all fun later => later.touched ≠ h
    else spentOnce h rest

/-- The object and all copies that are made are spent once. -/
structure Linear (h : η) (log : List (Event η)) : Prop where
  once : spentOnce h log = true
  copies : ∀ event ∈ log, ∀ copy, event.copy = some copy → spentOnce copy log = true

theorem spentOnce_cons (keeps : ¬ (event.touched = h ∧ event.spends = true)) :
    spentOnce h (event :: log) = spentOnce h log := by
  rw [spentOnce, if_neg keeps]

theorem spentOnce_append (keeps : ∀ event ∈ before, ¬ (event.touched = h ∧ event.spends = true)) :
    spentOnce h (before ++ log) = spentOnce h log := by
  induction before with
  | nil => rfl
  | cons event rest ih =>
    rw [cons_append, spentOnce_cons (keeps event mem_cons_self)]
    exact ih fun later hi => keeps later (mem_cons_of_mem _ hi)

theorem spentOnce_of_kept (keeps : ∀ event ∈ log, ¬ (event.touched = h ∧ event.spends = true)) :
    spentOnce h log = false := by
  have whole : spentOnce h (log ++ []) = spentOnce h [] := spentOnce_append keeps
  rwa [append_nil] at whole

theorem spentOnce_append_of_spent (spent : spentOnce h log = true) :
    spentOnce h (log ++ after) = after.all fun later => later.touched ≠ h := by
  induction log with
  | nil => cases spent
  | cons event rest ih =>
    rw [cons_append, spentOnce]
    rw [spentOnce] at spent
    split at spent
    · rename_i spends
      rw [if_pos spends, all_append, spent, Bool.true_and]
    · rename_i keeps
      rw [if_neg keeps]
      exact ih spent

theorem touched_of_spentOnce (spent : spentOnce h log = true) :
    ∃ event ∈ log, event.touched = h := by
  by_contra hu
  have kept : spentOnce h log = false :=
    spentOnce_of_kept fun event hi spends => hu ⟨event, hi, spends.1⟩
  rw [kept] at spent
  cases spent

theorem spentOnce_append_twice (first : spentOnce h before = true)
    (second : spentOnce h after = true) :
    spentOnce h (before ++ after) = false := by
  obtain ⟨event, hi, touched⟩ := touched_of_spentOnce second
  rw [spentOnce_append_of_spent first, all_eq_false]
  exact ⟨event, hi, by simp [touched]⟩

section

variable {name : Nat → η} {start : Nat}

/-- The log deals with the object, and with copies whose numbers are from `start` on. -/
structure Settles (name : Nat → η) (h : η) (start : Nat) (log : List (Event η)) : Prop
    extends Linear h log where
  fresh : ∀ event ∈ log, event.touched = h ∨ ∃ number ≥ start, event.touched = name number
  named : ∀ event ∈ log, ∀ copy, event.copy = some copy → ∃ number ≥ start, copy = name number

namespace Settles

theorem mono {start' : Nat} (hs : Settles name h start' log) (hl : start ≤ start') :
    Settles name h start log := by
  refine ⟨hs.toLinear, fun event hi => ?_, fun event hi copy made => ?_⟩
  · refine (hs.fresh event hi).imp_right ?_
    rintro ⟨num, ha, same⟩
    exact ⟨num, Nat.le_trans hl ha, same⟩
  · obtain ⟨num, ha, same⟩ := hs.named event hi copy made
    exact ⟨num, Nat.le_trans hl ha, same⟩

theorem own (once : spentOnce h log = true)
    (own : ∀ event ∈ log, event.touched = h ∧ event.copy = none) : Settles name h start log := by
  have single : ∀ event ∈ log, ∀ copy, event.copy ≠ some copy := by
    intro event hi copy made
    rw [(own event hi).2] at made
    cases made
  exact ⟨⟨once, fun event hi copy made => absurd made (single event hi copy)⟩,
    fun event hi => inl (own event hi).1, fun event hi copy made =>
      absurd made (single event hi copy)⟩

theorem spend (touched : event.touched = h) (spends : event.spends = true)
    (single : event.copy = none) : Settles name h start [event] := by
  apply own
  · rw [spentOnce, if_pos ⟨touched, spends⟩]
    rfl
  · intro other hi
    rw [mem_singleton.mp hi]
    exact ⟨touched, single⟩

theorem look (hs : Settles name h start log) (touched : event.touched = h)
    (keeps : event.spends = false) (single : event.copy = none) :
    Settles name h start (event :: log) := by
  have kept : ∀ other, spentOnce other (event :: log) = spentOnce other log := by
    intro other
    refine spentOnce_cons ?_
    rw [keeps]
    rintro ⟨-, ⟨⟩⟩
  refine ⟨⟨?_, ?_⟩, ?_, ?_⟩
  · rw [kept]
    exact hs.once
  · intro other hi copy made
    rw [kept]
    rcases mem_cons.mp hi with rfl | later
    · rw [single] at made
      cases made
    · exact hs.copies other later copy made
  · intro other hi
    rcases mem_cons.mp hi with rfl | later
    · exact inl touched
    · exact hs.fresh other later
  · intro other hi copy made
    rcases mem_cons.mp hi with rfl | later
    · rw [single] at made
      cases made
    · exact hs.named other later copy made

/-- A copy is made and spent before anything else happens. -/
theorem copy (hd : Function.Injective name) (orig : ∀ num, h ≠ name num)
    (hs : Settles name h (start + 1) log) (spent : spentOnce (name start) before = true)
    (own : ∀ event ∈ before, event.touched = name start ∧ event.copy = none)
    (touched : event.touched = h) (keeps : event.spends = false)
    (makes : event.copy = some (name start)) : Settles name h start (event :: (before ++ log)) := by
  have others : ∀ other, other ≠ name start →
      spentOnce other (event :: (before ++ log)) = spentOnce other log := by
    intro other differs
    rw [spentOnce_cons (by rw [keeps]; rintro ⟨-, ⟨⟩⟩), spentOnce_append]
    rintro first hi ⟨same, -⟩
    exact differs (same.symm.trans (own first hi).1)
  have new : spentOnce (name start) (event :: (before ++ log)) = true := by
    rw [spentOnce_cons (by rw [keeps]; rintro ⟨-, ⟨⟩⟩), spentOnce_append_of_spent spent]
    simp only [all_eq_true, decide_eq_true_eq]
    intro later hi same
    rcases hs.fresh later hi with isOriginal | ⟨num, ha, isCopy⟩
    · exact orig start (isOriginal.symm.trans same)
    · have he := hd (isCopy.symm.trans same)
      omega
  have made : ∀ other ∈ event :: (before ++ log), ∀ copy, other.copy = some copy →
      copy = name start ∨ ∃ num ≥ start + 1, copy = name num ∧ spentOnce copy log = true := by
    intro other hi copy made
    rcases mem_cons.mp hi with rfl | hi
    · exact inl (Option.some.inj (made.symm.trans makes))
    rcases mem_append.mp hi with first | later
    · rw [(own other first).2] at made
      cases made
    · obtain ⟨num, ha, same⟩ := hs.named other later copy made
      exact inr ⟨num, ha, same, hs.copies other later copy made⟩
  refine ⟨⟨?_, ?_⟩, ?_, ?_⟩
  · rw [others h (orig start)]
    exact hs.once
  · intro other hi copy isMade
    rcases made other hi copy isMade with rfl | ⟨num, ha, rfl, isSpent⟩
    · exact new
    rw [others]
    · exact isSpent
    · intro same
      have he := hd same
      omega
  · intro other hi
    rcases mem_cons.mp hi with rfl | hi
    · exact inl touched
    · rcases mem_append.mp hi with first | later
      · exact inr ⟨start, Nat.le_refl _, (own other first).1⟩
      · exact (hs.mono (Nat.le_succ start)).fresh other later
  · intro other hi copy isMade
    rcases made other hi copy isMade with rfl | ⟨num, ha, same, -⟩
    · exact ⟨start, Nat.le_refl _, rfl⟩
    · exact ⟨num, Nat.le_of_succ_le ha, same⟩

end Settles

end

end Custody
