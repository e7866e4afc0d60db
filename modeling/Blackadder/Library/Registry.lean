import Mathlib.Data.Set.Basic
import Blackadder.Library.HashTable

/-- A relation between owners and names that is kept from both sides. -/
structure Registry (α β : Type) where
  listed : α → Set β
  held : β → Set α

namespace Registry

open HashTable Set

variable {α β : Type} {r : Registry α β} {a a' : α} {b b' : β}

/-- The two sides agree. -/
def Mirrored (r : Registry α β) : Prop := ∀ a b, b ∈ r.listed a ↔ a ∈ r.held b

/-- An owner takes a name. -/
def enter (r : Registry α β) (a : α) (b : β) : Registry α β where
  listed a' := { b' | (a' = a ∧ b' = b) ∨ b' ∈ r.listed a' }
  held b' := { a' | (a' = a ∧ b' = b) ∨ a' ∈ r.held b' }

/-- An owner gives up a name. -/
def leave (r : Registry α β) (a : α) (b : β) : Registry α β where
  listed a' := { b' | ¬ (a' = a ∧ b' = b) ∧ b' ∈ r.listed a' }
  held b' := { a' | ¬ (a' = a ∧ b' = b) ∧ a' ∈ r.held b' }

/-- An owner gives up a set of names. -/
def withdraw (r : Registry α β) (a : α) (gone : Set β) : Registry α β where
  listed a' := { b' | ¬ (a' = a ∧ b' ∈ gone) ∧ b' ∈ r.listed a' }
  held b' := { a' | ¬ (a' = a ∧ b' ∈ gone) ∧ a' ∈ r.held b' }

/-- An owner is replaced by one that lists nothing. -/
def renew (r : Registry α β) (a : α) : Registry α β where
  listed a' := { b' | a' ≠ a ∧ b' ∈ r.listed a' }
  held := r.held

theorem Mirrored.enter (mirrored : r.Mirrored) : (r.enter a b).Mirrored := by
  intro a' b'
  exact or_congr Iff.rfl (mirrored a' b')

theorem Mirrored.leave (mirrored : r.Mirrored) : (r.leave a b).Mirrored := by
  intro a' b'
  exact and_congr Iff.rfl (mirrored a' b')

theorem Mirrored.renew (mirrored : r.Mirrored) (he : ∀ b, b ∉ r.listed a) :
    (r.renew a).Mirrored := by
  intro a' b'
  constructor
  · intro hl
    exact (mirrored a' b').mp hl.2
  · intro hh
    have hl := (mirrored a' b').mpr hh
    refine ⟨?_, hl⟩
    intro hs
    exact he b' (hs ▸ hl)

/-- The owner `a` takes a name or gives one up, or is replaced when it lists nothing. -/
inductive Change (a : α) (r : Registry α β) : Registry α β → Prop
  | same : Change a r r
  | enter (b : β) : Change a r (r.enter a b)
  | leave (b : β) : Change a r (r.leave a b)
  | renew (unlisted : ∀ b, b ∉ r.listed a) : Change a r (r.renew a)

namespace Change

variable {r' : Registry α β} (change : Change a r r')

include change

theorem mirrored (mirrored : r.Mirrored) : r'.Mirrored := by
  cases change with
  | same => exact mirrored
  | enter b => exact mirrored.enter
  | leave b => exact mirrored.leave
  | renew unlisted => exact mirrored.renew unlisted

theorem others_stay (other : a' ≠ a) (hh : a' ∈ r.held b) : a' ∈ r'.held b := by
  cases change with
  | same | renew => exact hh
  | enter => exact .inr hh
  | leave => exact ⟨fun both => other both.1, hh⟩

end Change

theorem ext_mem {r' : Registry α β} (hl : ∀ a b, b ∈ r.listed a ↔ b ∈ r'.listed a)
    (hh : ∀ a b, a ∈ r.held b ↔ a ∈ r'.held b) : r = r' := by
  obtain ⟨l, h⟩ := r
  obtain ⟨l', h'⟩ := r'
  have lists : l = l' := funext fun a => ext (hl a)
  have holds : h = h' := funext fun b => ext fun a => hh a b
  rw [lists, holds]

theorem withdraw_empty : r.withdraw a ∅ = r :=
  ext_mem (fun _ _ => by simp [withdraw]) fun _ _ => by simp [withdraw]

theorem withdraw_withdraw {gone more : Set β} :
    (r.withdraw a gone).withdraw a more = r.withdraw a (gone ∪ more) := by
  refine ext_mem (fun a' b' => ?_) fun a' b' => ?_
  all_goals simp only [withdraw, mem_ofPred_eq, mem_union]
  all_goals tauto

section

variable {η ε υ : Type} [DecidableEq α] [DecidableEq β] {owners : HashTable α η}
  {list : η → HashSet β} {index : HashTable β ε} {members : ε → HashTable α υ}

/-- A registry kept in two tables: the names that each owner lists, and the owners of each name. -/
def ofTables (owners : HashTable α η) (list : η → HashSet β) (index : HashTable β ε)
    (members : ε → HashTable α υ) : Registry α β where
  listed a := { b | owners.Has a (b ∈ list ·) }
  held b := { a | index.Has b (a ∈ members ·) }

variable {owner : η} {entry : ε}

theorem mem_listed (hf : owners.get a = some owner) :
    b ∈ (ofTables owners list index members).listed a ↔ b ∈ list owner :=
  has_of_get hf

theorem mem_held (hf : index.get b = some entry) :
    a ∈ (ofTables owners list index members).held b ↔ a ∈ members entry :=
  has_of_get hf

theorem ofTables_modify {change : ε → ε}
    (hs : ∀ entry, (members (change entry)).keys = (members entry).keys) :
    ofTables owners list (index.modify b change) members = ofTables owners list index members := by
  simp [ofTables, has_modify, ← mem_keys, hs]

theorem ofTables_owner {change : η → η} (hs : ∀ owner, list (change owner) = list owner) :
    ofTables (owners.modify a change) list index members = ofTables owners list index members := by
  simp [ofTables, has_modify, hs]

theorem ofTables_erase : ofTables (owners.erase a) list index members =
    (ofTables owners list index members).renew a :=
  ext_mem (fun _ _ => has_erase) fun _ _ => Iff.rfl

/-- Leaving both tables is leaving the registry. -/
theorem ofTables_leave {give : η → η} {drop : ε → ε} {useless : ε → Bool}
    (gives : ∀ owner, list (give owner) = HashTable.erase (list owner) b)
    (drops : ∀ entry, members (drop entry) = (members entry).erase a)
    (he : ∀ entry, useless entry = true ↔ (members entry).size = 0) :
    ofTables (owners.modify a give) list (index.modifyOrErase b drop useless) members =
      (ofTables owners list index members).leave a b := by
  have kept : ∀ {entry a'}, a' ∈ members entry → useless entry = false := by
    intro entry a' hm
    rw [← Bool.not_eq_true, he, size_eq_zero]
    exact fun none => none a' hm
  refine ext_mem (fun a' b' => ?_) fun a' b' => ?_
  · simp only [ofTables, leave, has_modify, gives]
    by_cases hs : a' = a
    · simp [hs, HashTable.Has]
      tauto
    · simp [hs]
  simp only [ofTables, leave, has_modifyOrErase]
  by_cases hs : b' = b
  · simp only [hs, and_true]
    constructor
    · rintro ⟨entry, hf, -, hm⟩
      rw [drops, mem_erase] at hm
      exact ⟨hm.1, entry, hf, hm.2⟩
    · rintro ⟨hd, entry, hf, hm⟩
      have left : a' ∈ members (drop entry) := by
        rw [drops, mem_erase]
        exact ⟨hd, hm⟩
      exact ⟨entry, hf, kept left, left⟩
  · simp [hs]

variable [IterationOrder]

theorem ofTables_set (he : ∀ b, b ∉ list owner) : ofTables (owners.set a owner) list index members =
      (ofTables owners list index members).renew a := by
  simp [ofTables, renew, has_set, he]

theorem ofTables_enter {take : η → η} {add : ε → ε} {v : υ}
    (takes : ∀ owner, list (take owner) = HashSet.insert (list owner) b)
    (adds : ∀ entry, members (add entry) = (members entry).findInsert a v)
    (live : a ∈ owners) (ht : b ∈ index) :
    ofTables (owners.modify a take) list (index.modify b add) members =
      (ofTables owners list index members).enter a b := by
  obtain ⟨owner, hf⟩ := mem_iff_get.mp live
  obtain ⟨entry, stored⟩ := mem_iff_get.mp ht
  refine ext_mem (fun a' b' => ?_) fun a' b' => ?_
  · simp only [ofTables, enter, has_modify, takes]
    by_cases hs : a' = a
    · subst hs
      simp [has_of_get hf]
    · simp [hs]
  · simp only [ofTables, enter, has_modify, adds]
    by_cases hs : b' = b
    · subst hs
      simp [has_of_get stored]
    · simp [hs]

theorem held_set (he : ∀ a, a ∉ members entry) :
    (ofTables owners list (index.set b entry) members).held b' =
      { a | b' ≠ b ∧ a ∈ (ofTables owners list index members).held b' } := by
  simp [ofTables, has_set, he]

end

end Registry
