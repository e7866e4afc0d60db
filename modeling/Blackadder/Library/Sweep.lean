import Blackadder.Library.NestedMap

/-!
A loop over the entries of a map that changes every value and takes out the entries that are empty
then. After an entry is taken out the loop starts again from the front.
-/

namespace Sweep

open List Option

open Std (TreeMap)

variable {κ υ ο : Type}

/-- What a visit does with a value, and what it puts out. -/
structure Visitor (κ υ ο : Type) where
  visit : κ → υ → υ × List ο
  isEmpty : υ → Bool

namespace Visitor

variable (visitor : Visitor κ υ ο)

/-- The loop with a bound on its rounds. The entries in front of the current one come last first. -/
def loop (rounds : Nat) (before rest : List (κ × υ)) : List (κ × υ) × List ο :=
  match rounds, rest with
  | 0, _ => (before.reverse ++ rest, [])
  | _ + 1, [] => (before.reverse, [])
  | rounds + 1, (key, value) :: rest =>
    let visited := visitor.visit key value
    let later :=
      if visitor.isEmpty visited.1 then loop rounds [] (before.reverse ++ rest)
      else loop rounds ((key, visited.1) :: before) rest
    (later.1, visited.2 ++ later.2)

def entries (list : List (κ × υ)) : List (κ × υ) × List ο :=
  visitor.loop ((list.length + 1) * (list.length + 1)) [] list

def sweep [Ord κ] (map : TreeMap κ υ) : TreeMap κ υ × List ο :=
  let swept := visitor.entries map.toList
  (TreeMap.ofList swept.1, swept.2)

variable {visitor}

/-- The rounds that the loop takes at most, with `rest` of `total` entries to go. -/
def bound (total rest : Nat) : Nat := rest + 1 + total * (total + 1)

theorem bound_restart (total rest : Nat) : bound total total ≤ bound (total + 1) rest - 1 := by
  unfold bound
  have expand : (total + 1) * (total + 1 + 1) = total * (total + 1) + 2 * (total + 1) := by
    rw [← Nat.add_mul, Nat.mul_comm]
  omega

/-- What a visit leaves of an entry. -/
def left (visitor : Visitor κ υ ο) (entry : κ × υ) : Option (κ × υ) :=
  let value := (visitor.visit entry.1 entry.2).1
  if visitor.isEmpty value then none else some (entry.1, value)

/-- A second visit to the entry changes nothing and puts out nothing. -/
def Settles (visitor : Visitor κ υ ο) (entry : κ × υ) : Prop :=
  let value := (visitor.visit entry.1 entry.2).1
  visitor.visit entry.1 value = (value, [])

/-- A visit to entries that have been visited. -/
theorem filterMap_left_eq {list : List (κ × υ)}
    (seen : ∀ entry ∈ list, visitor.visit entry.1 entry.2 = (entry.2, []) ∧
      visitor.isEmpty entry.2 = false) : list.filterMap visitor.left = list ∧
      list.flatMap (fun entry => (visitor.visit entry.1 entry.2).2) = [] := by
  induction list with
  | nil => exact ⟨rfl, rfl⟩
  | cons entry rest ih =>
    obtain ⟨same, silent⟩ := ih fun other hm => seen other (.tail _ hm)
    simp [left, seen entry mem_cons_self, same, silent]

/-- The entries in front of the current one are visited again after a restart, in vain. -/
theorem loop_eq {rounds : Nat} {before rest : List (κ × υ)}
    (seen : ∀ entry ∈ before, visitor.visit entry.1 entry.2 = (entry.2, []) ∧
      visitor.isEmpty entry.2 = false) (pending : ∀ entry ∈ rest, visitor.Settles entry)
    (he : bound (before.length + rest.length) rest.length ≤ rounds) :
    visitor.loop rounds before rest = (before.reverse ++ rest.filterMap visitor.left,
      rest.flatMap fun entry => (visitor.visit entry.1 entry.2).2) := by
  induction rounds generalizing before rest with
  | zero =>
    unfold bound at he
    omega
  | succ rounds ih =>
    cases rest with
    | nil => simp [loop]
    | cons entry rest =>
      have restart := bound_restart (before.length + rest.length) (rest.length + 1)
      rw [length_cons, ← Nat.add_assoc] at he
      rw [loop]
      split
      · rename_i empty
        rw [ih (forall_mem_nil _)]
        · obtain ⟨same, silent⟩ := filterMap_left_eq fun entry hm =>
            seen entry (mem_reverse.mp hm)
          simp [same, silent, left, empty]
        · intro entry hm
          rcases mem_append.mp hm with first | last
          · have ha := (seen entry (mem_reverse.mp first)).1
            simp [Settles, ha]
          · exact pending entry (.tail _ last)
        · rw [length_append, length_reverse, length_nil, Nat.zero_add]
          omega
      · rename_i full
        rw [ih]
        · simp [left, full]
        · intro entry hm
          cases hm with
          | head => exact ⟨pending _ mem_cons_self, Bool.eq_false_iff.mpr full⟩
          | tail _ earlier => exact seen entry earlier
        · exact fun entry hm => pending entry (.tail _ hm)
        · have same : before.length + 1 + rest.length = before.length + rest.length + 1 := by
            omega
          rw [length_cons, same]
          unfold bound at *
          omega

section

variable [Ord κ] {map : TreeMap κ υ}

theorem sweep_eq (hs : ∀ entry ∈ map.toList, visitor.Settles entry) :
    visitor.sweep map = (TreeMap.ofList (map.toList.filterMap visitor.left),
      map.toList.flatMap fun entry => (visitor.visit entry.1 entry.2).2) := by
  have he : bound (([] : List (κ × υ)).length + map.toList.length) map.toList.length ≤
      (map.toList.length + 1) * (map.toList.length + 1) := by
    rw [length_nil, Nat.zero_add, bound, Nat.add_mul]
    omega
  rw [sweep, entries, loop_eq (forall_mem_nil _) hs he]
  rfl

variable [Std.TransOrd κ] [Std.LawfulEqOrd κ]

theorem mem_out {out : ο} (hs : ∀ entry ∈ map.toList, visitor.Settles entry) :
    out ∈ (visitor.sweep map).2 ↔
      ∃ key val, map[key]? = some val ∧ out ∈ (visitor.visit key val).2 := by
  simp [sweep_eq hs]

/-- Nothing is put out twice where what is put out tells the key. -/
theorem nodup_out (keyOf : ο → κ) (hs : ∀ entry ∈ map.toList, visitor.Settles entry)
    (each : ∀ key val, map[key]? = some val → (visitor.visit key val).2.Nodup ∧
      ∀ out ∈ (visitor.visit key val).2, keyOf out = key) : (visitor.sweep map).2.Nodup := by
  have visits : ∀ entry ∈ map.toList, _ := fun entry hm =>
    each entry.1 entry.2 (TreeMap.mem_toList_iff_getElem?_eq_some.mp hm)
  rw [sweep_eq hs]
  refine pairwise_flatMap.mpr ⟨fun entry hm => (visits entry hm).1, ?_⟩
  apply TreeMap.distinct_keys_toList.imp_of_mem
  intro a b memberA memberB differ out outA out' outB same
  apply differ
  rw [← (visits a memberA).2 out outA, ← (visits b memberB).2 out' outB, same]
  exact Std.ReflOrd.compare_self

variable [DecidableEq κ]

section

variable (hs : ∀ entry ∈ map.toList, visitor.Settles entry)

include hs

theorem toList_sweep : (visitor.sweep map).1.toList = map.toList.filterMap visitor.left := by
  have ho : map.toList.Pairwise fun a b => compare a.1 b.1 = .lt := TreeMap.ordered_keys_toList
  rw [sweep_eq hs]
  refine NestedMap.toList_ofList (pairwise_filterMap.mpr (ho.imp ?_))
  intro a b less a' keptA b' keptB
  simp only [left, ite_none_left_eq_some, some.injEq] at keptA keptB
  rw [← keptA.2, ← keptB.2]
  exact less

theorem getElem?_sweep (key : κ) : (visitor.sweep map).1[key]? = map[key]?.bind fun old =>
      let val := (visitor.visit key old).1
      if visitor.isEmpty val then none else some val := by
  ext val
  rw [← TreeMap.mem_toList_iff_getElem?_eq_some, toList_sweep hs, mem_filterMap, bind_eq_some_iff]
  simp only [left, ite_none_left_eq_some, some.injEq, Prod.mk.injEq]
  constructor
  · rintro ⟨⟨_, old⟩, hm, full, rfl, same⟩
    exact ⟨old, TreeMap.mem_toList_iff_getElem?_eq_some.mp hm, full, same⟩
  · rintro ⟨old, hf, full, same⟩
    exact ⟨(key, old), TreeMap.mem_toList_iff_getElem?_eq_some.mpr hf, full, rfl, same⟩

theorem full_sweep {key : κ} {val : υ} (hf : (visitor.sweep map).1[key]? = some val) :
    visitor.isEmpty val = false := by
  rw [getElem?_sweep hs] at hf
  obtain ⟨old, _, kept⟩ := bind_eq_some_iff.mp hf
  obtain ⟨full, same⟩ := ite_none_left_eq_some.mp kept
  cases same
  exact Bool.eq_false_iff.mpr full

end

/-- What is found through a lookup that finds nothing in an empty value. -/
theorem bind_sweep {μ : Type} {look : υ → Option μ}
    (he : ∀ val, visitor.isEmpty val = true → look val = none)
    (hs : ∀ entry ∈ map.toList, visitor.Settles entry) (key : κ) :
    (visitor.sweep map).1[key]?.bind look =
      map[key]?.bind fun old => look (visitor.visit key old).1 := by
  rw [getElem?_sweep hs, bind_assoc]
  exact congrArg _ (funext fun old => NestedMap.bind_unless he _)

theorem sweep_sweep (hs : ∀ entry ∈ map.toList, visitor.Settles entry) :
    visitor.sweep (visitor.sweep map).1 = ((visitor.sweep map).1, []) := by
  have swept : ∀ entry ∈ (visitor.sweep map).1.toList,
      visitor.visit entry.1 entry.2 = (entry.2, []) ∧ visitor.isEmpty entry.2 = false := by
    rintro ⟨key, val⟩ hm
    rw [TreeMap.mem_toList_iff_getElem?_eq_some] at hm
    have full := full_sweep hs hm
    rw [getElem?_sweep hs] at hm
    obtain ⟨old, hf, kept⟩ := bind_eq_some_iff.mp hm
    cases (ite_none_left_eq_some.mp kept).2
    exact ⟨hs _ (TreeMap.mem_toList_iff_getElem?_eq_some.mpr hf), full⟩
  rw [sweep_eq fun entry hm => by simp [Settles, (swept entry hm).1],
    (filterMap_left_eq swept).1, (filterMap_left_eq swept).2, toList_sweep hs, sweep_eq hs]

end

end Visitor

end Sweep
