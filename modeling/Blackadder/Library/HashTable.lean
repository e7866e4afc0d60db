import Mathlib.Data.List.AList

/-- The order in which a hash table is walked is left open: an insertion may rearrange it. -/
class IterationOrder where
  arrange : {α : Type} → List α → List α
  arrange_perm : ∀ {α : Type} (entries : List α), (arrange entries).Perm entries

/-- Tables walked in the order the keys were first inserted, newest first. -/
@[reducible] def insertionOrder : IterationOrder where
  arrange := id
  arrange_perm := fun _ => List.Perm.refl _

/-- A chained hash table: at most one entry a key, and some order of the entries. -/
structure HashTable (κ υ : Type) where
  table : AList (fun _ : κ => υ)

namespace HashTable

open List AList

variable {κ υ : Type} (t : HashTable κ υ)

def keys : List κ := t.table.keys

def size : Nat := t.keys.length

/-- The key `begin()` points at, absent when the table is empty. -/
def first? : Option κ := t.keys.head?

/-- The values in the order the table is walked. -/
def values : List υ := t.table.entries.map (·.2)

instance : Membership κ (HashTable κ υ) := ⟨fun t k => k ∈ t.keys⟩

instance : EmptyCollection (HashTable κ υ) := ⟨⟨∅⟩⟩

variable {t : HashTable κ υ} {k other : κ} {v : υ} {change : υ → υ} {property : υ → Prop}

theorem mem_keys : k ∈ t.keys ↔ k ∈ t := Iff.rfl

theorem keys_nodup (t : HashTable κ υ) : t.keys.Nodup := t.table.keys_nodup

section

variable {seen rest : List κ}

theorem mem_of_split (split : t.keys = seen ++ k :: rest) : k ∈ t := by
  rw [← mem_keys, split]
  simp

theorem not_visited (split : t.keys = seen ++ k :: rest) : k ∉ seen := by
  have nodup := t.keys_nodup
  rw [split] at nodup
  exact fun before => (nodup_append.mp nodup).2.2 k before k mem_cons_self rfl

end

@[simp, grind ←] theorem not_mem_empty (k : κ) : k ∉ (∅ : HashTable κ υ) := not_mem_nil

theorem mem_of_first? (first : t.first? = some k) : k ∈ t :=
  mem_of_head? first

theorem first?_isSome (hm : k ∈ t) : ∃ first, t.first? = some first := by
  cases shape : t.keys with
  | nil =>
    rw [← mem_keys, shape] at hm
    cases hm
  | cons first rest => exact ⟨first, by simp [first?, shape]⟩

theorem size_eq_zero : t.size = 0 ↔ ∀ k, k ∉ t := by
  simp [size, eq_nil_iff_forall_not_mem, mem_keys]

theorem size_pos : 0 < t.size ↔ ∃ k, k ∈ t := by
  rw [Nat.pos_iff_ne_zero, ne_eq, size_eq_zero]
  exact not_forall_not

theorem size_eq_one (hm : k ∈ t) : t.size = 1 ↔ ∀ other, other ∈ t → other = k := by
  constructor
  · intro one other hi
    obtain ⟨only, shape⟩ := length_eq_one_iff.mp one
    rw [← mem_keys, shape, mem_singleton] at hm hi
    rw [hm, hi]
  · intro hu
    have constant := eq_replicate_of_mem hu
    have hb : t.keys.length ≤ 1 := by
      apply nodup_replicate.mp
      rw [← constant]
      exact t.keys_nodup
    have hp : 0 < t.keys.length := length_pos_of_mem hm
    simp only [size]
    omega

/-- A change made through every entry in turn. -/
def mapValues (t : HashTable κ υ) (change : υ → υ) : HashTable κ υ :=
  ⟨⟨t.table.entries.map (Sigma.map id fun _ value => change value), t.table.nodupKeys.map₂ _⟩⟩

@[simp] theorem keys_mapValues (t : HashTable κ υ) (change : υ → υ) :
    (t.mapValues change).keys = t.keys := by
  simp only [keys, mapValues, AList.keys, List.keys, map_map]
  exact map_congr_left fun ⟨_, _⟩ _ => rfl

section

variable [DecidableEq κ]

instance (t : HashTable κ υ) (k : κ) : Decidable (k ∈ t) :=
  inferInstanceAs (Decidable (k ∈ t.keys))

def get (t : HashTable κ υ) (k : κ) : Option υ := t.table.lookup k

/-- Click's `get` of a table of plain values: the table's default for a missing key. -/
def getD (t : HashTable κ υ) (k : κ) (default : υ) : υ := (t.get k).getD default

def erase (t : HashTable κ υ) (k : κ) : HashTable κ υ := ⟨t.table.erase k⟩

/-- A change made through the pointer an entry holds: the entries keep their places. -/
def modify (t : HashTable κ υ) (k : κ) (change : υ → υ) : HashTable κ υ :=
  ⟨⟨t.table.entries.map (Sigma.map id fun key value => if key = k then change value else value),
    t.table.nodupKeys.map₂ _⟩⟩

/-- A change after which an entry that has become useless is erased. -/
def modifyOrErase (t : HashTable κ υ) (k : κ) (change : υ → υ) (useless : υ → Bool) :
    HashTable κ υ :=
  let changed := t.modify k change
  if (changed.get k).any useless then changed.erase k else changed

/-- The entry of a key is there and has a property. -/
def Has (t : HashTable κ υ) (k : κ) (property : υ → Prop) : Prop :=
  ∃ v, t.get k = some v ∧ property v

@[simp] theorem get_empty (k : κ) : (∅ : HashTable κ υ).get k = none := rfl

theorem mem_iff_get : k ∈ t ↔ ∃ v, t.get k = some v := by
  rw [← Option.isSome_iff_exists]
  exact lookup_isSome.symm

theorem mem_of_get (hf : t.get k = some v) : k ∈ t :=
  mem_iff_get.mpr ⟨v, hf⟩

theorem get_eq_none : t.get k = none ↔ k ∉ t :=
  lookup_eq_none

theorem mem_values : v ∈ t.values ↔ ∃ k, t.get k = some v := by
  simp only [values, get, mem_map, ← Option.mem_def, mem_lookup_iff]
  constructor
  · rintro ⟨⟨k, val⟩, hm, rfl⟩
    exact ⟨k, hm⟩
  · rintro ⟨k, hm⟩
    exact ⟨⟨k, v⟩, hm, rfl⟩

@[simp, grind =] theorem mem_erase : other ∈ t.erase k ↔ other ≠ k ∧ other ∈ t :=
  AList.mem_erase

@[grind =] theorem get_erase (t : HashTable κ υ) (k other : κ) :
    (t.erase k).get other = if other = k then none else t.get other := by
  split
  · rename_i hs
    rw [hs]
    exact lookup_erase k t.table
  · rename_i hd
    exact lookup_erase_ne hd

@[grind =] theorem get_modify (t : HashTable κ υ) (k other : κ) (change : υ → υ) :
    (t.modify k change).get other =
      if other = k then (t.get other).map change else t.get other := by
  have mapped := dlookup_map₂ (l := t.table.entries)
    (f := fun key val => if key = k then change val else val) other
  simp only [get, modify, AList.lookup, mapped]
  split
  · rfl
  · exact Option.map_id'

@[simp, grind =] theorem mem_modify : other ∈ t.modify k change ↔ other ∈ t := by
  simp only [mem_iff_get, get_modify]
  split <;> simp

@[simp] theorem keys_modify (t : HashTable κ υ) (k : κ) (change : υ → υ) :
    (t.modify k change).keys = t.keys := by
  simp only [keys, modify, AList.keys, List.keys, map_map]
  exact map_congr_left fun ⟨_, _⟩ _ => rfl

@[grind =] theorem get_mapValues (t : HashTable κ υ) (k : κ) (change : υ → υ) :
    (t.mapValues change).get k = (t.get k).map change :=
  dlookup_map₂ k

theorem get_modify_of_get (hf : t.get k = some v) (change : υ → υ) :
    (t.modify k change).get k = some (change v) := by
  rw [get_modify, if_pos rfl, hf, Option.map_some]

@[grind =] theorem get_modifyOrErase (t : HashTable κ υ) (k other : κ) (change : υ → υ)
    (useless : υ → Bool) : (t.modifyOrErase k change useless).get other =
      if other = k then ((t.get k).map change).filter (! useless ·) else t.get other := by
  have hc : (t.modify k change).get k = (t.get k).map change := by
    rw [get_modify, if_pos rfl]
  by_cases hs : other = k
  · subst hs
    rw [if_pos rfl, modifyOrErase, hc]
    generalize (t.get other).map change = entry at hc ⊢
    cases entry with
    | none => exact hc
    | some val =>
      cases test : useless val with
      | true => simp [test, get_erase, Option.filter]
      | false => simpa [test, Option.filter] using hc
  · rw [modifyOrErase]
    split
    · rw [get_erase, if_neg hs, get_modify, if_neg hs]
    · rw [get_modify, if_neg hs]

variable {useless : υ → Bool}

section

/-- A property of all entries and their keys. -/
def All (t : HashTable κ υ) (property : κ → υ → Prop) : Prop :=
    ∀ k v, t.get k = some v → property k v

variable {property : κ → υ → Prop} (all : t.All property)

include all

theorem All.modify (hc : ∀ v, t.get k = some v → property k v → property k (change v)) :
    (t.modify k change).All property := by
  intro other v hf
  rw [get_modify] at hf
  split at hf
  · rename_i hs
    subst hs
    obtain ⟨old, before, rfl⟩ := Option.map_eq_some_iff.mp hf
    exact hc old before (all other old before)
  · exact all other v hf

theorem All.modifyOrErase (hc : ∀ v, property k v → property k (change v)) :
    (t.modifyOrErase k change useless).All property := by
  intro other v hf
  rw [get_modifyOrErase] at hf
  split at hf
  · rename_i hs
    subst hs
    obtain ⟨old, before, rfl⟩ := Option.map_eq_some_iff.mp (Option.filter_eq_some_iff.mp hf).1
    exact hc old (all other old before)
  · exact all other v hf

end

theorem has_of_get (hf : t.get k = some v) : t.Has k property ↔ property v := by
  simp [Has, hf]

theorem has_erase : (t.erase k).Has other property ↔ other ≠ k ∧ t.Has other property := by
  simp only [Has, get_erase]
  split <;> simp_all

theorem has_modify : (t.modify k change).Has other property ↔
      t.Has other fun v => if other = k then property (change v) else property v := by
  simp only [Has, get_modify]
  split <;> simp [*]

theorem has_modifyOrErase :
    (t.modifyOrErase k change useless).Has other property ↔ t.Has other fun v =>
        if other = k then useless (change v) = false ∧ property (change v) else property v := by
  simp only [Has, get_modifyOrErase]
  split
  · rename_i hs
    subst hs
    cases t.get other <;> simp [and_assoc]
  · simp [*]

end

section

variable [IterationOrder] [DecidableEq κ]

private def rearrange (t : AList (fun _ : κ => υ)) : AList (fun _ : κ => υ) :=
  ⟨IterationOrder.arrange t.entries,
    (perm_nodupKeys (IterationOrder.arrange_perm _)).mpr t.nodupKeys⟩

private theorem lookup_rearrange (t : AList (fun _ : κ => υ)) (k : κ) :
    (rearrange t).lookup k = t.lookup k :=
  perm_lookup (IterationOrder.arrange_perm _)

/-- Click's `find_insert(k, v)`: the entry of `k`, created with the value `v` when missing. -/
def findInsert (t : HashTable κ υ) (k : κ) (v : υ) : HashTable κ υ :=
  if k ∈ t then t else ⟨rearrange (t.table.insert k v)⟩

/-- Click's `set(k, v)`: an assignment to the entry `find_insert(k)` returns. -/
def set (t : HashTable κ υ) (k : κ) (v : υ) : HashTable κ υ :=
  (t.findInsert k v).modify k fun _ => v

@[grind =] theorem get_findInsert (t : HashTable κ υ) (k other : κ) (v : υ) :
    (t.findInsert k v).get other = if other = k ∧ k ∉ t then some v else t.get other := by
  unfold findInsert
  by_cases hm : k ∈ t
  · simp [hm]
  simp only [hm, if_false, not_false_eq_true, and_true, get, lookup_rearrange]
  split
  · rename_i hs
    rw [hs, lookup_insert]
  · rename_i hd
    exact lookup_insert_ne hd

@[simp, grind =] theorem mem_findInsert : other ∈ t.findInsert k v ↔ other = k ∨ other ∈ t := by
  by_cases hs : other = k
  · subst hs
    by_cases hm : other ∈ t
    · simp [findInsert, hm]
    · simp [mem_iff_get (t := t.findInsert _ _), get_findInsert, hm]
  · simp [mem_iff_get, get_findInsert, hs]

@[grind =] theorem get_set (t : HashTable κ υ) (k other : κ) (v : υ) :
    (t.set k v).get other = if other = k then some v else t.get other := by
  simp only [set, get_modify, get_findInsert]
  by_cases hs : other = k
  · subst hs
    by_cases hm : other ∈ t
    · obtain ⟨val, hf⟩ := mem_iff_get.mp hm
      simp [hm, hf]
    · simp [hm]
  · simp [hs]

theorem get_foldl_set (keys : List κ) (val : υ) (t : HashTable κ υ) (k : κ) :
    (keys.foldl (fun t key => t.set key val) t).get k = if k ∈ keys then some val else t.get k := by
  induction keys generalizing t with
  | nil => simp
  | cons first rest ih =>
    rw [foldl_cons, ih, get_set]
    by_cases later : k ∈ rest
    · rw [if_pos later, if_pos (mem_cons_of_mem _ later)]
    by_cases hs : k = first
    · subst hs
      rw [if_neg later, if_pos rfl, if_pos mem_cons_self]
    · rw [if_neg later, if_neg hs, if_neg (by simp [hs, later])]

theorem All.set {property : κ → υ → Prop} (all : t.All property) (new : property k v) :
    (t.set k v).All property := by
  intro other val hf
  rw [get_set] at hf
  split at hf
  · rename_i hs
    rw [hs, ← Option.some.inj hf]
    exact new
  · exact all other val hf

theorem has_set : (t.set k v).Has other property ↔
      (other = k ∧ property v) ∨ (other ≠ k ∧ t.Has other property) := by
  simp only [Has, get_set]
  split <;> simp_all

@[simp, grind =] theorem mem_set : other ∈ t.set k v ↔ other = k ∨ other ∈ t := by
  simp [set]

end

end HashTable

/-- A hash set: the table whose entries carry no value. -/
abbrev HashSet (κ : Type) : Type := HashTable κ Unit

namespace HashSet

variable {κ : Type}

/-- Click's `find_insert(k)` on a set. -/
def insert [IterationOrder] [DecidableEq κ] (s : HashSet κ) (k : κ) : HashSet κ :=
  s.findInsert k ()

variable {s : HashSet κ} {k : κ}

@[simp, grind =] theorem mem_insert [IterationOrder] [DecidableEq κ] {other : κ} :
    other ∈ s.insert k ↔ other = k ∨ other ∈ s :=
  HashTable.mem_findInsert

/-- `find_insert` of every key of a list, in its order. -/
def insertAll [IterationOrder] [DecidableEq κ] (s : HashSet κ) (added : List κ) : HashSet κ :=
  added.foldl insert s

@[simp] theorem mem_insertAll [IterationOrder] [DecidableEq κ] {added : List κ} :
    k ∈ s.insertAll added ↔ k ∈ added ∨ k ∈ s := by
  induction added generalizing s with
  | nil => simp [insertAll]
  | cons _ _ ih =>
    rw [insertAll, List.foldl_cons, ← insertAll, ih, mem_insert, List.mem_cons]
    tauto

end HashSet
