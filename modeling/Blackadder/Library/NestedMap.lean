import Mathlib.Init
import Std.Data.TreeMap.Lemmas

/-!
Maps of maps. An entry is put in through every level, with a fresh inner map wherever a key is new,
and taken out again together with the levels that are empty without it.
-/

namespace NestedMap

open Std.ReflOrd
open Std (TreeMap)

variable {κ ι υ : Type} [Ord κ] [Ord ι]

/-- Changes the value of a key, or gives a new key its first value. -/
def within (key : κ) (first : υ) (change : υ → υ) (map : TreeMap κ υ) : TreeMap κ υ :=
  match map[key]? with
  | none => map.insert key first
  | some value => map.insert key (change value)

/-- Takes out a key, if it is there. -/
def cut (key : κ) (map : TreeMap κ υ) : Option (TreeMap κ υ) :=
  if map.contains key then some (map.erase key) else none

/-- Takes something out of an inner map, and the key with it when nothing is left there. -/
def prune (key : κ) (cutInner : TreeMap ι υ → Option (TreeMap ι υ))
    (map : TreeMap κ (TreeMap ι υ)) : Option (TreeMap κ (TreeMap ι υ)) := do
  let inner ← map[key]?
  let rest ← cutInner inner
  return if rest.isEmpty then map.erase key else map.insert key rest

/-- Changes the value of a key that is there. -/
def adjust (key : κ) (change : υ → υ) (map : TreeMap κ υ) : TreeMap κ υ :=
  match map[key]? with
  | none => map
  | some value => map.insert key (change value)

def single (key : κ) (value : υ) : TreeMap κ υ := (∅ : TreeMap κ υ).insert key value

theorem compare_eq_iff [Std.LawfulEqOrd κ] {key other : κ} :
    compare key other = .eq ↔ other = key :=
  ⟨fun hs => (Std.LawfulEqOrd.eq_of_compare hs).symm, fun hs => hs ▸ compare_self⟩

/-- A map lists its entries in the order of the keys. -/
theorem toList_eq [Std.TransOrd κ] [Std.LawfulEqOrd κ] {map : TreeMap κ υ} {entries : List (κ × υ)}
    (sorted : entries.Pairwise fun a b => compare a.1 b.1 = .lt)
    (hs : ∀ key val, map[key]? = some val ↔ (key, val) ∈ entries) : map.toList = entries := by
  have ho : map.toList.Pairwise fun a b => compare a.1 b.1 = .lt := TreeMap.ordered_keys_toList
  have irrefl : ∀ a b : κ × υ, compare a.1 b.1 = .lt → a ≠ b := by
    rintro a b less rfl
    rw [compare_self] at less
    cases less
  apply List.Perm.eq_of_pairwise ?_ ho sorted
  · apply (List.perm_ext_iff_of_nodup (ho.imp (irrefl _ _)) (sorted.imp (irrefl _ _))).mpr
    rintro ⟨key, val⟩
    rw [TreeMap.mem_toList_iff_getElem?_eq_some, hs]
  · intro a b _ _ less greater
    rw [Std.OrientedOrd.eq_swap, greater] at less
    cases less

variable [Std.TransOrd κ] [Std.LawfulEqOrd κ] [DecidableEq κ] {map : TreeMap κ υ} {key other : κ}

section

variable {entries : List (κ × υ)}

theorem getElem?_ofList {val : υ} (sorted : entries.Pairwise fun a b => compare a.1 b.1 = .lt) :
    (TreeMap.ofList entries)[key]? = some val ↔ (key, val) ∈ entries := by
  have hd : entries.Pairwise fun a b => ¬ compare a.1 b.1 = .eq := by
    apply sorted.imp
    intro a b less hs
    rw [less] at hs
    cases hs
  have finds : ∀ {val}, (key, val) ∈ entries → (TreeMap.ofList entries)[key]? = some val :=
    TreeMap.getElem?_ofList_of_mem compare_self hd
  refine ⟨fun hf => ?_, finds⟩
  by_cases ht : ∃ other, (key, other) ∈ entries
  · obtain ⟨other, hm⟩ := ht
    cases hf.symm.trans (finds hm)
    exact hm
  have none : (TreeMap.ofList entries)[key]? = none := by
    apply TreeMap.getElem?_ofList_of_contains_eq_false
    rw [List.contains_eq_mem, decide_eq_false_iff_not, List.mem_map]
    rintro ⟨⟨_, other⟩, hm, rfl⟩
    exact ht ⟨other, hm⟩
  cases none.symm.trans hf

theorem toList_ofList (hs : entries.Pairwise fun a b => compare a.1 b.1 = .lt) :
    (TreeMap.ofList entries).toList = entries :=
  toList_eq hs fun _ _ => getElem?_ofList hs

end

theorem getElem?_insert (val : υ) :
    (map.insert key val)[other]? = if other = key then some val else map[other]? := by
  rw [TreeMap.getElem?_insert]
  simp only [compare_eq_iff]

theorem getElem?_insertIfNew (val : υ) : (map.insertIfNew key val)[other]? =
    if other = key ∧ key ∉ map then some val else map[other]? := by
  rw [TreeMap.getElem?_insertIfNew]
  simp only [compare_eq_iff]

omit [DecidableEq κ] [Std.LawfulEqOrd κ] in
theorem mem_iff_exists : key ∈ map ↔ ∃ val, map[key]? = some val := by
  rw [TreeMap.mem_iff_isSome_getElem?, Option.isSome_iff_exists]

theorem getElem?_single (val : υ) :
    (single key val)[other]? = if other = key then some val else none := by
  rw [single, getElem?_insert]
  simp

theorem getElem?_within (first : υ) (change : υ → υ) : (within key first change map)[other]? =
      if other = key then some ((map[key]?.map change).getD first) else map[other]? := by
  unfold within
  cases hf : map[key]? with
  | none | some val => simp [getElem?_insert]

theorem getElem?_adjust (change : υ → υ) : (adjust key change map)[other]? =
      if other = key then map[key]?.map change else map[other]? := by
  unfold adjust
  cases hf : map[key]? with
  | none =>
    by_cases hs : other = key
    · rw [if_pos hs, hs, hf]
      rfl
    · rw [if_neg hs]
  | some val => simp [getElem?_insert]

theorem getElem?_erase : (map.erase key)[other]? = if other = key then none else map[other]? := by
  rw [TreeMap.getElem?_erase]
  simp only [compare_eq_iff]

section

variable {μ : Type} {p : Prop} [Decidable p] {look : μ → Option υ} {first : υ} {change : υ → υ}

/-- A way to put an entry into a map, seen through a lookup that finds the entry if `p` holds. -/
structure Puts (look : μ → Option υ) (p : Prop) [Decidable p] (first : υ) (change : υ → υ)
    (fresh : μ) (put : μ → μ) : Prop where
  new : look fresh = if p then some first else none
  old : ∀ map, look (put map) = if p then some ((look map).elim first change) else look map

theorem puts_within (key other : κ) (first : υ) (change : υ → υ) :
    Puts (fun map : TreeMap κ υ => map[other]?) (other = key) first change (single key first)
      (within key first change) where
  new := getElem?_single first
  old map := by
    rw [getElem?_within]
    split
    · rename_i hs
      rw [hs]
      cases map[key]? <;> rfl
    · rfl

theorem Puts.level {fresh : μ} {put : μ → μ} (puts : Puts look p first change fresh put)
    (key other : κ) :
    Puts (fun map : TreeMap κ μ => map[other]?.bind look) (other = key ∧ p) first change
      (single key fresh) (within key fresh put) where
  new := by
    rw [getElem?_single]
    by_cases hs : other = key
    · simp [hs, puts.new]
    · simp [hs]
  old map := by
    rw [getElem?_within]
    by_cases hs : other = key
    · subst hs
      cases map[other]? with
      | none => simp [puts.new]
      | some inner => simp [puts.old]
    · simp [hs]

/-- A way to change an entry that is there. -/
structure Changes (look : μ → Option υ) (p : Prop) [Decidable p] (change : υ → υ) (go : μ → μ) :
    Prop where
  seen : ∀ map, look (go map) = if p then (look map).map change else look map

theorem changes_adjust (key other : κ) (change : υ → υ) :
    Changes (fun map : TreeMap κ υ => map[other]?) (other = key) change (adjust key change) where
  seen map := by
    rw [getElem?_adjust]
    split
    · rename_i hs
      rw [hs]
    · rfl

theorem Changes.level {go : μ → μ} (changes : Changes look p change go) (key other : κ) :
    Changes (fun map : TreeMap κ μ => map[other]?.bind look) (other = key ∧ p) change
      (adjust key go) where
  seen map := by
    rw [getElem?_adjust]
    by_cases hs : other = key
    · subst hs
      cases map[other]? with
      | none => simp
      | some inner => simp [changes.seen]
    · simp [hs]

theorem bind_unless {α : Type} {isEmpty : α → Bool} {look : α → Option μ}
    (he : ∀ val, isEmpty val → look val = none) (val : α) :
    (if isEmpty val then none else some val).bind look = look val := by
  split
  · rename_i nothing
    exact (he val nothing).symm
  · rfl

section

variable (map : TreeMap κ (TreeMap ι υ)) (rest : TreeMap ι υ) (key other : κ)

theorem getElem?_replace : (if rest.isEmpty then map.erase key else map.insert key rest)[other]? =
      if other = key then if rest.isEmpty then none else some rest else map[other]? := by
  split
  · exact getElem?_erase
  · exact getElem?_insert rest

theorem bind_replace {look : TreeMap ι υ → Option μ} (he : ∀ map, map.isEmpty → look map = none) :
    ((if rest.isEmpty then map.erase key else map.insert key rest)[other]?.bind look) =
      if other = key then look rest else map[other]?.bind look := by
  rw [getElem?_replace]
  split
  · exact bind_unless he rest
  · rfl

variable (rest : TreeMap ι υ → TreeMap ι υ)

theorem getElem?_replaceAt : (match map[key]? with
      | none => map
      | some inner =>
        if (rest inner).isEmpty then map.erase key else map.insert key (rest inner))[other]? =
    if other = key then map[key]?.bind fun inner =>
      if (rest inner).isEmpty then none else some (rest inner) else map[other]? := by
  cases hk : map[key]? with
  | none =>
    by_cases hs : other = key
    · rw [if_pos hs, hs]
      exact hk
    · rw [if_neg hs]
  | some inner => exact getElem?_replace map (rest inner) key other

end

/-- A way to take an entry out of a map, which fails when there is none. -/
structure Takes (look : TreeMap ι υ → Option μ) (p : Prop) [Decidable p]
    (take : TreeMap ι υ → Option (TreeMap ι υ)) : Prop where
  empty : ∀ map, map.isEmpty → look map = none
  hit : ∀ map rest, take map = some rest → look rest = if p then none else look map
  miss : ∀ map, take map = none → p → look map = none

variable {take : TreeMap ι υ → Option (TreeMap ι υ)}

theorem Takes.taken {look : TreeMap ι υ → Option μ} (takes : Takes look p take)
    (map : TreeMap ι υ) : look ((take map).getD map) = if p then none else look map := by
  cases taken : take map with
  | some rest => exact takes.hit map rest taken
  | none =>
    split
    · rename_i hit
      exact takes.miss map taken hit
    · rfl

theorem takes_cut (key other : κ) :
    Takes (fun map : TreeMap κ υ => map[other]?) (other = key) (cut key) where
  empty map isEmpty := TreeMap.getElem?_of_isEmpty isEmpty
  hit map rest taken := by
    unfold cut at taken
    split at taken
    · cases taken
      exact getElem?_erase
    · cases taken
  miss map none hs := by
    unfold cut at none
    split at none
    · cases none
    rename_i ha
    rw [hs]
    simpa using ha

theorem Takes.level {look : TreeMap ι υ → Option μ} (takes : Takes look p take) (key other : κ) :
    Takes (fun map : TreeMap κ (TreeMap ι υ) => map[other]?.bind look) (other = key ∧ p)
      (prune key take) where
  empty map isEmpty := by rw [TreeMap.getElem?_of_isEmpty isEmpty]; rfl
  hit map rest taken := by
    obtain ⟨inner, hf, taken⟩ := Option.bind_eq_some_iff.mp taken
    obtain ⟨left, hi, taken⟩ := Option.bind_eq_some_iff.mp taken
    cases taken
    rw [bind_replace map left key other takes.empty]
    by_cases hs : other = key
    · subst hs
      simp [hf, takes.hit inner left hi]
    · simp [hs]
  miss map none hh := by
    obtain ⟨rfl, hh⟩ := hh
    cases hf : map[other]? with
    | none => rfl
    | some inner =>
      cases hi : take inner with
      | none => exact takes.miss inner hi hh
      | some left => simp [prune, hf, hi] at none

end

end NestedMap
