import Mathlib.Data.List.Nodup

/-!
A directed multigraph as a graph library keeps it: the edges are numbered by their places in a
list. A deletion moves the later ones up, an addition is at the end.
-/

namespace EdgeList

open List

structure Edge (ν α : Type) where
  ends : ν × ν
  label : α
  deriving DecidableEq

variable {ν α : Type} {edges : List (Edge ν α)} {edge : Edge ν α}

def delete (edges : List (Edge ν α)) (numbers : List Nat) : List (Edge ν α) :=
  (edges.zipIdx.filter fun numbered => numbered.2 ∉ numbers).map Prod.fst

def relabel (edges : List (Edge ν α)) (number : Nat) (label : α) : List (Edge ν α) :=
  edges.modify number fun edge => { edge with label }

variable {numbers : List Nat}

theorem mem_delete : edge ∈ delete edges numbers ↔ ∃ i, edges[i]? = some edge ∧ i ∉ numbers := by
  simp [delete, mem_zipIdx_iff_getElem?]

theorem delete_sublist (edges : List (Edge ν α)) (numbers : List Nat) :
    (delete edges numbers).Sublist edges := by
  have kept := (filter_sublist (p := fun numbered : Edge ν α × Nat => numbered.2 ∉ numbers)
    (l := edges.zipIdx)).map Prod.fst
  rwa [zipIdx_map_fst] at kept

theorem getElem?_relabel (edges : List (Edge ν α)) (number i : Nat) (label : α) :
    (relabel edges number label)[i]? =
      if number = i then edges[i]?.map fun edge => { edge with label } else edges[i]? := by
  rw [relabel]
  split <;> simp [*]

theorem mem_relabel {number : Nat} {label : α} (hm : edge ∈ relabel edges number label) :
    edge ∈ edges ∨ ∃ old, edges[number]? = some old ∧ edge = { old with label } := by
  obtain ⟨i, hf⟩ := mem_iff_getElem?.mp hm
  rw [getElem?_relabel] at hf
  split at hf
  · rename_i here
    obtain ⟨old, before, rfl⟩ := Option.map_eq_some_iff.mp hf
    exact .inr ⟨old, here ▸ before, rfl⟩
  · exact .inl (mem_of_getElem? hf)

theorem relabel_append (edges more : List (Edge ν α)) (number : Nat) (label : α) :
    relabel (edges ++ more) (edges.length + number) label = edges ++ relabel more number label := by
  apply ext_getElem?
  intro i
  rw [getElem?_relabel]
  by_cases left : i < edges.length
  · rw [if_neg (by omega), getElem?_append_left left, getElem?_append_left left]
  rw [getElem?_append_right (by omega), getElem?_append_right (by omega), getElem?_relabel]
  by_cases here : number = i - edges.length
  · rw [if_pos here, if_pos (by omega)]
  · rw [if_neg here, if_neg (by omega)]

theorem mem_delete_of_nodup (nodup : edges.Nodup) : edge ∈ delete edges numbers ↔
      edge ∈ edges ∧ ¬ ∃ number ∈ numbers, edges[number]? = some edge := by
  rw [mem_delete, mem_iff_getElem?]
  constructor
  · rintro ⟨i, here, kept⟩
    refine ⟨⟨i, here⟩, ?_⟩
    rintro ⟨number, hc, ht⟩
    have hi := (List.getElem?_eq_some_iff.mp ht).1
    have hs := (getElem?_inj hi nodup).mp (ht.trans here.symm)
    exact kept (hs ▸ hc)
  · rintro ⟨⟨i, here⟩, kept⟩
    exact ⟨i, here, fun hc => kept ⟨i, hc, here⟩⟩

section

variable [DecidableEq ν] {pair : ν × ν}

/-- The number of the first edge between two vertices. -/
def number (edges : List (Edge ν α)) (pair : ν × ν) : Option Nat :=
  edges.findIdx? fun edge => edge.ends = pair

theorem number_eq_some {i : Nat} (hf : number edges pair = some i) :
    ∃ edge, edges[i]? = some edge ∧ edge.ends = pair := by
  obtain ⟨hi, here, -⟩ := findIdx?_eq_some_iff_getElem.mp hf
  exact ⟨edges[i], getElem?_eq_getElem hi, of_decide_eq_true here⟩

theorem number_eq_none : number edges pair = none ↔ ∀ edge ∈ edges, edge.ends ≠ pair := by
  rw [number]
  simp

theorem number_isSome : (number edges pair).isSome ↔ pair ∈ edges.map Edge.ends := by
  rw [← Option.ne_none_iff_isSome, ne_eq, number_eq_none]
  simp only [mem_map]
  push Not
  rfl

theorem number_append (edges more : List (Edge ν α)) (pair : ν × ν) : number (edges ++ more) pair =
      (number edges pair).or ((number more pair).map (edges.length + ·)) := by
  simp only [Nat.add_comm edges.length]
  exact findIdx?_append

end

end EdgeList
