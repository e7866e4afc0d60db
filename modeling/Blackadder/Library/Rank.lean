import Mathlib.Data.Set.Card

/-- A rank that grows along every edge of a relation. -/
def Ranked {α : Type} (edge : α → α → Prop) (rank : α → Nat) : Prop :=
  ∀ a b, edge a b → rank a < rank b

/-- A relation without cycles. -/
def Acyclic {α : Type} (edge : α → α → Prop) : Prop := ∀ a, ¬ Relation.TransGen edge a a

namespace Ranked

open Relation

variable {α : Type} {edge : α → α → Prop} {rank : α → Nat}

theorem lt_of_transGen (ranked : Ranked edge rank) {a b : α}
    (path : TransGen edge a b) : rank a < rank b := by
  induction path with
  | single step => exact ranked _ _ step
  | tail _ step ih => exact Nat.lt_trans ih (ranked _ _ step)

theorem acyclic (ranked : Ranked edge rank) : Acyclic edge :=
  fun _ cycle => Nat.lt_irrefl _ (ranked.lt_of_transGen cycle)

open Classical in
/-- A new edge keeps a rank when no path leads back: all at or below `target` is lifted. -/
theorem addEdge (ranked : Ranked edge rank) {src target : α}
    (apart : ¬ ReflTransGen edge target src) : ∃ lifted : α → Nat,
      Ranked (fun a b => edge a b ∨ (a = src ∧ b = target)) lifted := by
  refine ⟨fun a => rank a +
    if ReflTransGen edge target a then rank src + 1 else 0, ?_⟩
  rintro a b (step | ⟨rfl, rfl⟩)
  · have hg := ranked a b step
    by_cases hb : ReflTransGen edge target a
    · have hs : ReflTransGen edge target b := hb.tail step
      simp only [hb, hs, if_true]
      omega
    · simp only [hb, if_false]
      omega
  · have self : ReflTransGen edge b b := ReflTransGen.refl
    simp only [apart, self, if_false, if_true]
    omega

end Ranked

variable {α : Type}

/-- Without cycles, the number of nodes above a node is a rank. -/
theorem Acyclic.ranked {edge : α → α → Prop} (acyclic : Acyclic edge)
    (hf : ∀ a, { b | Relation.TransGen edge b a }.Finite) :
    Ranked edge fun a => { b | Relation.TransGen edge b a }.ncard := by
  intro a b step
  refine Set.ncard_lt_ncard ⟨fun c path => path.tail step, fun hi => ?_⟩ (hf b)
  exact acyclic a (hi (Relation.TransGen.single step))

theorem Acyclic.apart_of_addEdge {edge : α → α → Prop} {src target : α}
    (acyclic : Acyclic (fun a b => edge a b ∨ (a = src ∧ b = target))) :
    ¬ Relation.ReflTransGen edge target src := by
  intro path
  apply acyclic target
  have lifted := Relation.ReflTransGen.mono
    (p := fun a b => edge a b ∨ (a = src ∧ b = target)) (fun _ _ step => Or.inl step) _ _ path
  exact Relation.TransGen.tail' lifted (Or.inr ⟨rfl, rfl⟩)
