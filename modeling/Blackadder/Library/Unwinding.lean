import Mathlib.Init

/-!
What one observer of a machine sees, and when it does not depend on the events of others.
-/

namespace Unwinding

variable {σ ε ο : Type} (step : σ → ε → σ × ο) (sees : ε → Bool)

/-- The events that the observer sees, with their outputs. -/
def observed : σ → List ε → List (ε × ο)
  | _, [] => []
  | state, event :: later =>
    let seen := observed (step state event).1 later
    if sees event then (event, (step state event).2) :: seen else seen

variable {step sees} {Agree : σ → σ → Prop} {allowed : ε → Prop}

/-- Events that depend on no others have the outputs that they would have alone. -/
theorem observed_filter
    (hidden : ∀ state alone event, allowed event → sees event = false → Agree state alone →
      Agree (step state event).1 alone)
    (hs : ∀ state alone event, allowed event → sees event = true → Agree state alone →
      (step state event).2 = (step alone event).2 ∧ Agree (step state event).1 (step alone event).1)
    {events : List ε} (all : ∀ event ∈ events, allowed event) {state alone : σ}
    (ha : Agree state alone) :
    observed step sees state events = observed step sees alone (events.filter sees) := by
  induction events generalizing state alone with
  | nil => rfl
  | cons event later ih =>
    have here := all event (.head _)
    have rest := fun other hm => all other (.tail _ hm)
    cases visible : sees event with
    | false =>
      rw [List.filter_cons_of_neg (by simp [visible]), observed, visible]
      exact ih rest (hidden state alone event here visible ha)
    | true =>
      obtain ⟨same, after⟩ := hs state alone event here visible ha
      rw [List.filter_cons_of_pos visible, observed, observed, visible, same]
      exact congrArg (List.cons _) (ih rest after)

end Unwinding
