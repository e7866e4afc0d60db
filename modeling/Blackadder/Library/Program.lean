import Mathlib.Init

variable {ε α β : Type}

theorem bind_ok_iff {first : Except ε α} {second : α → Except ε β} {res : β} :
    first >>= second = .ok res ↔ ∃ val, first = .ok val ∧ second val = .ok res := by
  cases first with
  | error => exact iff_of_false nofun fun ⟨_, hr, _⟩ => nomatch hr
  | ok val =>
    constructor
    · intro hr
      exact ⟨val, rfl, hr⟩
    · rintro ⟨_, hs, hr⟩
      cases hs
      exact hr

theorem except_bind_eq_error {first : Except ε α} {second : α → Except ε β} {reason : ε} :
    first >>= second = .error reason ↔
      first = .error reason ∨ ∃ val, first = .ok val ∧ second val = .error reason := by
  cases first with
  | error other =>
    change Except.error other = _ ↔ _
    simp
  | ok val =>
    change second val = _ ↔ _
    simp

section

variable {ε α β : Type} {body : β → α → Except ε β}

/-- A loop whose turns all return, with an invariant indexed by the elements already visited. -/
theorem except_foldlM_returns (visits : List α) (inv : List α → β → Prop)
    (step : ∀ visited cur rest acc, visits = visited ++ cur :: rest → inv visited acc →
      ∃ next, body acc cur = .ok next ∧ inv (visited ++ [cur]) next)
    (init : β) (start : inv [] init) :
    ∃ final, visits.foldlM body init = .ok final ∧ inv visits final := by
  -- The invariant of the rest is the same one, with the first element already visited.
  induction visits generalizing inv init with
  | nil => exact ⟨init, rfl, start⟩
  | cons cur rest ih =>
    obtain ⟨next, hr, returned⟩ := step [] cur rest init rfl start
    obtain ⟨final, ends, last⟩ := ih (fun visited => inv (cur :: visited))
      (fun visited _ _ acc split => step (cur :: visited) _ _ acc (congrArg _ split)) next returned
    refine ⟨final, ?_, last⟩
    exact bind_ok_iff.mpr ⟨next, hr, ends⟩

/-- The same invariant where some turns may stop. -/
theorem except_foldlM_ok (visits : List α) (inv : List α → β → Prop)
    (step : ∀ visited cur rest acc next, visits = visited ++ cur :: rest →
      inv visited acc → body acc cur = .ok next → inv (visited ++ [cur]) next)
    (init : β) (start : inv [] init) {final : β} (hr : visits.foldlM body init = .ok final) :
    inv visits final := by
  induction visits generalizing inv init with
  | nil =>
    cases hr
    exact start
  | cons cur rest ih =>
    obtain ⟨next, turn, later⟩ := bind_ok_iff.mp hr
    exact ih (fun visited => inv (cur :: visited))
      (fun visited _ _ acc next split => step (cur :: visited) _ _ acc next (congrArg _ split))
      next (step [] cur rest init next rfl start turn) later

end

/-- Imperative code over a state `σ` that may stop with a fault `ε`. -/
abbrev Program (σ ε α : Type) : Type := StateT σ (Except ε) α

namespace Program

open List Except Program

variable {σ ε α β : Type}

def read (view : σ → α) : Program σ ε α := fun s => .ok (view s, s)

def update (change : σ → σ) : Program σ ε Unit := fun s => .ok ((), change s)

def fail (reason : ε) : Program σ ε α := fun _ => .error reason

/-- The value of an optional lookup, or the fault of using an empty one. -/
def expect (reason : ε) : Option α → Program σ ε α
  | some value => pure value
  | none => fail reason

/-- A look at the state that may itself stop. -/
def examine (view : σ → Except ε α) : Program σ ε α := fun s => (view s).map fun value => (value, s)

/-- Weakest precondition: a run from `s` ends in `post`, or stops with a fault in `fault`. -/
def wp (m : Program σ ε α) (post : α → σ → Prop) (fault : ε → Prop) (s : σ) : Prop :=
  match m s with
  | .ok (value, final) => post value final
  | .error reason => fault reason

/-- Weakest liberal precondition: a run from `s` ends in `post` unless it stops. -/
abbrev wlp (m : Program σ ε α) (post : α → σ → Prop) (s : σ) : Prop := wp m post (fun _ => True) s

variable {next : β → Program σ ε α}

section

variable {post : α → σ → Prop} {fault : ε → Prop} {s : σ}

@[simp] theorem wp_pure (val : α) :
    wp (pure val : Program σ ε α) post fault s ↔ post val s := Iff.rfl

@[simp] theorem wp_read (view : σ → α) :
    wp (read view : Program σ ε α) post fault s ↔ post (view s) s := Iff.rfl

@[simp] theorem wp_update {post : Unit → σ → Prop} (change : σ → σ) :
    wp (update change : Program σ ε Unit) post fault s ↔ post () (change s) := Iff.rfl

theorem wp_fail (reason : ε) :
    wp (fail reason : Program σ ε α) post fault s ↔ fault reason := Iff.rfl

@[simp] theorem wp_expect_some (reason : ε) (val : α) :
    wp (expect reason (some val) : Program σ ε α) post fault s ↔ post val s := Iff.rfl

@[simp] theorem wp_expect_none (reason : ε) :
    wp (expect reason none : Program σ ε α) post fault s ↔ fault reason := Iff.rfl

theorem wp_expect (reason : ε) (lookup : Option α) :
    wp (expect reason lookup : Program σ ε α) post fault s ↔
      (∀ val, lookup = some val → post val s) ∧ (lookup = none → fault reason) := by
  cases lookup <;> simp

theorem wp_examine (view : σ → Except ε α) : wp (examine view) post fault s ↔
      (∀ val, view s = .ok val → post val s) ∧ ∀ reason, view s = .error reason → fault reason := by
  unfold wp examine
  cases view s with
  | ok val => simp [Except.map]
  | error => simp [Except.map]

@[simp] theorem wp_bind (m : Program σ ε β) (next : β → Program σ ε α) :
    wp (m >>= next) post fault s ↔
      wp m (fun val final => wp (next val) post fault final) fault s := by
  simp only [wp, StateT.bind, bind]
  cases m s <;> rfl

@[simp] theorem wp_ite (test : Prop) [Decidable test] (yes no : Program σ ε α) :
    wp (if test then yes else no) post fault s ↔
      (test → wp yes post fault s) ∧ (¬ test → wp no post fault s) := by
  split <;> rename_i outcome <;> simp [outcome]

variable {m : Program σ ε α} {post' : α → σ → Prop} {fault' : ε → Prop} {value : α} {final : σ}
  {reason : ε} {view : σ → β} {seen : β}

section

variable (run : wp m post fault s) (ends : ∀ value final, post value final → post' value final)

include run ends

theorem wp_mono (stops : ∀ reason, fault reason → fault' reason) : wp m post' fault' s := by
  unfold wp at run ⊢
  split at run
  · exact ends _ _ run
  · exact stops _ run

theorem wp_post : wp m post' fault s :=
  wp_mono run ends fun _ hs => hs

end

/-- The rule of sequence. -/
theorem wp_seq {m : Program σ ε β} {middle : β → σ → Prop} (run : wp m middle fault s)
    (ends : ∀ value final, middle value final → wp (next value) post fault final) :
    wp (m >>= next) post fault s :=
  (wp_bind m next).mpr (wp_post run ends)

theorem wp_and (left : wp m post fault s) (right : wp m post' fault' s) :
    wp m (fun value final => post value final ∧ post' value final)
      (fun reason => fault reason ∧ fault' reason) s := by
  unfold wp at left right ⊢
  split <;> rename_i outcome <;> rw [outcome] at left right <;> exact ⟨left, right⟩

theorem wp_ok (run : wp m post fault s) (outcome : m s = .ok (value, final)) :
    post value final := by
  rw [wp, outcome] at run
  exact run

theorem wp_error (run : wp m post fault s) (outcome : m s = .error reason) : fault reason := by
  rw [wp, outcome] at run
  exact run

theorem wp_returns (run : wp m post fault s) (safe : ∀ reason, ¬ fault reason) :
    ∃ value final, m s = .ok (value, final) ∧ post value final := by
  cases outcome : m s with
  | error reason => exact absurd (wp_error run outcome) (safe reason)
  | ok result => exact ⟨result.1, result.2, rfl, wp_ok run outcome⟩

/-- A computation whose outcome from `s` is known is replaced by that outcome. -/
theorem wp_of_run (outcome : m s = .ok (value, final)) : wp m post fault s ↔ post value final := by
  rw [wp, outcome]

theorem wp_value (run : wp m post fault s) (hr : (m s).map Prod.fst = .ok value) :
    ∃ final, post value final := by
  cases outcome : m s with
  | error => rw [outcome] at hr; cases hr
  | ok res =>
    rw [outcome] at hr
    have hs : res.1 = value := ok.inj hr
    exact ⟨res.2, hs ▸ wp_ok run outcome⟩

theorem examine_eq_ok {view : σ → Except ε α} (hr : examine view s = .ok (value, final)) :
    final = s := by
  unfold examine at hr
  cases seen : view s with
  | error => rw [seen] at hr; cases hr
  | ok found => rw [seen] at hr; cases hr; rfl

theorem bind_eq_ok {m : Program σ ε β} : (m >>= next) s = .ok (value, final) ↔
      ∃ first middle, m s = .ok (first, middle) ∧ next first middle = .ok (value, final) := by
  change (m s >>= fun res => next res.1 res.2) = _ ↔ _
  rw [bind_ok_iff, Prod.exists]

/-- What can be seen of the final state. -/
def outcome (m : Program σ ε α) (view : σ → β) (s : σ) : Except ε β :=
  (m s).map fun result => view result.2

theorem exists_of_outcome (ends : outcome m view s = .ok seen) :
    ∃ value final, m s = .ok (value, final) ∧ view final = seen := by
  unfold outcome at ends
  cases run : m s with
  | error => rw [run] at ends; cases ends
  | ok result =>
    rw [run] at ends
    exact ⟨result.1, result.2, rfl, ok.inj ends⟩

theorem of_outcome {m : Program σ ε Unit} (ends : outcome m view s = .ok seen) :
    ∃ final, m s = .ok ((), final) ∧ view final = seen := by
  obtain ⟨_, final, hr, hs⟩ := exists_of_outcome ends
  exact ⟨final, hr, hs⟩

theorem stops_of_outcome (ends : outcome m view s = .error reason) : m s = .error reason := by
  unfold outcome at ends
  cases run : m s with
  | error other => rw [run] at ends; exact congrArg _ (error.inj ends)
  | ok => rw [run] at ends; cases ends

end

section

variable {fault : ε → Prop}

/-- Loop rule with an invariant indexed by the elements already visited. -/
theorem wp_foldlM_visited (visits : List α) (body : β → α → Program σ ε β)
    (inv : List α → β → σ → Prop)
    (step : ∀ visited cur rest acc s, visits = visited ++ cur :: rest →
      inv visited acc s → wp (body acc cur) (inv (visited ++ [cur])) fault s)
    (init : β) (s : σ) (start : inv [] init s) :
    wp (visits.foldlM body init) (inv visits) fault s := by
  induction visits generalizing inv init s with
  | nil => exact start
  | cons cur rest ih =>
    rw [foldlM_cons]
    refine wp_seq (step [] cur rest init s rfl start) fun val final hr => ?_
    exact ih (fun visited => inv (cur :: visited))
      (fun visited _ _ acc s split => step (cur :: visited) _ _ acc s (congrArg _ split))
      val final hr

section

variable (visits : List α) (body : α → Program σ ε Unit)

include visits body

theorem forM_eq_foldlM : forM visits body = visits.foldlM (fun _ cur => body cur) () := by
  induction visits with
  | nil => rfl
  | cons cur rest ih => rw [forM_cons, foldlM_cons, ih]

theorem wp_forM_visited (inv : List α → σ → Prop)
    (step : ∀ visited cur rest s, visits = visited ++ cur :: rest → inv visited s →
      wp (body cur) (fun _ => inv (visited ++ [cur])) fault s) (s : σ) (start : inv [] s) :
    wp (forM visits body) (fun _ => inv visits) fault s := by
  rw [forM_eq_foldlM]
  exact wp_foldlM_visited visits _ (fun visited _ => inv visited)
    (fun visited cur rest _ => step visited cur rest) () s start

theorem wp_forM (inv : σ → Prop)
    (step : ∀ cur ∈ visits, ∀ s, inv s → wp (body cur) (fun _ => inv) fault s) (s : σ)
    (start : inv s) : wp (forM visits body) (fun _ => inv) fault s :=
  wp_forM_visited visits body (fun _ => inv)
    (fun _ cur _ s split hh => step cur (by simp [split]) s hh) s start

end

theorem anyM_reads (visits : List α) (body : α → Program σ ε Bool) (val : α → Bool)
    (s : σ) (reads : ∀ cur ∈ visits, body cur s = .ok (val cur, s)) :
    visits.anyM body s = .ok (visits.any val, s) := by
  induction visits with
  | nil => rfl
  | cons cur rest ih =>
    have head := reads cur mem_cons_self
    simp only [List.anyM, StateT.bind, head, bind, any_cons]
    cases val cur with
    | true => rfl
    | false => exact ih fun other hi => reads other (mem_cons_of_mem _ hi)

end

/-- Every run of `m` that ends takes its state along a relation. -/
def Respects (rel : σ → σ → Prop) (m : Program σ ε α) : Prop :=
  ∀ s, wlp m (fun _ final => rel s final) s

namespace Respects

variable {rel : σ → σ → Prop}

theorem pure [Std.Refl rel] {val : α} : Respects rel (Pure.pure val : Program σ ε α) :=
  fun s => Std.Refl.refl s

theorem read [Std.Refl rel] {view : σ → α} : Respects rel (read view : Program σ ε α) :=
  fun s => Std.Refl.refl s

theorem fail {reason : ε} : Respects rel (fail reason : Program σ ε α) :=
  fun _ => trivial

theorem expect [Std.Refl rel] {reason : ε} {lookup : Option α} :
    Respects rel (expect reason lookup : Program σ ε α) := by
  cases lookup with
  | none => exact fail
  | some val => exact pure

theorem update {change : σ → σ} (changes : ∀ s, rel s (change s)) :
    Respects rel (update change : Program σ ε Unit) :=
  changes

theorem bind [Trans rel rel rel] {m : Program σ ε β} (first : Respects rel m)
    (second : ∀ val, Respects rel (next val)) : Respects rel (m >>= next) := by
  intro s
  refine wp_seq (first s) fun val middle before => ?_
  exact wp_post (second val middle) fun _ final after => Trans.trans before after

theorem ite {test : Prop} [Decidable test] {yes no : Program σ ε α}
    (whenTrue : Respects rel yes) (whenFalse : Respects rel no) :
    Respects rel (if test then yes else no) := by
  split
  · exact whenTrue
  · exact whenFalse

theorem forM [Std.Refl rel] [Trans rel rel rel] {visits : List α} {body : α → Program σ ε Unit}
    (each : ∀ cur, Respects rel (body cur)) : Respects rel (forM visits body) := by
  induction visits with
  | nil => exact pure
  | cons cur rest ih =>
    rw [forM_cons]
    exact bind (each cur) fun _ => ih

theorem foldlM [Std.Refl rel] [Trans rel rel rel] {visits : List α} {body : β → α → Program σ ε β}
    (each : ∀ acc cur, Respects rel (body acc cur)) {init : β} :
    Respects rel (visits.foldlM body init) := by
  induction visits generalizing init with
  | nil => exact pure
  | cons cur rest ih =>
    exact bind (each init cur) fun _ => ih

end Respects

end Program
