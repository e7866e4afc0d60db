import Mathlib.Data.List.Chain
import Mathlib.Data.List.Perm.Subperm
import Mathlib.Data.Nat.Find

/-!
Walks of a directed graph, given as the list of vertices they visit. The edges are a relation
`adj` in the first part and a list of pairs in the second.
-/

namespace Walks

open List Option

variable {α : Type} {adj : α → α → Prop} {s d : α} {walk : List α}

structure IsWalk (adj : α → α → Prop) (s d : α) (walk : List α) : Prop where
  head : walk.head? = some s
  last : walk.getLast? = some d
  chain : walk.IsChain adj

theorem isWalk_singleton (adj : α → α → Prop) (s : α) : IsWalk adj s s [s] :=
  ⟨rfl, rfl, isChain_singleton s⟩

theorem IsWalk.ne_nil (isWalk : IsWalk adj s d walk) : walk ≠ [] := by
  intro he
  rw [he] at isWalk
  cases isWalk.head

theorem IsWalk.eq_cons (isWalk : IsWalk adj s d walk) : ∃ rest, walk = s :: rest := by
  cases walk with
  | nil => exact absurd rfl isWalk.ne_nil
  | cons first rest =>
    have start := isWalk.head
    rw [List.head?_cons, some.injEq] at start
    exact ⟨rest, by rw [start]⟩

theorem isWalk_cons_cons {first second : α} {rest : List α} :
    IsWalk adj s d (first :: second :: rest) ↔
      first = s ∧ adj first second ∧ IsWalk adj second d (second :: rest) := by
  constructor
  · intro isWalk
    have start := isWalk.head
    rw [List.head?_cons, some.injEq] at start
    have steps := isChain_cons_cons.mp isWalk.chain
    exact ⟨start, steps.1, rfl, by simpa using isWalk.last, steps.2⟩
  · rintro ⟨start, step, isWalk⟩
    exact ⟨by rw [start, List.head?_cons], by simpa using isWalk.last,
      isChain_cons_cons.mpr ⟨step, isWalk.chain⟩⟩

theorem isWalk_singleton_iff {only : α} : IsWalk adj s d [only] ↔ only = s ∧ only = d := by
  constructor
  · intro isWalk
    have start := isWalk.head
    have finish := isWalk.last
    simp only [List.head?_cons, List.getLast?_singleton, some.injEq] at start finish
    exact ⟨start, finish⟩
  · rintro ⟨rfl, rfl⟩
    exact isWalk_singleton adj only

theorem exists_step_to (chain : walk.IsChain adj) : ∀ v ∈ walk.tail, ∃ u, adj u v := by
  induction chain with
  | nil => simp
  | singleton => simp
  | @cons_cons u v rest step _ ih =>
    intro w hm
    rw [tail_cons, mem_cons] at hm
    rcases hm with rfl | hm
    · exact ⟨u, step⟩
    · exact ih w hm

theorem IsWalk.reaches (isWalk : IsWalk adj s d walk) : Relation.ReflTransGen adj s d := by
  have hf := relationReflTransGen_of_exists_isChain walk isWalk.chain isWalk.ne_nil
  have start : walk.head isWalk.ne_nil = s :=
    some.inj ((List.head?_eq_some_head isWalk.ne_nil).symm.trans isWalk.head)
  have finish : walk.getLast isWalk.ne_nil = d :=
    some.inj ((List.getLast?_eq_some_getLast isWalk.ne_nil).symm.trans isWalk.last)
  rwa [start, finish] at hf

theorem exists_isWalk (reaches : Relation.ReflTransGen adj s d) : ∃ walk, IsWalk adj s d walk := by
  obtain ⟨rest, chain, last⟩ := exists_isChain_cons_of_relationReflTransGen reaches
  refine ⟨s :: rest, rfl, ?_, chain⟩
  rw [List.getLast?_eq_some_getLast (cons_ne_nil s rest), last]

structure IsShortest (adj : α → α → Prop) (s d : α) (walk : List α) : Prop extends
    IsWalk adj s d walk where
  minimal : ∀ other, IsWalk adj s d other → walk.length ≤ other.length

theorem exists_isShortest (reaches : Relation.ReflTransGen adj s d) :
    ∃ walk, IsShortest adj s d walk := by
  classical
  have some_length : ∃ n, ∃ walk, IsWalk adj s d walk ∧ walk.length = n := by
    obtain ⟨walk, isWalk⟩ := exists_isWalk reaches
    exact ⟨walk.length, walk, isWalk, rfl⟩
  obtain ⟨walk, isWalk, least⟩ := Nat.find_spec some_length
  refine ⟨walk, isWalk, ?_⟩
  intro other otherWalk
  rw [least]
  exact Nat.find_min' some_length ⟨other, otherWalk, rfl⟩

theorem IsShortest.length_eq {other : List α} (hs : IsShortest adj s d walk)
    (otherShortest : IsShortest adj s d other) : walk.length = other.length :=
  Nat.le_antisymm (hs.minimal other otherShortest.toIsWalk) (otherShortest.minimal walk hs.toIsWalk)

variable {before answer : List α}

theorem IsWalk.cut {loop after : List α} {x : α}
    (isWalk : IsWalk adj s d (before ++ x :: (loop ++ x :: after))) :
    IsWalk adj s d (before ++ x :: after) := by
  refine ⟨?_, ?_, ?_⟩
  · have start := isWalk.head
    cases before with
    | nil => exact start
    | cons => exact start
  · have finish := isWalk.last
    rw [List.getLast?_append_cons, ← cons_append, List.getLast?_append_cons] at finish
    rw [List.getLast?_append_cons, finish]
  · have steps := isChain_split.mp isWalk.chain
    rw [← cons_append] at steps
    exact isChain_split.mpr ⟨steps.1, (isChain_split.mp steps.2).2⟩

theorem exists_repeated (repeated : ¬ walk.Nodup) :
    ∃ before x loop after, walk = before ++ x :: (loop ++ x :: after) := by
  induction walk with
  | nil => exact absurd nodup_nil repeated
  | cons first rest ih =>
    by_cases ha : first ∈ rest
    · obtain ⟨loop, after, rfl⟩ := append_of_mem ha
      exact ⟨[], first, loop, after, rfl⟩
    · have hi : ¬ rest.Nodup := fun nodup => repeated (nodup_cons.mpr ⟨ha, nodup⟩)
      obtain ⟨before, x, loop, after, rfl⟩ := ih hi
      exact ⟨first :: before, x, loop, after, rfl⟩

theorem IsShortest.nodup (hs : IsShortest adj s d walk) : walk.Nodup := by
  by_contra repeated
  obtain ⟨before, x, loop, after, rfl⟩ := exists_repeated repeated
  have short := hs.minimal _ hs.toIsWalk.cut
  simp only [length_append, length_cons] at short
  omega

theorem isWalk_concat {u v : α} :
    IsWalk adj s v (before ++ [u, v]) ↔ adj u v ∧ IsWalk adj s u (before ++ [u]) := by
  have chain : (before ++ [u, v]).IsChain adj ↔ (before ++ [u]).IsChain adj ∧ adj u v := by
    simp
  constructor
  · intro isWalk
    have steps := chain.mp isWalk.chain
    refine ⟨steps.2, ?_, by simp, steps.1⟩
    have start := isWalk.head
    cases before with
    | nil => exact start
    | cons => exact start
  · rintro ⟨step, isWalk⟩
    refine ⟨?_, by simp, chain.mpr ⟨isWalk.chain, step⟩⟩
    have start := isWalk.head
    cases before with
    | nil => exact start
    | cons => exact start

/-- What a search for a shortest walk may answer: such a walk, or nothing when there is none. -/
def Answers (adj : α → α → Prop) (s d : α) (answer : List α) : Prop :=
  (answer = [] ∧ ¬ Relation.ReflTransGen adj s d) ∨ IsShortest adj s d answer

theorem Answers.eq_nil_iff (answers : Answers adj s d answer) :
    answer = [] ↔ ¬ Relation.ReflTransGen adj s d := by
  rcases answers with ⟨he, unreachable⟩ | hs
  · exact iff_of_true he unreachable
  · exact iff_of_false hs.ne_nil (not_not.mpr hs.toIsWalk.reaches)

theorem Answers.isShortest (answers : Answers adj s d answer) (hf : answer ≠ []) :
    IsShortest adj s d answer :=
  answers.resolve_left fun none => hf none.1

/-- The relation of a list of directed edges. -/
def Linked (edges : List (α × α)) (u v : α) : Prop := (u, v) ∈ edges

theorem IsShortest.length_le {edges : List (α × α)} (hs : IsShortest (Linked edges) s d walk) :
    walk.length ≤ edges.length + 1 := by
  have targets : ∀ v ∈ walk.tail, v ∈ edges.map Prod.snd := by
    intro v hm
    obtain ⟨u, hl⟩ := exists_step_to hs.chain v hm
    exact mem_map.mpr ⟨(u, v), hl, rfl⟩
  have short : walk.tail.length ≤ (edges.map Prod.snd).length :=
    (subperm_of_subset hs.nodup.tail targets).length_le
  rw [length_tail, length_map] at short
  omega

/-- A library's choice among the shortest walks is its own affair. -/
class ShortestPaths (α : Type) where
  path : List (α × α) → α → α → List α
  answers : ∀ edges s d, Answers (Linked edges) s d (path edges s d)

section

variable [DecidableEq α] {edges : List (α × α)}

/-- The walks one edge longer. The latest vertex of a walk is at its head here. -/
def extend (edges : List (α × α)) (walks : List (List α)) : List (List α) :=
  walks.flatMap fun walk =>
    edges.filterMap fun edge => if walk.head? = some edge.1 then some (edge.2 :: walk) else none

/-- The walks from `s` over `n` edges. -/
def level (edges : List (α × α)) (s : α) : Nat → List (List α)
  | 0 => [[s]]
  | n + 1 => extend edges (level edges s n)

/-- A walk from `s` to `d` over `n` edges. -/
def hit (edges : List (α × α)) (s d : α) (n : Nat) : Option (List α) :=
  (level edges s n).find? fun walk => walk.head? = some d

/-- The first hit over at most `n` edges. -/
def firstHit (edges : List (α × α)) (s d : α) : Nat → Option (List α)
  | 0 => hit edges s d 0
  | n + 1 => (firstHit edges s d n).or (hit edges s d (n + 1))

def search (edges : List (α × α)) (s d : α) : List α :=
  match firstHit edges s d edges.length with
  | some walk => walk.reverse
  | none => []

theorem mem_extend {walks : List (List α)} : walk ∈ extend edges walks ↔
      ∃ u v rest, walk = v :: u :: rest ∧ Linked edges u v ∧ u :: rest ∈ walks := by
  simp only [extend, mem_flatMap, mem_filterMap, ite_none_right_eq_some, some.injEq]
  constructor
  · rintro ⟨shorter, hm, ⟨u, v⟩, hl, head, rfl⟩
    cases shorter with
    | nil => cases head
    | cons first rest =>
      rw [List.head?_cons, some.injEq] at head
      subst head
      exact ⟨_, v, rest, rfl, hl, hm⟩
  · rintro ⟨u, v, rest, rfl, hl, hm⟩
    exact ⟨u :: rest, hm, (u, v), hl, rfl, rfl⟩

/-- The n-th level of the search has all walks of n edges. -/
theorem mem_level (n : Nat) : walk ∈ level edges s n ↔
    walk.length = n + 1 ∧ ∃ d, walk.head? = some d ∧ IsWalk (Linked edges) s d walk.reverse := by
  induction n generalizing walk with
  | zero =>
    rw [level, mem_singleton]
    constructor
    · rintro rfl
      exact ⟨rfl, s, rfl, isWalk_singleton _ s⟩
    · rintro ⟨one, d, -, isWalk⟩
      obtain ⟨only, rfl⟩ := length_eq_one_iff.mp one
      rw [reverse_singleton, isWalk_singleton_iff] at isWalk
      rw [isWalk.1]
  | succ n ih =>
    rw [level, mem_extend]
    constructor
    · rintro ⟨u, v, rest, rfl, hl, hm⟩
      obtain ⟨size, d, head, isWalk⟩ := ih.mp hm
      rw [List.head?_cons, some.injEq] at head
      subst head
      refine ⟨by rw [length_cons, size], v, rfl, ?_⟩
      rw [reverse_cons, reverse_cons, append_assoc]
      exact isWalk_concat.mpr ⟨hl, by simpa using isWalk⟩
    · rintro ⟨size, d, head, isWalk⟩
      cases walk with
      | nil => cases head
      | cons v shorter =>
        cases shorter with
        | nil => simp at size
        | cons u rest =>
          rw [List.head?_cons, some.injEq] at head
          subst head
          rw [reverse_cons, reverse_cons, append_assoc] at isWalk
          obtain ⟨hl, before⟩ := isWalk_concat.mp isWalk
          refine ⟨u, v, rest, rfl, hl, ih.mpr ⟨by simpa using size, u, rfl, ?_⟩⟩
          simpa using before

variable {n : Nat}

theorem hit_eq_some (hf : hit edges s d n = some walk) :
    walk.length = n + 1 ∧ IsWalk (Linked edges) s d walk.reverse := by
  obtain ⟨size, e, head, isWalk⟩ := (mem_level n).mp (mem_of_find?_eq_some hf)
  have ends : walk.head? = some d := by simpa using List.find?_some hf
  rw [ends, some.injEq] at head
  rw [head]
  exact ⟨size, isWalk⟩

theorem hit_eq_none (missing : hit edges s d n = none) (isWalk : IsWalk (Linked edges) s d walk) :
    walk.length ≠ n + 1 := by
  intro size
  have last : walk.reverse.head? = some d := by rw [List.head?_reverse, isWalk.last]
  have hm : walk.reverse ∈ level edges s n := by
    rw [mem_level, length_reverse, reverse_reverse]
    exact ⟨size, d, last, isWalk⟩
  have other := List.find?_eq_none.mp missing _ hm
  exact other (decide_eq_true last)

theorem firstHit_eq_none (n : Nat) (missing : firstHit edges s d n = none)
    (isWalk : IsWalk (Linked edges) s d walk) : n + 1 < walk.length := by
  induction n with
  | zero =>
    have other := hit_eq_none missing isWalk
    have hp : 0 < walk.length := length_pos_of_ne_nil isWalk.ne_nil
    omega
  | succ n ih =>
    rw [firstHit, or_eq_none_iff] at missing
    have longer := ih missing.1
    have other := hit_eq_none missing.2 isWalk
    omega

theorem firstHit_eq_some (n : Nat) (hf : firstHit edges s d n = some walk) :
    IsShortest (Linked edges) s d walk.reverse := by
  induction n with
  | zero =>
    obtain ⟨size, isWalk⟩ := hit_eq_some hf
    refine ⟨isWalk, fun other otherWalk => ?_⟩
    rw [length_reverse, size]
    exact length_pos_of_ne_nil otherWalk.ne_nil
  | succ n ih =>
    rw [firstHit, or_eq_some_iff] at hf
    rcases hf with early | ⟨missing, late⟩
    · exact ih early
    obtain ⟨size, isWalk⟩ := hit_eq_some late
    refine ⟨isWalk, fun other otherWalk => ?_⟩
    rw [length_reverse, size]
    exact firstHit_eq_none n missing otherWalk

theorem search_answers (edges : List (α × α)) (s d : α) :
    Answers (Linked edges) s d (search edges s d) := by
  unfold search
  cases hf : firstHit edges s d edges.length with
  | none =>
    refine .inl ⟨rfl, fun reaches => ?_⟩
    obtain ⟨walk, hs⟩ := exists_isShortest reaches
    exact absurd hs.length_le (Nat.not_le_of_gt (firstHit_eq_none _ hf hs.toIsWalk))
  | some walk => exact .inr (firstHit_eq_some _ hf)

/-- The search as the library. -/
@[reducible] def breadthFirst : ShortestPaths α where
  path := search
  answers := search_answers

end

end Walks
