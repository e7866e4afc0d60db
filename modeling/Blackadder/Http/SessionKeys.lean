import Mathlib.Data.List.Nodup
import Mathlib.Data.List.Basic

namespace Blackadder.Http

open List

/-- What `send` returns when it is given a packet of this size. -/
inductive SendResult (packetSize : Nat)
  | accepted (count : Fin (packetSize + 1))
  /-- -1 with `EINTR`. -/
  | interrupted
  /-- -1 with another error. -/
  | failed

inductive LoopEnd
  | normal
  | error
deriving DecidableEq

/-- How many bytes the calls of `send` write, each given the whole packet, and how the loop ends. -/
def sendLoop (packetSize : Nat) (bytesWritten : Nat) (results : List (SendResult packetSize)) :
    List Nat × Option LoopEnd :=
  if bytesWritten = packetSize then ([], some .normal)
  else
    match results with
    | [] => ([], none)
    | .accepted count :: rest =>
      let (counts, loopEnd) := sendLoop packetSize count rest
      (count :: counts, loopEnd)
    | .interrupted :: rest =>
      let (counts, loopEnd) := sendLoop packetSize 0 rest
      (0 :: counts, loopEnd)
    | .failed :: _ => ([0], some .error)

/-- The positions in the packet of the bytes that are written, in their order. -/
def written (counts : List Nat) : List Nat := counts.flatMap range

/-- The whole packet is written, or up to a point if there is an error. Nothing is written twice. -/
def Intact (packetSize : Nat) (counts : List Nat) : Option LoopEnd → Prop
  | none => True
  | some .normal => written counts = range packetSize
  | some .error => written counts <+: range packetSize

variable {packetSize bytesWritten : Nat}

namespace SendResult

def count : SendResult packetSize → Nat
  | accepted count => count
  | interrupted | failed => 0

/-- The call accepts the whole packet or fails. -/
def isLast : SendResult packetSize → Bool
  | accepted count => count.val = packetSize
  | interrupted => false
  | failed => true

/-- The calls up to the first one that ends the loop. -/
def calls : List (SendResult packetSize) → List (SendResult packetSize)
  | [] => []
  | result :: rest => if result.isLast then [result] else result :: calls rest

theorem count_le (res : SendResult packetSize) : res.count ≤ packetSize := by
  cases res with
  | accepted count => exact Nat.le_of_lt_succ count.isLt
  | interrupted | failed => exact Nat.zero_le _

end SendResult

open SendResult

/-- A packet that is not empty is written by the calls up to the end of the loop. -/
theorem sendLoop_spec (results : List (SendResult packetSize)) (hp : packetSize ≠ 0)
    (different : bytesWritten ≠ packetSize) :
    let loop := sendLoop packetSize bytesWritten results
    loop.1 = (calls results).map count ∧ (loop.2 = none ↔ ¬ results.any isLast) ∧
      (loop.2 = some .normal → packetSize ∈ loop.1) := by
  induction results generalizing bytesWritten with
  | nil => simp [sendLoop, different, calls]
  | cons res rest ih =>
    rw [sendLoop.eq_def, if_neg different]
    cases res with
    | accepted count =>
      by_cases whole : count.val = packetSize
      · dsimp only
        rw [sendLoop.eq_def packetSize count.val, if_pos whole]
        simp [whole, calls, isLast, SendResult.count]
      · obtain ⟨counts, ends, normal⟩ := ih whole
        refine ⟨?_, ?_, fun ended => mem_cons_of_mem _ (normal ended)⟩
        · simp [counts, whole, calls, isLast, SendResult.count]
        · simp [ends, whole, isLast]
    | interrupted =>
      obtain ⟨counts, ends, normal⟩ := ih hp.symm
      refine ⟨?_, ?_, fun ended => mem_cons_of_mem _ (normal ended)⟩
      · simp [counts, calls, isLast, SendResult.count]
      · simp [ends, isLast]
    | failed => simp [calls, isLast, SendResult.count]

theorem count_written (counts : List Nat) : (written counts).count 0 = counts.countP (0 < ·) := by
  induction counts with
  | nil => rfl
  | cons count counts ih =>
    rw [written, flatMap_cons, countP_cons, ← ih, written]
    cases count with
    | zero => simp
    | succ count => simp [Nat.add_comm]

theorem written_prefix_iff {counts : List Nat} {n : Nat} (most : ∀ count ∈ counts, count ≤ n) :
    written counts <+: range n ↔ counts.countP (0 < ·) ≤ 1 := by
  constructor
  · intro part
    rw [← count_written]
    exact nodup_iff_count_le_one.mp (nodup_range.sublist part.sublist) 0
  · intro once
    induction counts with
    | nil => exact nil_prefix
    | cons count rest ih =>
      cases count with
      | zero =>
        simpa [written] using ih (fun c hm => most c (mem_cons_of_mem 0 hm)) (by simpa using once)
      | succ count =>
        have zeros : ∀ other ∈ rest, other = 0 := by simpa using once
        have same : written ((count + 1) :: rest) = range (count + 1) := by
          simpa [written] using zeros
        rw [same, ← Nat.min_eq_left (most _ mem_cons_self), ← take_range]
        exact take_prefix _ _

/-- The packet is written as it should iff up to the first call of `send` that accepts all of it or
fails, one call at most accepts a part of it. -/
theorem sendLoop_intact_iff (packetSize : Nat) (results : List (SendResult packetSize)) :
    Intact packetSize (sendLoop packetSize 0 results).1 (sendLoop packetSize 0 results).2 ↔
      (results.any SendResult.isLast →
        (SendResult.calls results).countP (0 < ·.count) ≤ 1) := by
  by_cases empty : packetSize = 0
  · subst empty
    have none : ∀ res : SendResult 0, res.count = 0 := fun res => Nat.le_zero.mp res.count_le
    simp [sendLoop.eq_def, Intact, written, none]
  obtain ⟨counts, ends, normal⟩ := sendLoop_spec results empty (Ne.symm empty)
  have once : written (sendLoop packetSize 0 results).1 <+: range packetSize ↔
      (calls results).countP (0 < ·.count) ≤ 1 := by
    rw [counts, written_prefix_iff, countP_map]
    · rfl
    · rw [forall_mem_map]
      exact fun res _ => res.count_le
  rw [← once]
  cases ended : (sendLoop packetSize 0 results).2 with
  | none => exact iff_of_true trivial fun last => absurd last (ends.mp ended)
  | some loopEnd =>
    have last : results.any isLast := by
      by_contra more
      cases ended.symm.trans (ends.mpr more)
    rw [forall_prop_of_true last]
    cases loopEnd with
    | normal =>
      have whole := mem_map_of_mem (f := range) (normal ended)
      exact ⟨fun same => same ▸ prefix_rfl, fun part =>
        part.eq_of_length_le (sublist_flatten_of_mem whole).length_le⟩
    | error => exact Iff.rfl

/-- After a call that has accepted one byte, all bytes are written again. -/
theorem first_byte_written_twice :
    sendLoop 2 0 [.accepted 1, .accepted 2] = ([1, 2], some .normal) ∧
      written [1, 2] = [0, 0, 1] := by
  decide

/-- The loop over the sockets of an enigma, or `none` if it uses an iterator that is erased. -/
def eraseSocket (key : Int) : List Int → Option (List Int)
  | [] => some []
  | fd :: rest =>
    if fd = key then some rest
    else if fd = -1 then none
    else (eraseSocket key rest).map (fd :: ·)

/-- After an erasure the iterator is set to the first entry and then moved on. -/
def eraseEmpty (empty : α → Bool) (before it : List α) : List α :=
  match it with
  | [] => before
  | entry :: rest =>
    if empty entry then
      if (before ++ rest).isEmpty then []
      else eraseEmpty empty ((before ++ rest).take 1) ((before ++ rest).drop 1)
    else eraseEmpty empty (before ++ [entry]) rest
termination_by (before.length + it.length, it.length)
decreasing_by all_goals (simp [Prod.lex_def]; omega)

abbrev Enigmas := List (UInt32 × List Int)

def onValues (change : α → β) (entries : List (UInt32 × α)) : List (UInt32 × β) :=
  entries.map fun entry => (entry.1, change entry.2)

/-- The three loops over all rCIDs. -/
def deleteSessionKey (sessionKey : UInt16) (sessions : List (UInt32 × Enigmas)) :
    Option (List (UInt32 × Enigmas)) :=
  if sessions.all (·.2.all fun enigma => (eraseSocket sessionKey.toNat enigma.2).isSome) then
    let sessions :=
      onValues (onValues fun fds => (eraseSocket sessionKey.toNat fds).getD []) sessions
    let sessions := onValues (eraseEmpty (·.2.isEmpty) []) sessions
    some (eraseEmpty (·.2.isEmpty) [] sessions)
  else none

/-- The sessions without a key and without the sockets that are gone. -/
def withoutKey (sessionKey : UInt16) (sessions : List (UInt32 × Enigmas)) :
    List (UInt32 × Enigmas) :=
  (onValues (fun enigmas => (onValues (filter fun fd : Int => fd ≠ sessionKey.toNat ∧ fd ≠ -1)
    enigmas).filter (!·.2.isEmpty)) sessions).filter (!·.2.isEmpty)

section

variable {empty : α → Bool} {first entry : α} {before kept it entries : List α}

theorem eraseEmpty_behind (hb : before = first :: kept) (hk : ∀ e ∈ kept, empty e = false) :
    eraseEmpty empty before it = first :: (kept ++ it).filter (!empty ·) := by
  fun_induction eraseEmpty empty before it generalizing kept with
  | case1 before =>
    rw [hb, append_nil, filter_eq_self.mpr]
    simpa using hk
  | case2 before entry rest he hn => simp [hb] at hn
  | case3 before entry rest he hn ih =>
    rw [ih (show _ = first :: [] by simp [hb]) (by simp)]
    simp [hb, he]
  | case4 before entry rest he ih =>
    rw [ih (show _ = first :: (kept ++ [entry]) by simp [hb])]
    · simp
    · simpa [or_imp, forall_and, he] using hk

/-- Of the first two entries that are both empty, the second one is skipped. -/
def TwoEmpty (empty : α → Bool) : List α → Bool
  | a :: b :: _ => empty a && empty b
  | _ => false

theorem eraseEmpty_eq (entries : List α) : eraseEmpty empty [] entries =
    if TwoEmpty empty entries then (entries.drop 1).take 1 ++ (entries.drop 2).filter (!empty ·)
    else entries.filter (!empty ·) := by
  have hs (a : α) (rest : List α) : eraseEmpty empty [a] rest = a :: rest.filter (!empty ·) :=
    eraseEmpty_behind rfl (by simp)
  rcases entries with _ | ⟨a, _ | ⟨b, rest⟩⟩
  · simp [eraseEmpty]
  · cases ha : empty a <;> simp [TwoEmpty, eraseEmpty, ha]
  · rw [eraseEmpty]
    cases ha : empty a <;> cases hb : empty b <;> simp [TwoEmpty, ha, hb, hs]

theorem mem_eraseEmpty (hm : entry ∈ entries) (he : empty entry = false) :
    entry ∈ eraseEmpty empty [] entries := by
  rw [eraseEmpty_eq]
  split
  · rename_i two
    rcases entries with _ | ⟨a, _ | ⟨b, rest⟩⟩
    · cases hm
    · cases two
    · rcases mem_cons.mp hm with rfl | hm
      · simp [TwoEmpty, he] at two
      · simpa [he] using hm
  · simpa [he] using hm

theorem exists_empty (two : TwoEmpty empty entries) :
    ∃ entry ∈ eraseEmpty empty [] entries, empty entry := by
  rw [eraseEmpty_eq, if_pos two]
  rcases entries with _ | ⟨a, _ | ⟨b, rest⟩⟩
  · cases two
  · cases two
  · exact ⟨b, by simp, (Bool.and_eq_true _ _ ▸ two).2⟩

end

variable {key : Int} {fds : List Int}

theorem eraseSocket_cases (key : Int) (fds : List Int) :
    eraseSocket key fds = none ∧ -1 ∈ fds ∨ eraseSocket key fds = some (fds.erase key) := by
  induction fds with
  | nil => simp [eraseSocket]
  | cons fd rest ih =>
    by_cases hk : fd = key
    · simp [eraseSocket, hk]
    · by_cases hn : fd = -1
      · exact .inl ⟨by simp [eraseSocket, hn ▸ hk, hn], by simp [hn]⟩
      · rcases ih with ⟨ih, hm⟩ | ih <;> simp_all [eraseSocket]

theorem erase_eq_filter (hn : -1 ∉ fds) (hc : fds.count key ≤ 1) :
    fds.erase key = fds.filter fun fd => fd ≠ key ∧ fd ≠ -1 := by
  induction fds with
  | nil => rfl
  | cons fd rest ih =>
    rw [mem_cons, not_or] at hn
    by_cases hk : fd = key
    · subst hk
      have hr : fd ∉ rest := count_eq_zero.mp (by simpa using hc)
      rw [erase_cons_head, filter_cons_of_neg (by simp), filter_eq_self.mpr]
      exact fun other hm => by simpa using ⟨fun he => hr (he ▸ hm), fun he => hn.2 (he ▸ hm)⟩
    · rw [count_cons_of_ne hk] at hc
      simp [hk, Ne.symm hn.1, ih hn.2 hc]

section

theorem onValues_congr {f g : α → β} {entries : List (UInt32 × α)}
    (h : ∀ entry ∈ entries, f entry.2 = g entry.2) : onValues f entries = onValues g entries :=
  map_congr_left fun entry hm => by rw [h entry hm]

variable (key : UInt16) (sessions : List (UInt32 × Enigmas))

/-- The enigmas of a rCID after the first loop. -/
def firstLoop : Enigmas → Enigmas := onValues (·.erase (key.toNat : Int))

/-- All rCIDs after the second loop. -/
def secondLoop : List (UInt32 × Enigmas) :=
  onValues (fun enigmas => eraseEmpty (·.2.isEmpty) [] (firstLoop key enigmas)) sessions

theorem deleteSessionKey_cases :
    (deleteSessionKey key sessions = none ∧ ∃ rCid ∈ sessions, ∃ enigma ∈ rCid.2, -1 ∈ enigma.2) ∨
    deleteSessionKey key sessions =
      some (eraseEmpty (·.2.isEmpty) [] (secondLoop key sessions)) := by
  by_cases hd : ∀ rCid ∈ sessions, ∀ enigma ∈ rCid.2, (eraseSocket key.toNat enigma.2).isSome
  · rw [deleteSessionKey, if_pos (by simpa only [all_eq_true] using hd)]
    refine .inr (congrArg (fun list => some (eraseEmpty _ [] list)) ?_)
    rw [onValues, onValues, map_map]
    refine map_congr_left fun rCid hr => congrArg (fun list => (rCid.1, eraseEmpty _ [] list)) ?_
    dsimp only [firstLoop]
    refine onValues_congr fun enigma he => ?_
    rcases eraseSocket_cases key.toNat enigma.2 with ⟨hn, -⟩ | hs
    · simpa [hn] using hd rCid hr enigma he
    · rw [hs, Option.getD_some]
  · refine .inl ⟨if_neg (by simpa only [all_eq_true] using hd), ?_⟩
    push Not at hd
    obtain ⟨rCid, hr, enigma, he, hn⟩ := hd
    rcases eraseSocket_cases key.toNat enigma.2 with ⟨-, hm⟩ | hs
    · exact ⟨rCid, hr, enigma, he, hm⟩
    · simp [hs] at hn

theorem clean_withoutKey : ∀ rCid ∈ withoutKey key sessions, rCid.2 ≠ [] ∧ ∀ enigma ∈ rCid.2,
    enigma.2 ≠ [] ∧ ∀ fd ∈ enigma.2, fd ≠ key.toNat ∧ fd ≠ -1 := by
  simp only [withoutKey, onValues, mem_filter, mem_map]
  rintro _ ⟨⟨rCid, -, rfl⟩, hn⟩
  refine ⟨by simpa using hn, ?_⟩
  simp only [mem_filter, mem_map]
  rintro _ ⟨⟨enigma, -, rfl⟩, hn⟩
  exact ⟨by simpa using hn, by simp⟩

theorem deleteSessionKey_eq_iff :
    deleteSessionKey key sessions = some (withoutKey key sessions) ↔
      (∀ rCid ∈ sessions, ∀ enigma ∈ rCid.2, -1 ∉ enigma.2 ∧ enigma.2.count (key.toNat : Int) ≤ 1) ∧
      (∀ rCid ∈ sessions, ¬ TwoEmpty (·.2.isEmpty) (firstLoop key rCid.2)) ∧
      ¬ TwoEmpty (·.2.isEmpty) (secondLoop key sessions) := by
  obtain ⟨h, rCid, hr, enigma, he, hn⟩ | h := deleteSessionKey_cases key sessions
  · rw [h]
    exact iff_of_false (by simp) fun hs => (hs.1 rCid hr enigma he).1 hn
  rw [h, Option.some.injEq]
  constructor
  · intro h
    have hc := h ▸ clean_withoutKey key sessions
    have hl : ∀ rCid ∈ sessions, ∀ enigma ∈ eraseEmpty (·.2.isEmpty) [] (firstLoop key rCid.2), _ :=
      fun rCid hr enigma he => (hc _ (mem_eraseEmpty (mem_map_of_mem hr)
        (isEmpty_eq_false_iff.mpr (ne_nil_of_mem he)))).2 enigma he
    refine ⟨fun rCid hr enigma he => ?_, fun rCid hr two => ?_, fun two => ?_⟩
    · -- what is left in a list keeps it and its rCID in the map
      have hk : ∀ fd ∈ enigma.2.erase (key.toNat : Int), fd ≠ key.toNat ∧ fd ≠ -1 := fun fd hf =>
        (hl rCid hr _ (mem_eraseEmpty (mem_map_of_mem he)
          (isEmpty_eq_false_iff.mpr (ne_nil_of_mem hf)))).2 fd hf
      constructor
      · exact fun hn => (hk _ ((mem_erase_of_ne (by omega)).mpr hn)).2 rfl
      · by_contra hm
        refine (hk _ (count_pos_iff.mp ?_)).1 rfl
        rw [count_erase_self]
        omega
    · obtain ⟨enigma, hm, he⟩ := exists_empty two
      exact (hl rCid hr enigma hm).1 (isEmpty_iff.mp he)
    · obtain ⟨rCid, hm, he⟩ := exists_empty two
      exact (hc rCid hm).1 (isEmpty_iff.mp he)
  · rintro ⟨hs, hi, ho⟩
    rw [eraseEmpty_eq, if_neg ho]
    refine congrArg _ (onValues_congr fun rCid hr => ?_)
    rw [eraseEmpty_eq, if_neg (hi rCid hr)]
    refine congrArg _ (onValues_congr fun enigma he => ?_)
    exact erase_eq_filter (hs rCid hr enigma he).1 (hs rCid hr enigma he).2

/-- The list has no other socket than the key. -/
def onlyKey (fds : List Int) : Bool := fds = [] ∨ fds = [(key.toNat : Int)]

theorem isEmpty_erase (fds : List Int) :
    (fds.erase (key.toNat : Int)).isEmpty = onlyKey key fds := by
  rw [Bool.eq_iff_iff, List.isEmpty_iff, erase_eq_nil_iff, onlyKey, decide_eq_true_eq]

theorem twoEmpty_map {empty : β → Bool} {other : α → Bool} {change : α → β} {entries : List α}
    (same : ∀ entry ∈ entries, empty (change entry) = other entry) :
    TwoEmpty empty (entries.map change) = TwoEmpty other entries := by
  rcases entries with _ | ⟨a, _ | ⟨b, rest⟩⟩
  · rfl
  · rfl
  · simp only [map_cons, TwoEmpty, same a (by simp), same b (by simp)]

/-- Exactly the key is deleted if it is once in a list at most, no socket is gone, and neither the
first two enigmas of a rCID nor the first two rCIDs have both no other socket than the key. -/
theorem deleteSessionKey_iff :
    deleteSessionKey key sessions = some (withoutKey key sessions) ↔
      (∀ rCid ∈ sessions, ∀ enigma ∈ rCid.2, -1 ∉ enigma.2 ∧ enigma.2.count (key.toNat : Int) ≤ 1) ∧
      (∀ rCid ∈ sessions, ¬ TwoEmpty (fun enigma => onlyKey key enigma.2) rCid.2) ∧
      ¬ TwoEmpty (fun rCid => rCid.2.all fun enigma => onlyKey key enigma.2) sessions := by
  have enigmas : ∀ entries, TwoEmpty (·.2.isEmpty) (firstLoop key entries) =
      TwoEmpty (fun enigma => onlyKey key enigma.2) entries := fun entries =>
    twoEmpty_map fun enigma _ => isEmpty_erase key enigma.2
  rw [deleteSessionKey_eq_iff]
  simp only [enigmas]
  refine and_congr_right fun _ => and_congr_right fun first => ?_
  rw [secondLoop, onValues, twoEmpty_map fun rCid hr => ?_]
  rw [eraseEmpty_eq, enigmas, if_neg (first rCid hr), Bool.eq_iff_iff, List.isEmpty_iff,
    filter_eq_nil_iff, all_eq_true, firstLoop, onValues, forall_mem_map]
  simp only [isEmpty_erase, Bool.not_eq_true, Bool.not_eq_false']

/-- The map keeps one of two lists that have become empty. -/
theorem empty_list_kept :
    deleteSessionKey 5 [(1, [(1, [5]), (2, [5]), (3, [6])])] = some [(1, [(2, []), (3, [6])])] := by
  simp [deleteSessionKey, eraseSocket, onValues, eraseEmpty]

end

end Blackadder.Http
