import Blackadder.Ltp.Buffers

/-!
The check of a window end: the sequence numbers in the buffer are gone through in their order, for
the first and the last that are missing.
-/

namespace Blackadder.Ltp

section

open List Nat

/-- Numbers are compared as `int`, and none leaves the range of a sequence number where it is
stored. -/
structure Scan where
  allFragmentsReceived : Bool
  firstMissingSequence : Nat
  lastMissingSequence : Nat
  previousSequence : Nat
deriving DecidableEq

namespace Scan

def start : Scan := ⟨true, 0, 0, 0⟩

/-- One fragment of the buffer. -/
def step (scan : Scan) (sequence : Nat) : Scan :=
  if scan.previousSequence = 0 ∧ sequence ≠ 1 then ⟨false, 1, 1, sequence⟩
  else if scan.previousSequence + 1 < sequence then
    ⟨false,
      if scan.firstMissingSequence = 0 then scan.previousSequence + 1
      else scan.firstMissingSequence,
      sequence - 1, sequence⟩
  else { scan with previousSequence := sequence }

/-- The comparison of the last fragment with the number in the window end. -/
def finish (scan : Scan) (last sequenceNumber : Nat) : Scan :=
  if last < sequenceNumber then
    { scan with
      allFragmentsReceived := false
      firstMissingSequence :=
        if scan.firstMissingSequence = 0 then sequenceNumber else scan.firstMissingSequence
      lastMissingSequence := sequenceNumber }
  else scan

theorem previousSequence_step (scan : Scan) (seq : Nat) :
    (scan.step seq).previousSequence = seq := by
  unfold step
  split
  · rfl
  · split <;> rfl

end Scan

/-- The check on the numbers in a buffer. There is no last fragment of an empty one. -/
def checkWindow (sequences : List Nat) (sequenceNumber : Nat) : Option Scan := do
  let last ← sequences.getLast?
  return (sequences.foldl Scan.step Scan.start).finish last sequenceNumber

/-- The sequence numbers in a buffer, in order. -/
def sequencesOf (found : Fragments) : List Nat := found.keys.map UInt16.toNat

/-- After some fragments nothing is missing, or only a part in front, or `first` and `last` are the
outermost gaps. -/
inductive Scanned (seen : List Nat) : Scan → Prop
  | whole {last : Nat} (positive : 1 ≤ last) (all : ∀ k, k ∈ seen ↔ 1 ≤ k ∧ k ≤ last) :
      Scanned seen ⟨true, 0, 0, last⟩
  | headless {head last : Nat} (late : 1 < head) (ordered : head ≤ last)
      (all : ∀ k, k ∈ seen ↔ head ≤ k ∧ k ≤ last) : Scanned seen ⟨false, 1, 1, last⟩
  | gaps {first final last : Nat} (positive : 1 ≤ first) (ordered : first ≤ final)
      (below : final < last) (missing : first ∉ seen) (present : last ∈ seen)
      (inside : ∀ k ∈ seen, 1 ≤ k ∧ k ≤ last)
      (outermost : ∀ k, 1 ≤ k → k ≤ last → k ∉ seen → first ≤ k ∧ k ≤ final) :
      Scanned seen ⟨false, first, final, last⟩

namespace Scanned

variable {seen : List Nat} {scan : Scan}

open Scan

theorem first {seq : Nat} (positive : 1 ≤ seq) : Scanned [seq] (start.step seq) := by
  by_cases one : seq = 1
  · subst one
    refine .whole (le_refl 1) fun k => ?_
    rw [mem_singleton]
    omega
  · have step : start.step seq = ⟨false, 1, 1, seq⟩ := if_pos ⟨rfl, one⟩
    rw [step]
    refine @headless _ seq _ (by omega) (le_refl _) fun k => ?_
    rw [mem_singleton]
    omega

theorem positive (scanned : Scanned seen scan) : 1 ≤ scan.previousSequence := by
  cases scanned with
  | whole positive _ => exact positive
  | headless late ordered _ => exact le_trans (le_of_lt late) ordered
  | gaps _ _ below => exact succ_le_of_lt (zero_lt_of_lt below)

theorem next (scanned : Scanned seen scan) {seq : Nat} (later : scan.previousSequence < seq) :
    Scanned (seen ++ [seq]) (scan.step seq) := by
  have members : ∀ k, k ∈ seen ++ [seq] ↔ k ∈ seen ∨ k = seq := by simp
  have hs := scanned.positive
  have skip : ¬ (scan.previousSequence = 0 ∧ seq ≠ 1) := by omega
  rw [step, if_neg skip]
  cases scanned with
  | @whole last positive all =>
    dsimp only at later ⊢
    split
    · rw [if_pos rfl]
      refine .gaps (le_add_left 1 last) (by omega) (by omega) ?_
        ((members seq).mpr (.inr rfl)) ?_ ?_
      · simp only [members, all]
        omega
      · intro k
        simp only [members, all]
        omega
      · intro k
        simp only [members, all]
        omega
    · rename_i adjacent
      refine .whole (by omega) ?_
      simp only [members, all]
      omega
  | @headless head _ late _ all =>
    dsimp only at later ⊢
    split
    · rw [if_neg one_ne_zero]
      refine .gaps (le_refl 1) (by omega) (by omega) ?_ ((members seq).mpr (.inr rfl)) ?_ ?_
      · simp only [members, all]
        omega
      · intro k
        simp only [members, all]
        omega
      · intro k
        simp only [members]
        omega
    · refine @headless _ head _ late (by omega) ?_
      simp only [members, all]
      omega
  | @gaps first _ last positive ordered _ missing _ hi outermost =>
    dsimp only at later ⊢
    have kept : (if first = 0 then last + 1 else first) = first := if_neg (by omega)
    have hb : ∀ k, k ∈ seen ++ [seq] → 1 ≤ k ∧ k ≤ seq := by
      intro k hm
      rcases (members k).mp hm with before | rfl
      · have := hi k before
        omega
      · omega
    have ha : first ∉ seen ++ [seq] := by
      rw [members]
      rintro (before | same)
      · exact missing before
      · omega
    have ht : seq ∈ seen ++ [seq] := (members seq).mpr (.inr rfl)
    split
    · rw [kept]
      refine .gaps positive (by omega) (by omega) ha ht hb ?_
      intro k low high hg
      by_cases old : k ≤ last
      · have := outermost k low old fun before => hg ((members k).mpr (.inl before))
        omega
      · have : k ≠ seq := fun same => hg ((members k).mpr (.inr same))
        omega
    · refine .gaps positive ordered (by omega) ha ht hb ?_
      intro k low high hg
      have : k ≠ seq := fun same => hg ((members k).mpr (.inr same))
      exact outermost k low (by omega) fun before => hg ((members k).mpr (.inl before))

/-- A sorted buffer of positive numbers is scanned to its end. -/
theorem of_sorted {seq : Nat} {rest : List Nat} (positive : 1 ≤ seq)
    (hs : (seq :: rest).Pairwise (· < ·)) :
    Scanned (seq :: rest) ((seq :: rest).foldl step start) := by
  suffices run : ∀ (seen : List Nat) (scan : Scan), Scanned seen scan →
      (∀ k ∈ rest, scan.previousSequence < k) → Scanned (seen ++ rest) (rest.foldl step scan) by
    refine run [seq] _ (first positive) ?_
    rw [previousSequence_step]
    exact (pairwise_cons.mp hs).1
  replace hs := (pairwise_cons.mp hs).2
  induction rest with
  | nil =>
    intro seen scan scanned _
    rwa [append_nil]
  | cons k rest ih =>
    intro seen scan scanned later
    obtain ⟨ha, tail⟩ := pairwise_cons.mp hs
    have scannedNext := scanned.next (later k mem_cons_self)
    have all := ih tail _ _ scannedNext (by rw [scan.previousSequence_step]; exact ha)
    rwa [append_assoc] at all

end Scanned

theorem previousSequence_foldl (seqs : List Nat) (scan : Scan) :
    (seqs.foldl Scan.step scan).previousSequence =
      seqs.getLast?.getD scan.previousSequence := by
  induction seqs generalizing scan with
  | nil => rfl
  | cons _ _ ih =>
    rw [foldl_cons, ih, scan.previousSequence_step, List.getLast?_cons]
    rfl

variable {sequences : List Nat} {n : Nat} {res scan : Scan}

theorem exists_of_checkWindow (hc : checkWindow sequences n = some res) :
    ∃ last, sequences.getLast? = some last ∧
      res = (sequences.foldl Scan.step Scan.start).finish last n := by
  obtain ⟨last, hf, finished⟩ := Option.bind_eq_some_iff.mp hc
  exact ⟨last, hf, (Option.some.inj finished).symm⟩

/-- The check of a buffer of positive numbers finishes its scan with the last one. -/
theorem checkWindow_eq_some (hc : checkWindow sequences n = some res)
    (positive : ∀ k ∈ sequences, 1 ≤ k) (hs : sequences.Pairwise (· < ·)) :
    ∃ scan, Scanned sequences scan ∧ res = scan.finish scan.previousSequence n := by
  obtain ⟨last, hf, rfl⟩ := exists_of_checkWindow hc
  refine ⟨sequences.foldl Scan.step Scan.start, ?_, ?_⟩
  · cases sequences with
    | nil => cases hf
    | cons sequence rest => exact .of_sorted (positive sequence mem_cons_self) hs
  · rw [previousSequence_foldl, hf]
    rfl

theorem Scan.step_incomplete (incomplete : scan.allFragmentsReceived = false) (seq : Nat) :
    (scan.step seq).allFragmentsReceived = false := by
  unfold step
  split
  · rfl
  · split
    · rfl
    · exact incomplete

theorem Scan.foldl_incomplete {scan : Scan} (incomplete : scan.allFragmentsReceived = false)
    (seqs : List Nat) : (seqs.foldl step scan).allFragmentsReceived = false := by
  induction seqs generalizing scan with
  | nil => exact incomplete
  | cons sequence rest ih => exact ih (scan.step_incomplete incomplete sequence)

theorem Scan.finish_incomplete (incomplete : scan.allFragmentsReceived = false) (last n : Nat) :
    (scan.finish last n).allFragmentsReceived = false := by
  unfold finish
  split
  · rfl
  · exact incomplete

/-- A buffer with numbers of a window. -/
structure Within (n : Nat) (sequences : List Nat) : Prop where
  sorted : sequences.Pairwise (· < ·)
  inside : ∀ k ∈ sequences, 1 ≤ k ∧ k ≤ n

def Complete (n : Nat) (sequences : List Nat) : Prop := ∀ k, 1 ≤ k → k ≤ n → k ∈ sequences

theorem Within.scanned (hi : Within n sequences) (hc : checkWindow sequences n = some res) :
    ∃ scan, Scanned sequences scan ∧ res = scan.finish scan.previousSequence n :=
  checkWindow_eq_some hc (fun k hm => (hi.inside k hm).1) hi.sorted

/-- The window is complete, or a range begins with a number that is missing; one that leaves out
another is only the first or only the last number. -/
inductive Report (n : Nat) (sequences : List Nat) : Bool → Nat → Nat → Prop
  | complete {first last : Nat} (complete : Complete n sequences) : Report n
    sequences true first last
  | missing {first last : Nat} (positive : 1 ≤ first) (ordered : first ≤ last) (bounded : last ≤ n)
      (gone : first ∉ sequences)
      (reach : (∀ k, 1 ≤ k → k ≤ n → k ∉ sequences → first ≤ k ∧ k ≤ last) ∨
        (first = 1 ∧ n ∈ sequences) ∨ (1 ∈ sequences ∧ first = n)) :
      Report n sequences false first last

theorem Within.report (hi : Within n sequences) (hc : checkWindow sequences n = some res) :
    Report n sequences res.allFragmentsReceived res.firstMissingSequence
      res.lastMissingSequence := by
  obtain ⟨scan, scanned, rfl⟩ := hi.scanned hc
  have bounds := hi.inside
  unfold Scan.finish
  cases scanned with
  | @whole last positive all =>
    split
    · rename_i hs
      change last < n at hs
      change Report n sequences false n n
      refine .missing (by omega) (le_refl n) (le_refl n) ?_ (.inr (.inr ?_))
      · rw [all]
        omega
      · exact ⟨(all 1).mpr ⟨le_refl 1, positive⟩, rfl⟩
    · rename_i hs
      change ¬ last < n at hs
      refine .complete fun k low high => (all k).mpr ?_
      omega
  | @headless head last late ho all =>
    have ht := (all last).mpr ⟨ho, le_refl last⟩
    have hb := (bounds last ht).2
    have hg : 1 ∉ sequences := by
      rw [all]
      omega
    split
    · change Report n sequences false 1 n
      refine .missing (le_refl 1) (by omega) (le_refl n) hg (.inl ?_)
      intro k low high _
      exact ⟨low, high⟩
    · rename_i hs
      change ¬ last < n at hs
      change Report n sequences false 1 1
      refine .missing (le_refl 1) (le_refl 1) (by omega) hg (.inr (.inl ⟨rfl, ?_⟩))
      have same : n = last := by omega
      rwa [same]
  | @gaps first final last positive ho below missing hp hi outermost =>
    have hb := (bounds last hp).2
    have kept : (if first = 0 then n else first) = first := if_neg (ne_of_gt positive)
    split
    · change Report n sequences false (if first = 0 then n else first) n
      rw [kept]
      refine .missing positive (by omega) (le_refl n) missing (.inl ?_)
      intro k low high hg
      by_cases old : k ≤ last
      · exact ⟨(outermost k low old hg).1, high⟩
      · omega
    · rename_i hs
      change ¬ last < n at hs
      change Report n sequences false first final
      refine .missing positive ho (by omega) missing (.inl ?_)
      intro k low high hg
      exact outermost k low (by omega) hg

variable {first last : Nat}

theorem Report.complete_iff {all : Bool} (report : Report n sequences all first last) :
    all = true ↔ Complete n sequences := by
  cases report with
  | complete complete => exact iff_of_true rfl complete
  | missing positive ordered bounded hg _ =>
    refine iff_of_false Bool.false_ne_true fun complete => hg (complete first positive ?_)
    exact le_trans ordered bounded

/-- Two ranges of missing numbers, the second of what is left with the first, make up a window. -/
theorem Report.twice {first' last' : Nat} {more most : List Nat}
    (report : Report n sequences false first last)
    (added : ∀ k, k ∈ more ↔ k ∈ sequences ∨ (first ≤ k ∧ k ≤ last))
    (again : Report n more false first' last')
    (readded : ∀ k, k ∈ most ↔ k ∈ more ∨ (first' ≤ k ∧ k ≤ last')) : Complete n most := by
  cases report with
  | missing _ ordered _ _ reach =>
    cases again with
    | missing positive' _ _ hg' reach' =>
      have ends : 1 ∈ more ∧ n ∈ more := by
        rcases reach with hc | ⟨rfl, final⟩ | ⟨head, rfl⟩
        · exfalso
          have ha : first' ∉ sequences := fun ht => hg' ((added first').mpr (.inl ht))
          have hb : first' ≤ n := by omega
          exact hg' ((added first').mpr (.inr (hc first' positive' hb ha)))
        · exact ⟨(added 1).mpr (.inr ⟨le_refl 1, ordered⟩), (added n).mpr (.inl final)⟩
        · exact ⟨(added 1).mpr (.inl head), (added first).mpr (.inr ⟨le_refl first, ordered⟩)⟩
      rcases reach' with hc | ⟨rfl, _⟩ | ⟨_, rfl⟩
      · intro k low high
        by_cases ht : k ∈ more
        · exact (readded k).mpr (.inl ht)
        · exact (readded k).mpr (.inr (hc k low high ht))
      · exact absurd ends.1 hg'
      · exact absurd ends.2 hg'

/-- Whatever is in the buffer, a window is complete if the check says so. -/
theorem complete_of_checkWindow (hs : sequences.Pairwise (· < ·))
    (checked : checkWindow sequences n = some res)
    (hc : res.allFragmentsReceived = true) : Complete n sequences := by
  have positive : ∀ k ∈ sequences, 1 ≤ k := by
    cases sequences with
    | nil => exact nofun
    | cons head rest =>
      have first : 1 ≤ head := by
        apply Nat.pos_of_ne_zero
        intro zero
        obtain ⟨last, _, rfl⟩ := exists_of_checkWindow checked
        subst zero
        have lost := @Scan.foldl_incomplete ⟨false, 1, 1, 0⟩ rfl rest
        have never := Scan.finish_incomplete lost last n
        exact absurd (hc.symm.trans never) Bool.noConfusion
      intro k hm
      rcases mem_cons.mp hm with rfl | later
      · exact first
      · exact le_trans first (le_of_lt ((pairwise_cons.mp hs).1 k later))
  obtain ⟨scan, scanned, rfl⟩ := checkWindow_eq_some checked positive hs
  cases scanned with
  | @whole last low all =>
    intro k ha hb
    rw [all]
    unfold Scan.finish at hc
    split at hc
    · cases hc
    · rename_i short
      change ¬ last < n at short
      omega
  | headless _ _ _ => exact absurd (hc.symm.trans (Scan.finish_incomplete rfl _ n)) Bool.noConfusion
  | gaps =>
    exact absurd (hc.symm.trans (Scan.finish_incomplete rfl _ n)) Bool.noConfusion

end

open Std (TreeMap)
open NestedMap IcnPacketBuffer UInt16 Nat

section

variable {session : Session} {buf : IcnPacketBuffer} {found : Fragments}

theorem mem_sequencesOf {k : Nat} :
    k ∈ sequencesOf found ↔ ∃ key : Seq, key ∈ found ∧ key.toNat = k := by
  rw [sequencesOf]
  simp

theorem sorted_sequencesOf : (sequencesOf found).Pairwise (· < ·) := by
  rw [sequencesOf, List.pairwise_map]
  apply List.Pairwise.imp ?_ TreeMap.ordered_keys
  intro key other less
  exact lt_iff_toNat_lt.mp (Std.compare_eq_lt.mp less)

theorem mem_addFragment {seqNo key : Seq} {stored : Stored} :
    key ∈ addFragment seqNo stored found ↔ key ∈ found ∨ key = seqNo := by
  rw [TreeMap.mem_iff_isSome_getElem?, getElem?_addFragment]
  split
  · rename_i same
    simp [same]
  · rename_i other
    simp [other]

/-- A data packet of the session. -/
def Belongs (session : Session) (packet : List UInt8) : Prop :=
  (readDataHeader packet).enigma = session.enigma ∧
    (readDataHeader packet).sessionKey = session.sessionKey

theorem sequencesOf_handleData (ht : buf.fragments session = some found)
    {pkt : List UInt8} (belongs : Belongs session pkt) :
    ∃ later, (buf.handleData session.rCid session.nid pkt).fragments session = some later ∧
      ∀ k, k ∈ sequencesOf later ↔
        k ∈ sequencesOf found ∨ (readDataHeader pkt).sequenceNumber.toNat = k := by
  obtain ⟨enigma, sk⟩ := belongs
  have same : session = ⟨session.rCid, (readDataHeader pkt).enigma, session.nid,
      (readDataHeader pkt).sessionKey⟩ := by rw [enigma, sk]
  rw [handleData, fragments_bufferIcnPacket, if_pos same, ht]
  refine ⟨_, rfl, fun k => ?_⟩
  simp only [Option.elim_some, mem_sequencesOf, mem_addFragment]
  constructor
  · rintro ⟨key, before | rfl, rfl⟩
    · exact .inl ⟨key, before, rfl⟩
    · exact .inr rfl
  · rintro (⟨key, before, rfl⟩ | rfl)
    · exact ⟨key, .inl before, rfl⟩
    · exact ⟨_, .inr rfl, rfl⟩

theorem sequencesOf_arrivals (ht : buf.fragments session = some found)
    {arrivals : List (List UInt8)} (belong : ∀ pkt ∈ arrivals, Belongs session pkt) :
    ∃ later, (arrivals.foldl (handleData session.rCid session.nid) buf).fragments session =
        some later ∧ ∀ k, k ∈ sequencesOf later ↔ k ∈ sequencesOf found ∨
        ∃ pkt ∈ arrivals, (readDataHeader pkt).sequenceNumber.toNat = k := by
  induction arrivals generalizing buf found with
  | nil => exact ⟨found, ht, by simp⟩
  | cons pkt rest ih =>
    obtain ⟨next, hs, nums⟩ := sequencesOf_handleData ht (belong pkt List.mem_cons_self)
    obtain ⟨later, ha, all⟩ := ih hs fun other hm => belong other (.tail _ hm)
    refine ⟨later, ha, fun k => ?_⟩
    rw [all, nums, or_assoc]
    simp

end

/-- The publisher has packets with the numbers from 1 to `n`, each with its number in the header. -/
structure Offers (session : Session) (n : Seq) (packets : Packets) : Prop where
  keys : ∀ key : Seq, packets[key]? ≠ none ↔ 1 ≤ key.toNat ∧ key.toNat ≤ n.toNat
  belongs : ∀ (key : Seq) packet, packets[key]? = some packet → Belongs session packet
  number : ∀ (key : Seq) packet, packets[key]? = some packet →
    (readDataHeader packet).sequenceNumber = key

/-- The window end is confirmed, at once or after rounds in which the missing range arrives in some
order. -/
def Recovers (packets : Packets) (session : Session) (n : Seq) (rounds : Nat)
    (buffer : IcnPacketBuffer) : Prop :=
  ∃ found result, buffer.fragments session = some found ∧
    checkWindow (sequencesOf found) n.toNat = some result ∧
    (result.allFragmentsReceived = true ∨
      match rounds with
      | 0 => False
      | rounds + 1 =>
        ∃ range, packets.range (UInt16.ofNat result.firstMissingSequence)
            (UInt16.ofNat result.lastMissingSequence) = some range ∧
          ∀ arrivals : List (List UInt8), (∀ packet, packet ∈ arrivals ↔ packet ∈ range) →
            Recovers packets session n rounds
              (arrivals.foldl (handleData session.rCid session.nid) buffer))

section

variable {session : Session} {buffer : IcnPacketBuffer} {n : Seq} {pkts : Packets}

/-- The window of a session with at least one of the numbers from 1 to `n`. -/
structure Receiving (session : Session) (n : Seq) (buffer : IcnPacketBuffer)
    (sequences : List Nat) : Prop where
  there : ∃ found, buffer.fragments session = some found ∧ sequencesOf found = sequences
  filled : sequences ≠ []
  within : Within n.toNat sequences

variable {seqs : List Nat}

section

variable (receiving : Receiving session n buffer seqs)

include receiving

theorem Receiving.report :
    ∃ res, checkWindow seqs n.toNat = some res ∧
      Report n.toNat seqs res.allFragmentsReceived res.firstMissingSequence
        res.lastMissingSequence := by
  have hc : checkWindow seqs n.toNat = some ((seqs.foldl Scan.step Scan.start).finish
        (seqs.getLast receiving.filled) n.toNat) := by
    rw [checkWindow, List.getLast?_eq_some_getLast receiving.filled]
    rfl
  exact ⟨_, hc, receiving.within.report hc⟩

/-- What is reported missing can be sent again, and then is there. -/
theorem Receiving.round (offers : Offers session n pkts) {first last : Nat}
    (report : Report n.toNat seqs false first last) :
    ∃ range, pkts.range (ofNat first) (ofNat last) = some range ∧
      ∀ arrivals : List (List UInt8), (∀ pkt, pkt ∈ arrivals ↔ pkt ∈ range) →
        ∃ more, Receiving session n
            (arrivals.foldl (handleData session.rCid session.nid) buffer) more ∧
          ∀ k, k ∈ more ↔ k ∈ seqs ∨ (first ≤ k ∧ k ≤ last) := by
  cases report with
  | missing _ ordered =>
    have limit := n.toNat_lt
    have firstValue : (ofNat first).toNat = first := by
      rw [toNat_ofNat']
      omega
    have lastValue : (ofNat last).toNat = last := by
      rw [toNat_ofNat']
      omega
    have zero : pkts[(0 : Seq)]? = none := by
      apply Decidable.byContradiction
      intro ht
      exact absurd ((offers.keys 0).mp ht).1 (by decide)
    have hp : ∀ key : Seq, ofNat first ≤ key → key ≤ ofNat last → pkts[key]? ≠ none := by
      intro key low high
      rw [le_iff_toNat_le] at low high
      exact (offers.keys key).mpr (by omega)
    obtain ⟨range, published, members⟩ := Packets.range_spec zero hp
    refine ⟨range, published, fun arrivals all => ?_⟩
    have belong : ∀ pkt ∈ arrivals, Belongs session pkt := by
      intro pkt hm
      obtain ⟨key, _, _, hs⟩ := (members pkt).mp ((all pkt).mp hm)
      exact offers.belongs key pkt hs
    obtain ⟨found, ht, nums⟩ := receiving.there
    obtain ⟨later, ha, added⟩ := sequencesOf_arrivals ht belong
    have grown : ∀ k, k ∈ sequencesOf later ↔ k ∈ seqs ∨ (first ≤ k ∧ k ≤ last) := by
      intro k
      rw [added, nums]
      apply or_congr_right
      constructor
      · rintro ⟨pkt, hm, rfl⟩
        obtain ⟨key, low, high, hs⟩ := (members pkt).mp ((all pkt).mp hm)
        rw [offers.number key pkt hs]
        rw [le_iff_toNat_le] at low high
        omega
      · rintro ⟨low, high⟩
        have val : (ofNat k).toNat = k := by
          rw [toNat_ofNat']
          omega
        have hi : ofNat first ≤ ofNat k ∧ ofNat k ≤ ofNat last := by
          rw [le_iff_toNat_le, le_iff_toNat_le]
          omega
        obtain ⟨pkt, hs⟩ := Option.ne_none_iff_exists'.mp (hp (ofNat k) hi.1 hi.2)
        refine ⟨pkt, (all pkt).mpr ((members pkt).mpr ⟨_, hi.1, hi.2, hs⟩), ?_⟩
        rw [offers.number _ pkt hs, val]
    refine ⟨sequencesOf later, ⟨⟨later, ha, rfl⟩, ?_, sorted_sequencesOf, ?_⟩, grown⟩
    · exact List.ne_nil_of_mem ((grown first).mpr (.inr ⟨le_refl first, ordered⟩))
    intro k hm
    rcases (grown k).mp hm with before | between
    · exact receiving.within.inside k before
    · omega

/-- The next round, or no more if the check finds nothing missing. -/
theorem Receiving.recovers (offers : Offers session n pkts) {rounds : Nat}
    (next : ∀ first last, Report n.toNat seqs false first last →
      ∀ later more, Receiving session n later more →
      (∀ k, k ∈ more ↔ k ∈ seqs ∨ (first ≤ k ∧ k ≤ last)) → Recovers pkts session n rounds later) :
    Recovers pkts session n (rounds + 1) buffer := by
  obtain ⟨res, hc, report⟩ := receiving.report
  obtain ⟨found, ht, rfl⟩ := receiving.there
  refine ⟨found, res, ht, hc, ?_⟩
  cases all : res.allFragmentsReceived with
  | true => exact .inl rfl
  | false =>
    rw [all] at report
    obtain ⟨range, published, arrive⟩ := receiving.round offers report
    refine .inr ⟨range, published, fun arrivals same => ?_⟩
    obtain ⟨more, receivingMore, grown⟩ := arrive arrivals same
    exact next _ _ report _ more receivingMore grown

theorem Receiving.confirmed (complete : Complete n.toNat seqs) :
    Recovers pkts session n 0 buffer := by
  obtain ⟨res, hc, report⟩ := receiving.report
  obtain ⟨found, ht, rfl⟩ := receiving.there
  exact ⟨found, res, ht, hc, .inl (report.complete_iff.mpr complete)⟩

end

/-- The check reports exactly a complete window, or else a range of the window that begins with a
missing number, and two rounds are enough. -/
theorem nacks_complete_window (session : Session) (n : Seq) (packets : Packets)
    (offers : Offers session n packets) (buffer : IcnPacketBuffer) (found : Fragments)
    (there : buffer.fragments session = some found) (filled : sequencesOf found ≠ [])
    (inside : ∀ k ∈ sequencesOf found, 1 ≤ k ∧ k ≤ n.toNat) :
    (∃ result, checkWindow (sequencesOf found) n.toNat = some result ∧
      (result.allFragmentsReceived = true ↔
        ∀ k, k ∈ sequencesOf found ↔ 1 ≤ k ∧ k ≤ n.toNat) ∧
      (result.allFragmentsReceived = false →
        1 ≤ result.firstMissingSequence ∧
        result.firstMissingSequence ≤ result.lastMissingSequence ∧
        result.lastMissingSequence ≤ n.toNat ∧
        result.firstMissingSequence ∉ sequencesOf found)) ∧
    Recovers packets session n 2 buffer := by
  have receiving : Receiving session n buffer (sequencesOf found) :=
    ⟨⟨found, there, rfl⟩, filled, sorted_sequencesOf, inside⟩
  constructor
  · obtain ⟨result, hc, report⟩ := receiving.report
    refine ⟨result, hc, ?_, ?_⟩
    · rw [report.complete_iff]
      constructor
      · intro complete k
        exact ⟨inside k, fun bounds => complete k bounds.1 bounds.2⟩
      · intro all k low high
        exact (all k).mpr ⟨low, high⟩
    · intro incomplete
      rw [incomplete] at report
      cases report with
      | missing positive ordered bounded gone _ => exact ⟨positive, ordered, bounded, gone⟩
  · apply receiving.recovers offers
    intro first last report later more receivingMore grown
    apply receivingMore.recovers offers
    intro first' last' ha latest most receivingMost regrown
    exact receivingMost.confirmed (report.twice grown ha regrown)

end

/-- A fragment with one byte. -/
def smallFragment (enigma : Enigma) (sessionKey : SessionKey)
    (sequenceNumber : Seq) (byte : UInt8) :
    List UInt8 :=
  (⟨enigma, sessionKey, sequenceNumber, 1⟩ : DataHeader).bytes ++ [byte]

/-- Of two fragments only the second has arrived. -/
theorem nacks_complete_window_headless :
    let session : Session := ⟨1, 2, 3, 4⟩
    let packets : Packets := (single 1 (smallFragment 2 4 1 5)).insert 2 (smallFragment 2 4 2 6)
    let buffer : IcnPacketBuffer := handleData 1 3 ∅ (smallFragment 2 4 2 6)
    Offers session 2 packets ∧ Recovers packets session 2 2 buffer := by
  intro session packets buffer
  have hl : ∀ key : Seq, packets[key]? = if key = 2 then some (smallFragment 2 4 2 6) else
      if key = 1 then some (smallFragment 2 4 1 5) else none := by
    intro key
    rw [getElem?_insert, getElem?_single]
  have hs : ∀ (key : Seq) pkt, packets[key]? = some pkt →
      (key = 2 ∧ pkt = smallFragment 2 4 2 6) ∨ (key = 1 ∧ pkt = smallFragment 2 4 1 5) := by
    intro key pkt found
    rw [hl] at found
    split at found
    · rename_i two
      exact .inl ⟨two, (Option.some.inj found).symm⟩
    split at found
    · rename_i one
      exact .inr ⟨one, (Option.some.inj found).symm⟩
    · cases found
  have offers : Offers session 2 packets := by
    constructor
    · intro key
      constructor
      · intro ht
        obtain ⟨pkt, found⟩ := Option.ne_none_iff_exists'.mp ht
        rcases hs key pkt found with ⟨rfl, _⟩ | ⟨rfl, _⟩
        · decide
        · decide
      · intro ⟨low, high⟩
        have two : (2 : UInt16).toNat = 2 := rfl
        rcases lt_or_ge key.toNat 2 with less | same
        · have one : key = 1 := UInt16.toNat_inj.mp (le_antisymm (le_of_lt_succ less) low)
          rw [hl, one]
          simp
        · have last : key = 2 := UInt16.toNat_inj.mp (le_antisymm high same)
          rw [hl, last]
          simp
    · intro key pkt found
      rcases hs key pkt found with ⟨rfl, rfl⟩ | ⟨rfl, rfl⟩
      · exact ⟨rfl, rfl⟩
      · exact ⟨rfl, rfl⟩
    · intro key pkt found
      rcases hs key pkt found with ⟨rfl, rfl⟩ | ⟨rfl, rfl⟩
      · rfl
      · rfl
  have ht : buffer.fragments session = some (single 2 ⟨[6], 1⟩) := by rfl
  exact ⟨offers,
    (nacks_complete_window session 2 packets offers buffer _ ht (by decide) (by decide)).2⟩

end Blackadder.Ltp
