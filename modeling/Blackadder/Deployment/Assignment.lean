import Blackadder.Deployment.Parser
import Blackadder.Library.Combinations
import Blackadder.Library.Program
import Mathlib.Algebra.Order.BigOperators.Group.List
import Mathlib.Data.Finset.Card

namespace Blackadder.Deployment

open Combinations List Connection Int Domain

variable {w : Nat}

inductive Failure
  /-- The numbers drawn so far do not end the loop. -/
  | unfinished
  /-- A vector of negative size. -/
  | badSize
  /-- An element behind the end of the vector. -/
  | outOfRange
deriving DecidableEq

section

/-- How many bits are drawn for the identifier with some index. -/
def numberOfBits (w index : Nat) : Nat := index / w + 1

/-- The identifier with the bits that were drawn. -/
def drawn (w : Nat) (numbers : List Nat) : BitVec w :=
  numbers.foldl (fun LID rand => LID ||| BitVec.twoPow w (rand % w)) 0

/-- The loop of `calculateLID`, on what `rand` returns, of which every turn takes some. -/
def drawLID (LIDs : List (Option (BitVec w))) (bits : Nat) :
    (turns : Nat) → List Nat → Except Failure (BitVec w × List Nat)
  | 0, _ => .error .unfinished
  | turns + 1, rand =>
    if rand.length < bits then .error .unfinished
    else if some (drawn w (rand.take bits)) ∈ LIDs then drawLID LIDs bits turns (rand.drop bits)
    else .ok (drawn w (rand.take bits), rand.drop bits)

def calculateLID (LIDs : List (Option (BitVec w))) (index : Nat) (rand : List Nat) :
    Except Failure (List (Option (BitVec w)) × List Nat) := do
  let (LID, rest) ← drawLID LIDs (numberOfBits w index) rand.length rand
  .ok (LIDs.set index (some LID), rest)

/-- The loop of `assignLIDs` over some indices. -/
def calculateLIDs (LIDs : List (Option (BitVec w))) (rand : List Nat) :
    (count : Nat) → Except Failure (List (Option (BitVec w)) × List Nat)
  | 0 => .ok (LIDs, rand)
  | count + 1 => do
    let (LIDs, rest) ← calculateLIDs LIDs rand count
    calculateLID LIDs count rest

variable {LIDs : List (Option (BitVec w))} {rand rest numbers : List Nat} {LID : BitVec w}
  {bits turns : Nat}

theorem getLsbD_foldl {k : Nat} (hi : k < w) (mask : BitVec w) :
    (numbers.foldl (fun LID rand => LID ||| BitVec.twoPow w (rand % w)) mask).getLsbD k =
      (mask.getLsbD k || numbers.any fun rand => rand % w = k) := by
  induction numbers generalizing mask with
  | nil => rw [foldl_nil, any_nil, Bool.or_false]
  | cons rand later ih =>
    have low : rand % w < w := Nat.mod_lt _ (by omega)
    rw [foldl_cons, ih, BitVec.getLsbD_or, BitVec.getLsbD_twoPow, any_cons,
      decide_eq_true low, Bool.true_and, Bool.or_assoc]

theorem getLsbD_drawn {k : Nat} (hi : k < w) :
    (drawn w numbers).getLsbD k = numbers.any fun rand => rand % w = k := by
  rw [drawn, getLsbD_foldl hi]
  exact congrArg (· || _) BitVec.getLsbD_zero

theorem drawn_ne_zero (hp : 0 < w) (some : numbers ≠ []) : drawn w numbers ≠ 0 := by
  obtain ⟨rand, later, rfl⟩ := exists_cons_of_ne_nil some
  intro zero
  have set := @getLsbD_drawn w (rand :: later) _ (Nat.mod_lt rand hp)
  rw [zero, any_cons, decide_eq_true rfl] at set
  exact absurd (BitVec.getLsbD_zero.symm.trans set) Bool.false_ne_true

variable {failure : Failure} {more : List Nat} {idx : Nat}

/-- The loop ends with a new identifier, or the numbers do not suffice. -/
theorem drawLID_spec (LIDs : List (Option (BitVec w))) (bits turns : Nat) (rand : List Nat) :
    (∀ LID rest, drawLID LIDs bits turns rand = .ok (LID, rest) →
      some LID ∉ LIDs ∧ ∃ numbers, numbers.length = bits ∧ LID = drawn w numbers) ∧
    ∀ failure, drawLID LIDs bits turns rand = .error failure → failure = .unfinished := by
  induction turns generalizing rand with
  | zero => exact ⟨nofun, fun _ done => (Except.error.inj done).symm⟩
  | succ turns ih =>
    rw [drawLID]
    by_cases hs : rand.length < bits
    · rw [if_pos hs]
      exact ⟨nofun, fun _ done => (Except.error.inj done).symm⟩
    rw [if_neg hs]
    by_cases old : some (drawn w (rand.take bits)) ∈ LIDs
    · rw [if_pos old]
      exact ih _
    rw [if_neg old]
    refine ⟨fun LID rest done => ?_, nofun⟩
    cases done
    refine ⟨old, rand.take bits, ?_, rfl⟩
    rw [length_take]
    omega

theorem drawLID_append {turns' : Nat} (he : turns ≤ turns')
    (done : drawLID LIDs bits turns rand = .ok (LID, rest)) :
    drawLID LIDs bits turns' (rand ++ more) = .ok (LID, rest ++ more) := by
  induction turns generalizing rand turns' with
  | zero => cases done
  | succ turns ih =>
    obtain ⟨turns', rfl⟩ := Nat.exists_eq_succ_of_ne_zero (show turns' ≠ 0 by omega)
    rw [drawLID] at done ⊢
    by_cases hs : rand.length < bits
    · rw [if_pos hs] at done
      cases done
    have long : ¬ (rand ++ more).length < bits := by
      rw [length_append]
      omega
    rw [if_neg hs] at done
    rw [if_neg long, take_append_of_le_length (by omega), drop_append_of_le_length (by omega)]
    by_cases old : some (drawn w (rand.take bits)) ∈ LIDs
    · rw [if_pos old] at done ⊢
      exact ih (by omega) done
    · rw [if_neg old] at done ⊢
      cases done
      rfl

theorem calculateLID_new (count : numbers.length = numberOfBits w idx)
    (new : some (drawn w numbers) ∉ LIDs) :
    calculateLID LIDs idx numbers = .ok (LIDs.set idx (some (drawn w numbers)), []) := by
  obtain ⟨turns, len⟩ := Nat.exists_eq_succ_of_ne_zero (show numbers.length ≠ 0 by
    rw [count]
    exact Nat.succ_ne_zero _)
  have first : drawLID LIDs (numberOfBits w idx) numbers.length numbers =
      .ok (drawn w numbers, []) := by
    rw [len, drawLID, if_neg (by omega), ← count, take_length, if_neg new, drop_length]
  rw [calculateLID, first]
  rfl

variable {after : List (Option (BitVec w))}

theorem calculateLID_append (done : calculateLID LIDs idx rand = .ok (after, rest)) :
    calculateLID LIDs idx (rand ++ more) = .ok (after, rest ++ more) := by
  obtain ⟨⟨LID, left⟩, first, last⟩ := bind_ok_iff.mp done
  cases last
  have longer : rand.length ≤ (rand ++ more).length := by
    rw [length_append]
    omega
  exact bind_ok_iff.mpr ⟨_, drawLID_append longer first, rfl⟩

theorem calculateLIDs_append {count : Nat}
    (done : calculateLIDs LIDs rand count = .ok (after, rest)) :
    calculateLIDs LIDs (rand ++ more) count = .ok (after, rest ++ more) := by
  induction count generalizing after rest with
  | zero =>
    cases done
    rfl
  | succ count ih =>
    obtain ⟨⟨middle, left⟩, first, last⟩ := bind_ok_iff.mp done
    exact bind_ok_iff.mpr ⟨_, ih first, calculateLID_append last⟩

/-- The vector after some indices: new identifiers, and empty ones behind them. -/
structure Filled (total count : Nat) (LIDs : List (Option (BitVec w))) (drawn : List (BitVec w)) :
    Prop where
  eq : LIDs = drawn.map some ++ List.replicate (total - count) none
  length : drawn.length = count
  nodup : drawn.Nodup
  nonzero : 0 ∉ drawn

variable {total count : Nat} {list : List (BitVec w)}

theorem Filled.step (hf : Filled total count LIDs list) (hi : count < total)
    (hp : 0 < w) {after : List (Option (BitVec w))}
    (done : calculateLID LIDs count rand = .ok (after, rest)) :
    ∃ list', Filled total (count + 1) after list' := by
  obtain ⟨⟨LID, left⟩, first, last⟩ := bind_ok_iff.mp done
  cases last
  obtain ⟨new, numbers, bits, rfl⟩ := (drawLID_spec _ _ _ _).1 _ _ first
  refine ⟨list ++ [drawn w numbers], ?_, ?_, ?_, ?_⟩
  · have more : total - count = total - (count + 1) + 1 := by omega
    rw [hf.eq, more, map_append, append_assoc,
      set_append_right _ _ (by rw [length_map, hf.length]), length_map, hf.length, Nat.sub_self]
    rfl
  · rw [length_append, hf.length, length_singleton]
  · apply List.Nodup.append hf.nodup (nodup_singleton _)
    rw [disjoint_singleton]
    intro hm
    apply new
    rw [hf.eq]
    exact mem_append_left _ (mem_map_of_mem hm)
  · rw [mem_append, mem_singleton, not_or]
    refine ⟨hf.nonzero, fun zero => drawn_ne_zero hp ?_ zero.symm⟩
    rintro rfl
    cases bits

theorem width_pos (few : count + 1 < 2 ^ w) : 0 < w := by
  apply pos_of_ne_zero
  rintro rfl
  omega

theorem calculateLIDs_filled (hi : count ≤ total) (few : count < 2 ^ w)
    (done : calculateLIDs (List.replicate total none) rand count = .ok (LIDs, rest)) :
    ∃ list, Filled total count LIDs list := by
  induction count generalizing LIDs rest with
  | zero =>
    cases done
    exact ⟨[], rfl, rfl, nodup_nil, not_mem_nil⟩
  | succ count ih =>
    obtain ⟨⟨middle, left⟩, first, last⟩ := bind_ok_iff.mp done
    obtain ⟨list, hf⟩ := ih (by omega) (by omega) first
    exact hf.step hi (width_pos few) last

theorem calculateLIDs_error (done : calculateLIDs LIDs rand count = .error failure) :
    failure = .unfinished := by
  induction count with
  | zero => cases done
  | succ count ih =>
    rcases except_bind_eq_error.mp done with early | ⟨⟨middle, left⟩, _, late⟩
    · exact ih early
    · rcases except_bind_eq_error.mp late with draw | ⟨_, _, last⟩
      · exact (drawLID_spec _ _ _ _).2 _ draw
      · cases last

theorem exists_drawn {j : Nat} (some : 0 < size w j) (few : size w j ≤ bits) :
    ∃ numbers, numbers.length = bits ∧ (∀ rand ∈ numbers, rand < w) ∧
      drawn w numbers = BitVec.ofNat w j := by
  obtain ⟨first, later, members⟩ := exists_cons_of_length_pos some
  have all : ∀ k, k ∈ positions w j ↔ k < w ∧ j.testBit k = true := fun k => by
    rw [positions, mem_filter, mem_range]
  have head : first ∈ positions w j := by
    rw [members]
    exact mem_cons_self
  -- The first bit is drawn again until there are enough numbers.
  have hi : ∀ rand ∈ positions w j ++ List.replicate (bits - size w j) first,
      rand ∈ positions w j := by
    intro rand hm
    rcases mem_append.mp hm with own | again
    · exact own
    · rw [(mem_replicate.mp again).2]
      exact head
  refine ⟨positions w j ++ List.replicate (bits - size w j) first, ?_, ?_, ?_⟩
  · rw [length_append, length_replicate]
    change size w j + (bits - size w j) = bits
    omega
  · intro rand hm
    exact ((all rand).mp (hi rand hm)).1
  · apply BitVec.eq_of_getLsbD_eq
    intro k hb
    rw [getLsbD_drawn hb, BitVec.getLsbD_ofNat, decide_eq_true hb, Bool.eq_iff_iff, any_eq_true]
    constructor
    · intro found
      obtain ⟨rand, hm, hs⟩ := found
      obtain ⟨small, set⟩ := (all rand).mp (hi rand hm)
      rw [decide_eq_true_eq, Nat.mod_eq_of_lt small] at hs
      rwa [← hs]
    · intro set
      refine ⟨k, mem_append_left _ ((all k).mpr ⟨hb, set⟩), ?_⟩
      rw [Nat.mod_eq_of_lt hb, decide_eq_true rfl]

/-- As long as there are fewer identifiers than values, some draw gives a new one. -/
theorem Filled.exists_new (hf : Filled total count LIDs list) (hp : 0 < w)
    (few : count < 2 ^ w - 1) :
    ∃ numbers, numbers.length = numberOfBits w count ∧ (∀ rand ∈ numbers, rand < w) ∧
      some (drawn w numbers) ∉ LIDs := by
  let candidates := (List.range' 1 (2 ^ w - 1)).filter fun j => size w j - 1 < numberOfBits w count
  have bounds : ∀ j ∈ candidates, 0 < j ∧ j < 2 ^ w ∧ size w j - 1 < numberOfBits w count := by
    intro j hm
    obtain ⟨range, small⟩ := mem_filter.mp hm
    have hi := mem_range'_1.mp range
    exact ⟨by omega, by omega, of_decide_eq_true small⟩
  have many : count < candidates.length := by
    have least := le_countP_small hp (numberOfBits w count)
    rw [countP_eq_length_filter] at least
    have more : count < numberOfBits w count * w := by
      rw [mul_comm]
      exact Nat.lt_mul_div_succ count hp
    exact (lt_min more few).trans_le least
  have hd : (candidates.map (BitVec.ofNat w)).Nodup := by
    have plain : candidates.Nodup := List.Nodup.filter _ (nodup_range' 1)
    apply List.Nodup.map_on _ plain
    intro j first k second hs
    have values := congrArg BitVec.toNat hs
    rwa [BitVec.toNat_ofNat, BitVec.toNat_ofNat, Nat.mod_eq_of_lt (bounds j first).2.1,
      Nat.mod_eq_of_lt (bounds k second).2.1] at values
  have missing : ∃ j ∈ candidates, BitVec.ofNat w j ∉ list := by
    by_contra none
    have sub : candidates.map (BitVec.ofNat w) ⊆ list := by
      intro val hm
      obtain ⟨j, hi, rfl⟩ := mem_map.mp hm
      by_contra new
      exact none ⟨j, hi, new⟩
    have len := (hd.subperm sub).length_le
    rw [length_map, hf.length] at len
    omega
  obtain ⟨j, hm, new⟩ := missing
  obtain ⟨positiveJ, low, small⟩ := bounds j hm
  have some : 0 < size w j := by
    apply pos_of_ne_zero
    intro he
    have zero := eq_zero_of_size low he
    omega
  obtain ⟨numbers, len, hi, val⟩ :=
    exists_drawn some (show size w j ≤ numberOfBits w count by omega)
  refine ⟨numbers, len, hi, ?_⟩
  rw [hf.eq, val, mem_append, not_or]
  constructor
  · intro ha
    obtain ⟨other, old, hs⟩ := mem_map.mp ha
    cases hs
    exact new old
  · intro he
    cases (mem_replicate.mp he).2

/-- There are no more than 2^w - 1 identifiers other than zero. -/
theorem Filled.count_lt (hf : Filled total count LIDs list) : count < 2 ^ w := by
  have distinct : ((0 :: list).map BitVec.toNat).Nodup :=
    (nodup_cons.mpr ⟨hf.nonzero, hf.nodup⟩).map fun _ _ => BitVec.eq_of_toNat_eq
  have inside : (0 :: list).map BitVec.toNat ⊆ List.range (2 ^ w) := by
    intro val hm
    obtain ⟨LID, _, rfl⟩ := mem_map.mp hm
    exact List.mem_range.mpr LID.isLt
  have len := (distinct.subperm inside).length_le
  rw [length_map, length_cons, hf.length, length_range] at len
  omega

theorem exists_calculateLIDs (hi : count ≤ total) (few : count < 2 ^ w) :
    ∃ rand LIDs, calculateLIDs (w := w) (List.replicate total none) rand
      count = .ok (LIDs, []) := by
  induction count with
  | zero => exact ⟨[], _, rfl⟩
  | succ count ih =>
    obtain ⟨rand, LIDs, done⟩ := ih (by omega) (by omega)
    obtain ⟨list, hf⟩ := calculateLIDs_filled (by omega) (by omega) done
    obtain ⟨numbers, len, _, new⟩ := hf.exists_new (width_pos few) (by omega)
    exact ⟨rand ++ numbers, _, bind_ok_iff.mpr
      ⟨_, calculateLIDs_append done, calculateLID_new len new⟩⟩

end

section

def takeLID (LIDs : List (Option (BitVec w))) (counter : Nat) :
    Except Failure (Option (BitVec w) × Nat) :=
  match LIDs[counter]? with
  | some LID => .ok (LID, counter + 1)
  | none => .error .outOfRange

/-- A connection that gets an identifier: in a multilayer domain one of the packet layer. -/
def Connection.needs (macMl : Bool) (nc : Connection w) : Bool := !macMl || nc.isPp

def assignConnection (macMl : Bool) (LIDs : List (Option (BitVec w))) (counter : Nat)
    (nc : Connection w) : Except Failure (Connection w × Nat) :=
  if nc.needs macMl then do
    let (LID, counter) ← takeLID LIDs counter
    .ok ({ nc with lid := LID }, counter)
  else .ok ({ nc with lid := some 0 }, counter)

def assignConnections (macMl : Bool) (LIDs : List (Option (BitVec w))) :
    Nat → List (Connection w) → Except Failure (List (Connection w) × Nat)
  | counter, [] => .ok ([], counter)
  | counter, nc :: later => do
    let (nc, counter) ← assignConnection macMl LIDs counter nc
    let (later, counter) ← assignConnections macMl LIDs counter later
    .ok (nc :: later, counter)

/-- A node of the packet layer. -/
def Node.isPn (nn : Node w) : Bool := nn.type = ['P', 'N']

def Node.needs (macMl : Bool) (nn : Node w) : Bool := !macMl || nn.isPn

def assignNode (macMl : Bool) (LIDs : List (Option (BitVec w))) (counter : Nat) (nn : Node w) :
    Except Failure (Node w × Nat) := do
  let (iLid, counter) ←
    if nn.needs macMl then takeLID LIDs counter else .ok (nn.iLid, counter)
  let (connections, counter) ← assignConnections macMl LIDs counter nn.connections
  .ok ({ nn with iLid := iLid, connections := connections }, counter)

def assignNodes (macMl : Bool) (LIDs : List (Option (BitVec w))) :
    Nat → List (Node w) → Except Failure (List (Node w) × Nat)
  | counter, [] => .ok ([], counter)
  | counter, nn :: later => do
    let (nn, counter) ← assignNode macMl LIDs counter nn
    let (later, counter) ← assignNodes macMl LIDs counter later
    .ok (nn :: later, counter)

def Domain.macMl (dm : Domain w) : Bool := dm.overlayMode = .macMl

/-- `int totalLIDs`, from a sum of unsigned numbers. -/
def Domain.totalLIDs (dm : Domain w) : Int :=
  Int.bmod
    (if dm.macMl then dm.numberOfPlNodes + dm.numberOfPConnections
      else dm.numberOfNodes + dm.numberOfConnections) (2 ^ 32)

/-- The loops of `assignLIDs` that give out the identifiers. -/
def giveLIDs (dm : Domain w) (LIDs : List (Option (BitVec w))) : Except Failure (Domain w) := do
  let (networkNodes, _) ← assignNodes dm.macMl LIDs 0 dm.networkNodes
  .ok { dm with networkNodes := networkNodes }

/-- `Domain::assignLIDs`, on what `rand` returns. -/
def assignLIDs (dm : Domain w) (rand : List Nat) : Except Failure (Domain w) :=
  if dm.totalLIDs < 0 then .error .badSize
  else do
    let (LIDs, _) ← calculateLIDs (List.replicate dm.totalLIDs.toNat none) rand dm.totalLIDs.toNat
    giveLIDs dm LIDs

def Connection.blank (nc : Connection w) : Connection w := { nc with lid := none }

/-- A node without its identifiers. -/
def Node.blank (nn : Node w) : Node w :=
  { nn with
    iLid := none
    connections := nn.connections.map Connection.blank }

def Node.needed (macMl : Bool) (nn : Node w) : Nat :=
  (if nn.needs macMl then 1 else 0) + nn.connections.countP (Connection.needs macMl)

def Node.identifiers (macMl : Bool) (nn : Node w) : List (Option (BitVec w)) :=
  (if nn.needs macMl then [nn.iLid] else []) ++
    (nn.connections.filter (Connection.needs macMl)).map Connection.lid

def needed (macMl : Bool) (nodes : List (Node w)) : Nat := (nodes.map (Node.needed macMl)).sum

def identifiers (macMl : Bool) (nodes : List (Node w)) : List (Option (BitVec w)) :=
  nodes.flatMap (Node.identifiers macMl)

variable {macMl : Bool} {LIDs : List (Option (BitVec w))} {counter : Nat}

section

variable {α β : Type} {n k : Nat} {good : α → List (Option (BitVec w)) → Prop}
  {m : Nat → Except Failure (α × Nat)}

/-- A part of the loops takes the next identifiers of the vector, which have to be there. -/
def Takes (LIDs : List (Option (BitVec w))) (n : Nat) (m : Nat → Except Failure (α × Nat))
    (good : α → List (Option (BitVec w)) → Prop) : Prop :=
  ∀ counter ≤ LIDs.length,
    (counter + n ≤ LIDs.length →
      ∃ a, m counter = .ok (a, counter + n) ∧ good a ((LIDs.drop counter).take n)) ∧
    (LIDs.length < counter + n → m counter = .error .outOfRange)

theorem Takes.mono {good' : α → List (Option (BitVec w)) → Prop} (takes : Takes LIDs n m good)
    (weaker : ∀ a ids, good a ids → good' a ids) : Takes LIDs n m good' := by
  intro counter hi
  refine ⟨fun room => ?_, (takes counter hi).2⟩
  obtain ⟨a, done, hh⟩ := (takes counter hi).1 room
  exact ⟨a, done, weaker _ _ hh⟩

theorem Takes.done (a : α) :
    Takes LIDs 0 (fun counter => .ok (a, counter)) fun b ids => b = a ∧ ids = [] := by
  intro counter hi
  exact ⟨fun _ => ⟨a, rfl, rfl, take_zero⟩, fun full => absurd full (not_lt.mpr hi)⟩

/-- One part after the other takes the identifiers of both. -/
theorem Takes.bind {next : α → Nat → Except Failure (β × Nat)}
    {after : α → β → List (Option (BitVec w)) → Prop} (first : Takes LIDs n m good)
    (later : ∀ a, Takes LIDs k (next a) (after a)) :
    Takes LIDs (n + k) (fun counter => m counter >>= fun res => next res.1 res.2)
      fun b ids => ∃ a own others, ids = own ++ others ∧ good a own ∧ after a b others := by
  intro counter hi
  rw [← add_assoc]
  refine ⟨fun room => ?_, fun full => ?_⟩
  · obtain ⟨a, done, own⟩ := (first counter hi).1 (by omega)
    obtain ⟨b, ends, others⟩ := (later a _ (show counter + n ≤ _ by omega)).1 room
    refine ⟨b, bind_ok_iff.mpr ⟨_, done, ends⟩, a, _, _, ?_, own, others⟩
    rw [take_add, drop_drop]
  · by_cases room : counter + n ≤ LIDs.length
    · obtain ⟨a, done, -⟩ := (first counter hi).1 room
      exact except_bind_eq_error.mpr (.inr ⟨_, done, (later a _ room).2 full⟩)
    · exact except_bind_eq_error.mpr (.inl ((first counter hi).2 (by omega)))

theorem takes_takeLID : Takes LIDs 1 (takeLID LIDs) fun LID ids => ids = [LID] := by
  intro counter hi
  refine ⟨fun room => ⟨LIDs[counter], ?_, ?_⟩, fun full => ?_⟩
  · rw [takeLID, List.getElem?_eq_getElem room]
  · rw [drop_eq_getElem_cons room, take_succ_cons, take_zero]
  · rw [takeLID, List.getElem?_eq_none (by omega)]

open Takes

theorem takes_assignConnection (nc : Connection w) :
    Takes LIDs (if nc.needs macMl then 1 else 0)
      (fun counter => assignConnection macMl LIDs counter nc)
      fun after ids => (if after.needs macMl then [after.lid] else []) = ids ∧
        after.blank = nc.blank := by
  unfold assignConnection
  cases case : nc.needs macMl with
  | false =>
    apply (done ({ nc with lid := some 0 } : Connection w)).mono
    rintro _ _ ⟨rfl, rfl⟩
    exact ⟨if_neg (Bool.eq_false_iff.mp case), rfl⟩
  | true =>
    apply (takes_takeLID.bind fun LID => done ({ nc with lid := LID } : Connection w)).mono
    rintro _ _ ⟨LID, _, _, rfl, rfl, rfl, rfl⟩
    exact ⟨if_pos case, rfl⟩

theorem takes_assignConnections (conns : List (Connection w)) :
    Takes LIDs (conns.countP (needs macMl))
      (fun counter => assignConnections macMl LIDs counter conns) fun after ids =>
        (after.filter (needs macMl)).map lid = ids ∧
          after.map blank = conns.map blank := by
  induction conns with
  | nil =>
    apply (done []).mono
    rintro _ _ ⟨rfl, rfl⟩
    exact ⟨rfl, rfl⟩
  | cons nc later ih =>
    rw [countP_cons, add_comm]
    apply ((takes_assignConnection nc).bind fun nc => ih.bind fun later =>
      done (nc :: later)).mono
    rintro _ _ ⟨nc', _, _, rfl, ⟨rfl, blank⟩, later', _, _, rfl, ⟨rfl, hs⟩, rfl, rfl⟩
    refine ⟨?_, by rw [map_cons, map_cons, blank, hs]⟩
    rw [filter_cons, append_nil]
    split <;> rfl

theorem takes_assignNode (nn : Node w) :
    Takes LIDs (nn.needed macMl) (fun counter => assignNode macMl LIDs counter nn)
      fun after ids => after.identifiers macMl = ids ∧ after.blank = nn.blank := by
  have own : Takes LIDs (if nn.needs macMl then 1 else 0)
      (fun counter => if nn.needs macMl then takeLID LIDs counter else .ok (nn.iLid, counter))
      fun iLid ids => (if nn.needs macMl then [iLid] else []) = ids := by
    cases nn.needs macMl with
    | false => exact (done _).mono fun _ _ both => both.2.symm
    | true => exact takes_takeLID.mono fun _ _ => Eq.symm
  have connections := @takes_assignConnections w macMl LIDs nn.connections
  have parts : (fun counter => assignNode macMl LIDs counter nn) = fun counter =>
      (if nn.needs macMl then takeLID LIDs counter else .ok (nn.iLid, counter)) >>= fun own =>
        assignConnections macMl LIDs own.2 nn.connections >>= fun all =>
          .ok ({ nn with iLid := own.1, connections := all.1 }, all.2) := by
    unfold assignNode
    split <;> rfl
  rw [parts]
  apply (own.bind fun iLid => connections.bind fun connections =>
    done ({ nn with iLid := iLid, connections := connections } : Node w)).mono
  rintro _ _ ⟨iLid, _, _, rfl, rfl, connections, _, _, rfl, ⟨rfl, hs⟩, rfl, rfl⟩
  refine ⟨by rw [append_nil]; rfl, ?_⟩
  rw [Node.blank, Node.blank, hs]

/-- If there are enough identifiers, the nodes and connections take them in order. -/
theorem takes_assignNodes (nodes : List (Node w)) :
    Takes LIDs (needed macMl nodes) (fun counter => assignNodes macMl LIDs counter nodes)
      fun after ids => identifiers macMl after = ids ∧
        after.map Node.blank = nodes.map Node.blank := by
  induction nodes with
  | nil =>
    apply (done []).mono
    rintro _ _ ⟨rfl, rfl⟩
    exact ⟨rfl, rfl⟩
  | cons nn later ih =>
    apply ((takes_assignNode nn).bind fun nn => ih.bind fun later => done (nn :: later)).mono
    rintro _ _ ⟨nn', _, _, rfl, ⟨rfl, blank⟩, later', _, _, rfl, ⟨rfl, hs⟩, rfl, rfl⟩
    refine ⟨?_, by rw [map_cons, map_cons, blank, hs]⟩
    rw [identifiers, append_nil]
    rfl

end

end

section

/-- Every node and connection that needs one has an identifier, none is zero and no two are the
same. -/
structure Unique (before after : Domain w) : Prop where
  same : after.networkNodes.map Node.blank = before.networkNodes.map Node.blank
  given : ∀ id ∈ identifiers after.macMl after.networkNodes, ∃ LID, id = some LID ∧ LID ≠ 0
  distinct : (identifiers after.macMl after.networkNodes).Nodup

/-- What `assignLIDs` is for, whenever its loops end, and that in each loop some draw ends it. -/
structure Assigns (dm : Domain w) : Prop where
  unique : ∀ rand after, assignLIDs dm rand = .ok after → Unique dm after
  sound : ∀ rand failure, assignLIDs dm rand = .error failure → failure = .unfinished
  ends : ∀ (index : Nat) (rand : List Nat) (LIDs : List (Option (BitVec w))) (rest : List Nat),
    (index : Int) < dm.totalLIDs →
    calculateLIDs (List.replicate dm.totalLIDs.toNat none) rand index = .ok (LIDs, rest) →
    ∃ numbers, numbers.length = numberOfBits w index ∧ (∀ rand ∈ numbers, rand < w) ∧
      ∃ after, calculateLID LIDs index numbers = .ok (after, [])

variable {dm : Domain w}

def Domain.size (dm : Domain w) : Nat :=
  dm.networkNodes.length + (dm.networkNodes.map fun nn => nn.connections.length).sum

section

variable {LIDs : List (Option (BitVec w))} {total count : Nat} {list : List (BitVec w)}
variable (hf : Filled total total LIDs list)

include hf

theorem Filled.eq_map : LIDs = list.map some := by
  rw [hf.eq, Nat.sub_self, replicate_zero, append_nil]

theorem Filled.length_eq : LIDs.length = total := by
  rw [hf.eq_map, length_map, hf.length]

theorem Filled.giveLIDs_ok (he : needed dm.macMl dm.networkNodes ≤ total) :
    ∃ after, giveLIDs dm LIDs = .ok after ∧ Unique dm after := by
  obtain ⟨nodes, hg, ids, hs⟩ := (takes_assignNodes dm.networkNodes 0 (Nat.zero_le _)).1 (by
    rw [hf.length_eq, zero_add]
    exact he)
  rw [hf.eq_map] at ids
  refine ⟨{ dm with networkNodes := nodes }, bind_ok_iff.mpr ⟨_, hg, rfl⟩, hs, ?_, ?_⟩
  · intro id hm
    change id ∈ identifiers dm.macMl nodes at hm
    rw [ids] at hm
    obtain ⟨LID, hi, rfl⟩ := mem_map.mp (mem_of_mem_take hm)
    exact ⟨LID, rfl, fun zero => hf.nonzero (zero ▸ hi)⟩
  · change (identifiers dm.macMl nodes).Nodup
    rw [ids]
    exact (take_sublist _ _).nodup (hf.nodup.map (Option.some_injective _))

theorem Filled.giveLIDs_error (more : total < needed dm.macMl dm.networkNodes) :
    giveLIDs dm LIDs = .error .outOfRange := by
  refine except_bind_eq_error.mpr (.inl ((takes_assignNodes _ 0 (Nat.zero_le _)).2 ?_))
  rw [hf.length_eq]
  omega

end

theorem Assigns.small (assigns : Assigns dm) : dm.totalLIDs < 2 ^ w := by
  by_contra more
  have positive := Nat.two_pow_pos w
  obtain ⟨total, count⟩ := eq_ofNat_of_zero_le (show 0 ≤ dm.totalLIDs by
    have : (0 : Int) < 2 ^ w := by exact_mod_cast positive
    omega)
  have enough : 2 ^ w ≤ total := by
    rw [count] at more
    exact_mod_cast not_lt.mp more
  -- when all values but zero are taken, no draw ends the loop
  obtain ⟨rand, LIDs, done⟩ :=
    exists_calculateLIDs (show 2 ^ w - 1 ≤ total by omega) (show 2 ^ w - 1 < 2 ^ w by omega)
  obtain ⟨list, hf⟩ := calculateLIDs_filled (by omega) (by omega) done
  obtain ⟨numbers, bits, low, after, last⟩ := assigns.ends (2 ^ w - 1) rand LIDs []
    (by rw [count]; exact_mod_cast (show 2 ^ w - 1 < total by omega)) (by rw [count]; exact done)
  obtain ⟨first, hm⟩ := exists_mem_of_length_pos (show 0 < numbers.length by
    rw [bits]
    exact Nat.succ_pos _)
  obtain ⟨list', full⟩ := hf.step (by omega) (Nat.zero_lt_of_lt (low first hm)) last
  have := full.count_lt
  omega

/-- The identifiers are right exactly if as many are drawn as are given out, and there are as many
values. -/
theorem assigns_iff : Assigns dm ↔
    (needed dm.macMl dm.networkNodes : Int) ≤ dm.totalLIDs ∧ dm.totalLIDs < 2 ^ w := by
  by_cases negative : dm.totalLIDs < 0
  · have fails : assignLIDs dm [] = .error .badSize := by rw [assignLIDs, if_pos negative]
    apply iff_of_false
    · intro assigns
      cases assigns.sound _ _ fails
    · omega
  by_cases few : dm.totalLIDs < 2 ^ w
  case neg => exact iff_of_false (fun assigns => few assigns.small) fun both => few both.2
  obtain ⟨total, count⟩ := eq_ofNat_of_zero_le (not_lt.mp negative)
  have small : total < 2 ^ w := by
    rw [count] at few
    exact_mod_cast few
  rw [and_iff_left few]
  have split : ∀ rand, assignLIDs dm rand =
      calculateLIDs (List.replicate total none) rand total >>= fun drawn =>
        giveLIDs dm drawn.1 := by
    intro rand
    rw [assignLIDs, count]
    rfl
  rw [count, ofNat_le]
  constructor
  · intro assigns
    by_contra more
    obtain ⟨rand, LIDs, done⟩ := exists_calculateLIDs (le_refl total) small
    obtain ⟨list, hf⟩ := calculateLIDs_filled (le_refl total) small done
    have fails : assignLIDs dm rand = .error .outOfRange := by
      rw [split, done]
      exact hf.giveLIDs_error (Nat.lt_of_not_le more)
    cases assigns.sound _ _ fails
  · intro he
    constructor
    · intro rand after done
      rw [split] at done
      obtain ⟨⟨LIDs, rest⟩, first, last⟩ := bind_ok_iff.mp done
      obtain ⟨list, hf⟩ := calculateLIDs_filled (le_refl total) small first
      obtain ⟨given, hs, hu⟩ := hf.giveLIDs_ok he
      cases hs.symm.trans last
      exact hu
    · intro rand failure done
      rw [split] at done
      rcases except_bind_eq_error.mp done with early | ⟨⟨LIDs, rest⟩, first, last⟩
      · exact calculateLIDs_error early
      · obtain ⟨list, hf⟩ := calculateLIDs_filled (le_refl total) small first
        obtain ⟨given, hs, _⟩ := hf.giveLIDs_ok he
        cases hs.symm.trans last
    · intro idx rand LIDs rest hi done
      rw [count] at hi done
      have less : idx < total := by exact_mod_cast hi
      obtain ⟨list, hf⟩ := calculateLIDs_filled (le_of_lt less) (by omega) done
      obtain ⟨numbers, bits, low, new⟩ :=
        hf.exists_new (width_pos (show idx + 1 < 2 ^ w by omega)) (by omega)
      exact ⟨numbers, bits, low, _, calculateLID_new bits new⟩

theorem needed_eq (macMl : Bool) (nodes : List (Node w)) : needed macMl nodes =
    nodes.countP (Node.needs macMl) +
      (nodes.map fun nn => nn.connections.countP (needs macMl)).sum := by
  induction nodes with
  | nil => rfl
  | cons nn later ih =>
    rw [needed] at ih ⊢
    rw [map_cons, sum_cons, map_cons, sum_cons, countP_cons, Node.needed]
    omega

/-- How many identifiers the counters of the parser ask for. -/
def Domain.counted (dm : Domain w) : Nat :=
  if dm.macMl then dm.numberOfPlNodes + dm.numberOfPConnections
  else dm.numberOfNodes + dm.numberOfConnections

theorem bmod_int (n : Nat) : bmod n (2 ^ 32) ≤ n ∧ (n < 2 ^ 31 → bmod n (2 ^ 32) = n) := by
  rw [bmod_def]
  split <;> omega

theorem totalLIDs_eq (dm : Domain w) : dm.totalLIDs = bmod dm.counted (2 ^ 32) := by
  rw [totalLIDs, counted]
  cases dm.macMl with
  | true => rfl
  | false => rfl

theorem sum_countP_le (nodes : List (Node w)) :
    (nodes.map fun nn => nn.connections.countP isPp).sum ≤
      (nodes.map fun nn => nn.connections.length).sum :=
  sum_le_sum fun _ _ => countP_le_length

section

variable {config : Config} (built : buildNetworkDomain w config = some dm)

include built

theorem counted_le : dm.counted ≤ dm.size := by
  obtain ⟨read, _, nodes, plNodes⟩ := buildNetworkDomain_read built
  have conns := read.connections
  have pkt := read.packet
  have fewer := sum_countP_le dm.networkNodes
  rw [length_nil] at conns
  rw [countP_nil] at pkt
  rw [Domain.counted, Domain.size]
  cases case : dm.macMl with
  | false =>
    rw [if_neg Bool.false_ne_true]
    omega
  | true =>
    have fewerNodes := plNodes (of_decide_eq_true case)
    rw [if_pos rfl]
    omega

/-- The counters fall short only of the nodes that have the type without being in the list. -/
theorem needed_le_counted : needed dm.macMl dm.networkNodes ≤ dm.counted ↔
    (dm.macMl = true → dm.networkNodes.countP Node.isPn ≤ dm.numberOfPlNodes) := by
  obtain ⟨read, _, nodes, _⟩ := buildNetworkDomain_read built
  have conns := read.connections
  have pkt := read.packet
  rw [countP_nil] at pkt
  rw [needed_eq, counted]
  cases case : dm.macMl with
  | false =>
    have allNodes : dm.networkNodes.countP (Node.needs false) = dm.networkNodes.length :=
      countP_eq_length.mpr fun _ _ => rfl
    have all : ∀ nn : Node w, nn.connections.countP (needs false) =
        nn.connections.length := fun nn => countP_eq_length.mpr fun _ _ => rfl
    simp only [all, Bool.false_eq_true, if_false, false_imp_iff, iff_true]
    omega
  | true =>
    have nodesSame : Node.needs (w := w) true = Node.isPn := rfl
    have hs : needs (w := w) true = isPp := rfl
    rw [if_pos rfl, nodesSame, hs]
    simp only [forall_true_left]
    omega

end

/-- The identifiers are unique exactly if the counters ask for as many as are given out and there
are as many values. In a domain of the parser that `int` can count this fails only for nodes of type
`PN` outside the list of the packet layer. -/
theorem identifiers_unique_iff (fidLen : Nat) (dm : Domain (fidLen * 8)) :
    (Assigns dm ↔ (needed dm.macMl dm.networkNodes : Int) ≤ dm.totalLIDs ∧
      dm.totalLIDs < 2 ^ (fidLen * 8)) ∧
    ∀ config, buildNetworkDomain (fidLen * 8) config = some dm → dm.size < 2 ^ (fidLen * 8) →
      dm.size < 2 ^ 31 → (Assigns dm ↔
        (dm.macMl = true → dm.networkNodes.countP Node.isPn ≤ dm.numberOfPlNodes)) := by
  refine ⟨assigns_iff, fun config built few small => ?_⟩
  have counted := counted_le built
  have hb : (dm.size : Int) < 2 ^ (fidLen * 8) := by exact_mod_cast few
  rw [assigns_iff, totalLIDs_eq, (bmod_int dm.counted).2 (by omega), ofNat_le,
    and_iff_left (by omega)]
  exact needed_le_counted built

/-- Two nodes of the packet layer with a connection to each other, and one of the optical layer. -/
def threeNodes : Config :=
  let link : ConnectionSetting :=
    ⟨true, some ['i'], none, none, some ['j'], none, none, none, none⟩
  let node : NodeSetting := ⟨true, true, some ['P', 'N'], some [link]⟩
  { overlayMode := .macMl
    nodes := none
    olNodes := some [⟨true, true, some ['O', 'N'], none⟩]
    plNodes := some [node, node] }

theorem identifiers_unique_iff_threeNodes : ∃ dm, buildNetworkDomain (1 * 8) threeNodes = some dm ∧
      needed dm.macMl dm.networkNodes = 4 ∧ Assigns dm :=
  ⟨_, rfl, rfl, ((identifiers_unique_iff 1 _).2 threeNodes rfl (by decide) (by decide)).mpr
    fun _ => by decide⟩

/-- A node of type `PN` in the optical layer gets what is behind the end of the vector. -/
theorem node_behind_identifiers : let node : NodeSetting := ⟨true, true, some ['P', 'N'], none⟩
    ∃ dm, buildNetworkDomain (1 * 8) ⟨.macMl, none, some [node], some []⟩ = some dm ∧
      dm.size < 2 ^ (1 * 8) ∧ ∀ rand, assignLIDs dm rand = .error .outOfRange :=
  ⟨_, rfl, by decide, fun _ => rfl⟩

end

end Blackadder.Deployment
