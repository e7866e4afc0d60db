import Blackadder.Ltp.Buffers

/-!
The NACKs of the nodes of a group are collected until all nodes have answered, as one range of
fragments for all of them.
-/

namespace Blackadder.Ltp

open List

open Std (TreeMap)
open NestedMap

structure NackGroup where
  nodeIds : List Nid
  startSequence : Seq
  endSequence : Seq
deriving DecidableEq

/-- A NACK with the node that sent it. -/
structure Nack where
  nid : Nid
  start : Seq
  finish : Seq
deriving DecidableEq

abbrev NackGroups : Type := PerSession NackGroup

/-- One more NACK for a group that is there. -/
def NackGroup.merge (nack : Nack) (group : NackGroup) : NackGroup where
  nodeIds := if group.nodeIds.contains nack.nid then group.nodeIds else group.nodeIds ++ [nack.nid]
  startSequence := if nack.start < group.startSequence then nack.start else group.startSequence
  endSequence := if nack.finish > group.endSequence then nack.finish else group.endSequence

namespace NackGroups

/-- Under a known enigma `endSequence` is what happens to be in memory. -/
def addNackNodeId (stale : Seq) (channel : Channel) (nack : Nack) (groups : NackGroups) :
    NackGroups :=
  let nackGroup : NackGroup := ⟨[nack.nid], nack.start, nack.finish⟩
  let skMap := single channel.sessionKey nackGroup
  let enigmaMap := single channel.enigma skMap
  within channel.rCid enigmaMap
    (within channel.enigma skMap
      (within channel.sessionKey ⟨[nack.nid], nack.start, stale⟩ (NackGroup.merge nack))) groups

def deleteNackGroup (channel : Channel) (groups : NackGroups) : NackGroups := groups.remove channel

/-- There are groups under the rCID and the enigma. -/
def knows (groups : NackGroups) (channel : Channel) : Bool :=
  (groups[channel.rCid]?.bind fun enigmaMap => enigmaMap[channel.enigma]?).isSome

theorem entry_addNackNodeId (stale : Seq) (chan other : Channel) (nack : Nack)
    (groups : NackGroups) : (groups.addNackNodeId stale chan nack).entry other =
      if other = chan then some ((groups.entry chan).elim
          ⟨[nack.nid], nack.start, cond (groups.knows chan) stale nack.finish⟩
          (NackGroup.merge nack)) else groups.entry other := by
  simp only [addNackNodeId, PerSession.entry, knows, Channel.eq_iff, getElem?_within]
  by_cases sameCid : other.rCid = chan.rCid
  · rw [sameCid]
    cases groups[chan.rCid]? with
    | none =>
      by_cases sameEnigma : other.enigma = chan.enigma
      · by_cases sameKey : other.sessionKey = chan.sessionKey
        · simp [sameEnigma, getElem?_single]
        · simp [sameEnigma, getElem?_single]
      · simp [sameEnigma, getElem?_single]
    | some enigmaMap =>
      by_cases sameEnigma : other.enigma = chan.enigma
      · cases hf : enigmaMap[chan.enigma]? with
        | none =>
          by_cases sameKey : other.sessionKey = chan.sessionKey
          · simp [sameEnigma, getElem?_within, getElem?_single, hf]
          · simp [sameEnigma, getElem?_within, getElem?_single, hf]
        | some skMap =>
          by_cases sameKey : other.sessionKey = chan.sessionKey
          · cases ht : skMap[chan.sessionKey]? with
            | none | some group => simp [sameEnigma, getElem?_within, hf, ht]
          · simp [sameEnigma, sameKey, getElem?_within, hf]
      · simp [sameEnigma, getElem?_within]
  · simp [sameCid]

end NackGroups

/-- The node list, the lowest start and the highest end of some NACKs. -/
structure Hull (nacks : List Nack) (group : NackGroup) : Prop where
  distinct : group.nodeIds.Nodup
  senders : ∀ nid, nid ∈ group.nodeIds ↔ ∃ nack ∈ nacks, nack.nid = nid
  lowest : ∃ nack ∈ nacks, nack.start = group.startSequence
  low : ∀ nack ∈ nacks, group.startSequence ≤ nack.start
  highest : ∃ nack ∈ nacks, nack.finish = group.endSequence
  high : ∀ nack ∈ nacks, nack.finish ≤ group.endSequence

theorem hull_single (nack : Nack) : Hull [nack] ⟨[nack.nid], nack.start, nack.finish⟩ where
  distinct := nodup_cons.mpr ⟨not_mem_nil, nodup_nil⟩
  senders nid := by simp [eq_comm]
  lowest := ⟨nack, mem_singleton_self nack, rfl⟩
  low other hm := by
    rw [mem_singleton.mp hm]
    exact UInt16.le_refl _
  highest := ⟨nack, mem_singleton_self nack, rfl⟩
  high other hm := by
    rw [mem_singleton.mp hm]
    exact UInt16.le_refl _

theorem Hull.endSequence_single {nack : Nack} {group : NackGroup} (hull : Hull [nack] group) :
    group.endSequence = nack.finish := by
  obtain ⟨other, hm, hs⟩ := hull.highest
  rw [← hs, mem_singleton.mp hm]

section

variable {nacks : List Nack} {group : NackGroup} {nack : Nack}

theorem merge_startSequence_le : (group.merge nack).startSequence ≤ group.startSequence ∧
    (group.merge nack).startSequence ≤ nack.start := by
  unfold NackGroup.merge
  dsimp only
  split
  · rename_i less
    exact ⟨UInt16.le_of_lt less, UInt16.le_refl _⟩
  · rename_i less
    exact ⟨UInt16.le_refl _, UInt16.not_lt.mp less⟩

theorem le_merge_endSequence : group.endSequence ≤ (group.merge nack).endSequence ∧
    nack.finish ≤ (group.merge nack).endSequence := by
  unfold NackGroup.merge
  dsimp only
  split
  · rename_i more
    exact ⟨UInt16.le_of_lt more, UInt16.le_refl _⟩
  · rename_i more
    exact ⟨UInt16.le_refl _, UInt16.not_lt.mp more⟩

theorem mem_merge_nodeIds {nid : Nid} :
    nid ∈ (group.merge nack).nodeIds ↔ nid ∈ group.nodeIds ∨ nid = nack.nid := by
  unfold NackGroup.merge
  split
  · rename_i hk
    rw [contains_iff_mem] at hk
    constructor
    · exact .inl
    · rintro (before | rfl)
      · exact before
      · exact hk
  · rw [mem_append, mem_singleton]

theorem Hull.merge (hull : Hull nacks group) : Hull (nacks ++ [nack]) (group.merge nack) where
  distinct := by
    unfold NackGroup.merge
    split
    · exact hull.distinct
    rename_i unknown
    rw [contains_iff_mem] at unknown
    refine nodup_append.mpr ⟨hull.distinct, nodup_cons.mpr ⟨not_mem_nil, nodup_nil⟩, ?_⟩
    intro nid before other last hs
    rw [← mem_singleton.mp last, ← hs] at unknown
    exact unknown before
  senders nid := by
    rw [mem_merge_nodeIds, hull.senders]
    simp [eq_comm (a := nid)]
  lowest := by
    unfold NackGroup.merge
    dsimp only
    split
    · exact ⟨nack, mem_append_right _ (mem_singleton_self nack), rfl⟩
    · obtain ⟨other, hm, hs⟩ := hull.lowest
      exact ⟨other, mem_append_left _ hm, hs⟩
  low other hm := by
    rcases mem_append.mp hm with before | last
    · exact UInt16.le_trans merge_startSequence_le.1 (hull.low other before)
    · rw [mem_singleton.mp last]
      exact merge_startSequence_le.2
  highest := by
    unfold NackGroup.merge
    dsimp only
    split
    · exact ⟨nack, mem_append_right _ (mem_singleton_self nack), rfl⟩
    · obtain ⟨other, hm, hs⟩ := hull.highest
      exact ⟨other, mem_append_left _ hm, hs⟩
  high other hm := by
    rcases mem_append.mp hm with before | last
    · exact UInt16.le_trans (hull.high other before) le_merge_endSequence.1
    · rw [mem_singleton.mp last]
      exact le_merge_endSequence.2

/-- What the group asks for goes to every node with a NACK and holds every fragment of it. -/
theorem Hull.republished (hull : Hull nacks group) {pkts : Packets} (zero : pkts[(0 : Seq)]? = none)
    (hp : ∀ key : Seq, group.startSequence ≤ key → key ≤ group.endSequence → pkts[key]? ≠ none) :
    ∃ range, pkts.range group.startSequence group.endSequence = some range ∧
      ∀ nack ∈ nacks, nack.nid ∈ group.nodeIds ∧ ∀ key : Seq, nack.start ≤ key →
        key ≤ nack.finish → ∃ pkt ∈ range, pkts[key]? = some pkt := by
  obtain ⟨range, published, members⟩ := Packets.range_spec zero hp
  refine ⟨range, published, fun nack hm => ⟨(hull.senders _).mpr ⟨nack, hm, rfl⟩, ?_⟩⟩
  intro key low high
  have ha := UInt16.le_trans (hull.low nack hm) low
  have hb := UInt16.le_trans high (hull.high nack hm)
  obtain ⟨pkt, hs⟩ := Option.ne_none_iff_exists'.mp (hp key ha hb)
  exact ⟨pkt, (members pkt).mpr ⟨key, ha, hb, hs⟩, hs⟩

/-- Node 7 lacks the first fragment and node 8 the second and the third. -/
theorem two_nacks_republished :
    let pkts : Packets := ((single 1 [5]).insert 2 [6]).insert 3 [7]
    ∃ range, pkts.range 1 3 = some range ∧ (∃ pkt ∈ range, pkts[(1 : Seq)]? = some pkt) ∧
      ∃ pkt ∈ range, pkts[(3 : Seq)]? = some pkt := by
  intro pkts
  have hp : ∀ key : Seq, 1 ≤ key → key ≤ 3 → pkts[key]? ≠ none := by
    intro key low high
    have few : key = 1 ∨ key = 2 ∨ key = 3 := by grind
    rcases few with rfl | rfl | rfl
    · decide
    · decide
    · decide
  have hull : Hull [⟨7, 1, 1⟩, ⟨8, 2, 3⟩] (NackGroup.merge ⟨8, 2, 3⟩ ⟨[7], 1, 1⟩) :=
    (hull_single ⟨7, 1, 1⟩).merge
  obtain ⟨range, published, each⟩ := hull.republished (by decide) hp
  exact ⟨range, published, (each ⟨7, 1, 1⟩ mem_cons_self).2 1 (by decide) (by decide),
    (each ⟨8, 2, 3⟩ (by simp)).2 3 (by decide) (by decide)⟩

end

/-- A NACK for a session, with what is in memory, or the end of its group. -/
inductive NackEvent
  | asked (channel : Channel) (nack : Nack) (stale : Seq)
  | deleted (channel : Channel)

namespace NackEvent

def apply (groups : NackGroups) : NackEvent → NackGroups
  | .asked channel nack stale => groups.addNackNodeId stale channel nack
  | .deleted channel => groups.deleteNackGroup channel

/-- The NACKs for a session since its group was deleted. -/
def collect (channel : Channel) (nacks : List Nack) : NackEvent → List Nack
  | .asked other nack _ => if other = channel then nacks ++ [nack] else nacks
  | .deleted other => if other = channel then [] else nacks

end NackEvent

variable (events : List NackEvent)

def nackGroupsAfter : NackGroups := events.foldl NackEvent.apply ∅

def nacksSince (channel : Channel) : List Nack :=
  events.foldl (NackEvent.collect channel) []

/-- Every group is the hull of the NACKs for its session. -/
def Collected : Prop :=
  ∀ channel, ((nackGroupsAfter events).entry channel).elim (nacksSince events channel = [])
    (Hull (nacksSince events channel))

/-- A group that is created under a known enigma finds the end of the NACK in memory. -/
def NackEvent.Lucky (groups : NackGroups) : NackEvent → Prop
  | .asked channel nack stale =>
    groups.entry channel = none → groups.knows channel → stale = nack.finish
  | .deleted _ => True

section

variable {events : List NackEvent} {event : NackEvent}

theorem nackGroupsAfter_append :
    nackGroupsAfter (events ++ [event]) = event.apply (nackGroupsAfter events) := by
  rw [nackGroupsAfter, foldl_append]
  rfl

theorem nacksSince_append (chan : Channel) :
    nacksSince (events ++ [event]) chan = event.collect chan (nacksSince events chan) := by
  rw [nacksSince, foldl_append]
  rfl

open NackEvent

/-- One event keeps all groups hulls if it is a lucky one, and otherwise does not. -/
theorem Collected.append_iff (collected : Collected events) :
    Collected (events ++ [event]) ↔ event.Lucky (nackGroupsAfter events) := by
  unfold Collected
  simp only [nackGroupsAfter_append, nacksSince_append]
  cases event with
  | deleted chan =>
    refine iff_of_true (fun other => ?_) trivial
    rw [apply, NackGroups.deleteNackGroup, PerSession.entry_remove, collect]
    by_cases hs : other = chan
    · rw [if_pos hs, if_pos hs.symm]
      rfl
    · rw [if_neg hs, if_neg (Ne.symm hs)]
      exact collected other
  | asked chan nack stale =>
    simp only [apply, NackGroups.entry_addNackNodeId, collect]
    have here := collected chan
    constructor
    · intro all free hk
      specialize all chan
      rw [free] at here
      rw [if_pos rfl, if_pos rfl, free, hk, here] at all
      exact all.endSequence_single
    · intro lucky other
      by_cases hs : other = chan
      · subst hs
        rw [if_pos rfl, if_pos rfl]
        cases hf : (nackGroupsAfter events).entry other with
        | some group =>
          rw [hf] at here
          exact here.merge
        | none =>
          rw [hf] at here
          have last : cond ((nackGroupsAfter events).knows other) stale nack.finish =
              nack.finish := by
            cases hk : (nackGroupsAfter events).knows other with
            | true => exact lucky hf hk
            | false => rfl
          rw [here]
          simp only [last]
          exact hull_single nack
      · rw [if_neg hs, if_neg (Ne.symm hs)]
        exact collected other

/-- NACK groups are the hulls of their NACKs exactly if every group that is created while there are
others under its rCID and enigma finds its end in memory. -/
theorem nack_groups_collect_iff (events : List NackEvent) :
    (∀ n, n ≤ events.length → Collected (events.take n)) ↔
      ∀ (n : Nat) (event : NackEvent), events[n]? = some event →
        event.Lucky (nackGroupsAfter (events.take n)) := by
  have step : ∀ (n : Nat) (event : NackEvent), events[n]? = some event →
      events.take (n + 1) = events.take n ++ [event] := by
    intro n event hf
    rw [take_add_one, hf]
    rfl
  constructor
  · intro all n event hf
    have hi := (List.getElem?_eq_some_iff.mp hf).1
    have next := all (n + 1) hi
    rw [step n event hf] at next
    exact (all n (Nat.le_of_lt hi)).append_iff.mp next
  · intro lucky n hb
    induction n with
    | zero => exact fun _ => rfl
    | succ n ih =>
      have hf := List.getElem?_eq_getElem hb
      rw [step n _ hf]
      exact (ih (Nat.le_of_lt hb)).append_iff.mpr (lucky n _ hf)

/-- Under a second session key, node 8 asks for the fragments 2 to 5, and none is published. -/
theorem nack_group_without_end :
    let events : List NackEvent := [.asked ⟨1, 2, 3⟩ ⟨7, 1, 1⟩ 0, .asked ⟨1, 2, 4⟩ ⟨8, 2, 5⟩ 0]
    (nackGroupsAfter events).entry ⟨1, 2, 4⟩ = some ⟨[8], 2, 0⟩ ∧
      nacksSince events ⟨1, 2, 4⟩ = [⟨8, 2, 5⟩] ∧ ¬ Collected events ∧
      ∀ pkts : Packets, pkts.range 2 0 = some [] := by
  refine ⟨rfl, rfl, ?_, fun _ => rfl⟩
  intro collected
  have hull : Hull [⟨8, 2, 5⟩] ⟨[8], 2, 0⟩ := collected ⟨1, 2, 4⟩
  exact absurd hull.endSequence_single (by decide)

end

end Blackadder.Ltp
