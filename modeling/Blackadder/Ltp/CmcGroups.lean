import Blackadder.Library.Sweep
import Blackadder.Ltp.Buffers

namespace Blackadder.Ltp

open Std (TreeMap)
open NestedMap Option Sweep.Visitor PerSession

abbrev PotentialCmcGroups : Type := TreeMap Cid (TreeMap Enigma (TreeMap Nid Bool))

abbrev CmcGroups : Type := PerSession (List Nid)

theorem look_of_isEmpty {κ ι υ : Type} [Ord κ] [Std.TransOrd κ] [Ord ι] (key : κ) (inner : ι)
    (map : TreeMap κ (TreeMap ι υ)) (isEmpty : map.isEmpty) :
    (map[key]?.bind (·[inner]?)) = none := by
  rw [TreeMap.getElem?_of_isEmpty isEmpty]
  rfl

namespace PotentialCmcGroups

variable (rCid : Cid) (enigma : Enigma) (nid : Nid) (groups : PotentialCmcGroups)

/-- The end of `_handleData` for data from a cNAP. -/
def addNid :
    PotentialCmcGroups :=
  let nodeIdMap := single nid false
  let enigmaMap := single enigma nodeIdMap
  within rCid enigmaMap (within enigma nodeIdMap (within nid false id)) groups

def enableNIdInCmcGroup :
    PotentialCmcGroups :=
  adjust rCid (adjust enigma (adjust nid fun _ => true)) groups

/-- A node in one potential group. -/
def removal : Sweep.Visitor Enigma (TreeMap Nid Bool) Unit where
  visit _ nodeIdMap :=
    (if nodeIdMap.contains nid then nodeIdMap.erase nid else nodeIdMap, [])
  isEmpty nodeIdMap := nodeIdMap.isEmpty

/-- The first part of `_removeNidFromCmcGroups`. -/
def removeNid : PotentialCmcGroups :=
  match groups[rCid]? with
  | none => groups
  | some enigmaMap =>
    let rest := ((removal nid).sweep enigmaMap).1
    if rest.isEmpty then groups.erase rCid else groups.insert rCid rest

/-- The flag that is found under all three keys. -/
def flag (rCid : Cid) (enigma : Enigma)
    (nid : Nid) : Option Bool := do
  let enigmaMap ← groups[rCid]?
  let nodeIdMap ← enigmaMap[enigma]?
  nodeIdMap[nid]?

section

variable (groups : PotentialCmcGroups) {rCid rCid' : Cid} {enigma enigma' : Enigma} {nid nid' : Nid}

theorem flag_addNid : (groups.addNid rCid enigma nid).flag rCid' enigma' nid' =
    if rCid' = rCid ∧ enigma' = enigma ∧ nid' = nid then
      some ((groups.flag rCid' enigma' nid').elim false id) else groups.flag rCid' enigma' nid' :=
  (((puts_within nid nid' false id).level enigma enigma').level rCid rCid').old groups

theorem flag_enableNIdInCmcGroup :
    (groups.enableNIdInCmcGroup rCid enigma nid).flag rCid' enigma' nid' =
      if rCid' = rCid ∧ enigma' = enigma ∧ nid' = nid then
        (groups.flag rCid' enigma' nid').map fun _ => true else groups.flag rCid' enigma' nid' :=
  (((changes_adjust nid nid' fun _ => true).level enigma enigma').level rCid rCid').seen groups

theorem settles_removal (nid : Nid) (entry : Enigma × TreeMap Nid Bool) :
    (removal nid).Settles entry := by
  unfold Sweep.Visitor.Settles removal
  dsimp only
  split
  · rw [if_neg (by simp)]
  · rfl

theorem getElem?_removeNid : (groups.removeNid rCid nid)[rCid']? =
    if rCid' = rCid then groups[rCid]?.bind fun enigmaMap =>
      let rest := ((removal nid).sweep enigmaMap).1
      if rest.isEmpty then none else some rest
    else groups[rCid']? := by
  rw [← getElem?_replaceAt groups rCid rCid' fun enigmaMap => ((removal nid).sweep enigmaMap).1]
  unfold removeNid
  cases groups[rCid]? with
  | none => rfl
  | some => rfl

/-- The node leaves the potential groups of the rCID, and no other flag changes. -/
theorem flag_removeNid : (groups.removeNid rCid nid).flag rCid' enigma' nid' =
    if rCid' = rCid ∧ nid' = nid then none else groups.flag rCid' enigma' nid' := by
  simp only [flag, getElem?_removeNid, bind_eq_bind]
  by_cases hs : rCid' = rCid
  · subst hs
    cases groups[rCid']? with
    | none => simp
    | some enigmaMap =>
      simp only [bind_some, true_and]
      refine (bind_unless (look_of_isEmpty enigma' nid') _).trans ?_
      rw [bind_sweep (fun nodeIdMap => TreeMap.getElem?_of_isEmpty)
        fun entry _ => settles_removal nid entry]
      cases enigmaMap[enigma']? with
      | none => simp
      | some nodeIdMap =>
        simp only [bind_some, removal]
        split
        · exact getElem?_erase
        rename_i ha
        split
        · rename_i here
          rw [here]
          exact TreeMap.getElem?_eq_none fun hm => ha (TreeMap.contains_iff_mem.mpr hm)
        · rfl
  · simp [hs]

end

end PotentialCmcGroups

variable {skMap : TreeMap SessionKey (List Nid)} {enigma : Enigma}

namespace CmcGroups

/-- A node in the group of one session key. -/
def removal (nid : Nid) (enigma : Enigma) :
    Sweep.Visitor SessionKey (List Nid) (Enigma × SessionKey) where
  visit sessionKey nodeIds :=
    (nodeIds.erase nid, if nodeIds.contains nid then [(enigma, sessionKey)] else [])
  isEmpty nodeIds := nodeIds.isEmpty

def removalAll (nid : Nid) :
    Sweep.Visitor Enigma (TreeMap SessionKey (List Nid)) (Enigma × SessionKey) where
  visit enigma skMap := (removal nid enigma).sweep skMap
  isEmpty skMap := skMap.isEmpty

/-- The second part of `_removeNidFromCmcGroups`, with the sessions whose group the node was in. -/
def removeNid (rCid : Cid) (nid : Nid) (groups : CmcGroups) :
    CmcGroups × List (Enigma × SessionKey) :=
  match groups[rCid]? with
  | none => (groups, [])
  | some enigmaMap =>
    let swept := (removalAll nid).sweep enigmaMap
    (if swept.1.isEmpty then groups.erase rCid else groups.insert rCid swept.1, swept.2)

/-- `_removeNidsFromCmcGroup`: nodes that do not answer leave one group, which may then be empty. -/
def removeNids (channel : Channel) (nids : List Nid) (groups : CmcGroups) : CmcGroups :=
  groups.modify channel fun nodeIds => nids.foldl List.erase nodeIds

def cmcGroupEmpty (groups : CmcGroups) (channel : Channel) : Bool :=
  ((groups.entry channel).getD []).isEmpty

section

variable {groups : CmcGroups} {rCid : Cid} {nid : Nid} {rest : List Nid} {channel : Channel}

theorem settles_removal {entry : SessionKey × List Nid} (nodup : entry.2.Nodup) (enigma : Enigma) :
    (removal nid enigma).Settles entry := by
  have hg : nid ∉ entry.2.erase nid := nodup.not_mem_erase
  simp [Sweep.Visitor.Settles, removal, hg]

/-- The groups have no node twice. -/
def Distinct (groups : CmcGroups) : Prop :=
  ∀ channel nodeIds, groups.entry channel = some nodeIds → nodeIds.Nodup

section

variable {enigmaMap : TreeMap Enigma (TreeMap SessionKey (List Nid))} (hd : groups.Distinct)
  (hk : groups[rCid]? = some enigmaMap)

include hd hk

theorem Distinct.settles (ht : enigmaMap[enigma]? = some skMap) :
    ∀ entry ∈ skMap.toList, (removal nid enigma).Settles entry := by
  rintro ⟨key, nids⟩ hm
  refine settles_removal (hd ⟨rCid, enigma, key⟩ nids ?_) enigma
  simp [entry, hk, ht, TreeMap.mem_toList_iff_getElem?_eq_some.mp hm]

theorem Distinct.settles_all : ∀ entry ∈ enigmaMap.toList, (removalAll nid).Settles entry := by
  rintro ⟨enigma, skMap⟩ hm
  exact sweep_sweep (hd.settles hk (TreeMap.mem_toList_iff_getElem?_eq_some.mp hm))

end

theorem getElem?_removeNid {other : Cid} : (groups.removeNid rCid nid).1[other]? =
    if other = rCid then groups[rCid]?.bind fun enigmaMap =>
      let rest := ((removalAll nid).sweep enigmaMap).1
      if rest.isEmpty then none else some rest
    else groups[other]? := by
  rw [← getElem?_replaceAt groups rCid other fun enigmaMap => ((removalAll nid).sweep enigmaMap).1]
  unfold removeNid
  cases groups[rCid]? with
  | none => rfl
  | some => rfl

/-- The node leaves the groups of the rCID, and nobody else does. -/
theorem entry_removeNid (hd : groups.Distinct) :
    (groups.removeNid rCid nid).1.entry channel = if channel.rCid = rCid then
      (groups.entry channel).bind fun nids =>
        if (nids.erase nid).isEmpty then none else some (nids.erase nid)
    else groups.entry channel := by
  simp only [entry, getElem?_removeNid, bind_eq_bind]
  by_cases hs : channel.rCid = rCid
  · simp only [hs]
    cases hk : groups[rCid]? with
    | none => rfl
    | some enigmaMap =>
      simp only [bind_some]
      refine (bind_unless (look_of_isEmpty channel.enigma channel.sessionKey) _).trans ?_
      rw [bind_sweep (fun skMap => TreeMap.getElem?_of_isEmpty) (hd.settles_all hk)]
      cases ht : enigmaMap[channel.enigma]? with
      | none => rfl
      | some skMap => exact getElem?_sweep (hd.settles hk ht) _
  · simp [hs]

theorem of_removeNid (hd : groups.Distinct)
    (hf : (groups.removeNid rCid nid).1.entry channel = some rest) :
    ∃ nodeIds, groups.entry channel = some nodeIds ∧
      rest = if channel.rCid = rCid then nodeIds.erase nid else nodeIds := by
  rw [entry_removeNid hd] at hf
  by_cases hs : channel.rCid = rCid
  · rw [if_pos hs] at hf
    obtain ⟨nodeIds, ht, kept⟩ := bind_eq_some_iff.mp hf
    obtain rfl := some.inj (ite_none_left_eq_some.mp kept).2
    exact ⟨nodeIds, ht, (if_pos hs).symm⟩
  · rw [if_neg hs] at hf
    exact ⟨rest, hf, (if_neg hs).symm⟩

theorem entry_removeNids {other : Channel} {nids : List Nid}
    (hf : (groups.removeNids channel nids).entry other = some rest) :
    ∃ nodeIds, groups.entry other = some nodeIds ∧ rest.Sublist nodeIds := by
  have erases : ∀ nodeIds : List Nid, (nids.foldl List.erase nodeIds).Sublist nodeIds := by
    clear hf
    induction nids with
    | nil => exact fun nodeIds => List.Sublist.refl _
    | cons nid later ih =>
      intro nodeIds
      exact (ih _).trans List.erase_sublist
  rw [removeNids, entry_modify] at hf
  split at hf
  · obtain ⟨nodeIds, ht, rfl⟩ := map_eq_some_iff.mp hf
    exact ⟨nodeIds, ht, erases nodeIds⟩
  · exact ⟨rest, hf, List.Sublist.refl _⟩

end

end CmcGroups

open List CmcGroups

/-- The groups of both kinds, and the sessions that `_removeNidFromCmcGroups` puts out. -/
structure Removal where
  potential : PotentialCmcGroups
  locked : CmcGroups
  enigmaSkPairs : List (Enigma × SessionKey)

def removeNidFromCmcGroups (rCid : Cid) (nid : Nid) (potential : PotentialCmcGroups)
    (locked : CmcGroups) : Removal :=
  let removed := locked.removeNid rCid nid
  ⟨potential.removeNid rCid nid, removed.1, removed.2⟩

def CmcGroups.Member (groups : CmcGroups) (channel : Channel) (nid : Nid) : Prop :=
  ∃ nodeIds, groups.entry channel = some nodeIds ∧ nid ∈ nodeIds

/-- A map with entries, all of whose values are as they should be. -/
def Full {κ υ : Type} [Ord κ] (full : υ → Prop) (map : TreeMap κ υ) : Prop :=
  map.isEmpty = false ∧ ∀ (key : κ) value, map[key]? = some value → full value

/-- One node is out of the groups of one rCID, and all else is as it was. -/
structure Removal.Exact (rCid : Cid) (nid : Nid) (potential : PotentialCmcGroups)
    (locked : CmcGroups) (after : Removal) : Prop where
  flag : ∀ other enigma node, after.potential.flag other enigma node =
    if other = rCid ∧ node = nid then none else potential.flag other enigma node
  member : ∀ channel node, after.locked.Member channel node ↔
    locked.Member channel node ∧ ¬ (channel.rCid = rCid ∧ node = nid)
  other : ∀ other ≠ rCid,
    after.potential[other]? = potential[other]? ∧ after.locked[other]? = locked[other]?
  potential_full : ∀ enigmaMap, after.potential[rCid]? = some enigmaMap →
    Full (Full fun _ => True) enigmaMap
  locked_full : ∀ enigmaMap, after.locked[rCid]? = some enigmaMap →
    Full (Full (· ≠ [])) enigmaMap
  once : after.enigmaSkPairs.Nodup
  pairs : ∀ enigma sessionKey, (enigma, sessionKey) ∈ after.enigmaSkPairs ↔
    locked.Member ⟨rCid, enigma, sessionKey⟩ nid

variable {potential : PotentialCmcGroups} {locked : CmcGroups} {rCid : Cid} {nid : Nid}

theorem PotentialCmcGroups.removeNid_full {enigmaMap : TreeMap Enigma (TreeMap Nid Bool)}
    (hf : (potential.removeNid rCid nid)[rCid]? = some enigmaMap) :
    Full (Full fun _ => True) enigmaMap := by
  rw [getElem?_removeNid, if_pos rfl] at hf
  obtain ⟨old, hk, kept⟩ := bind_eq_some_iff.mp hf
  obtain ⟨full, hs⟩ := ite_none_left_eq_some.mp kept
  cases hs
  refine ⟨Bool.eq_false_iff.mpr full, fun enigma nodeIdMap ht => ⟨?_, fun _ _ _ => trivial⟩⟩
  exact full_sweep (fun entry _ => settles_removal nid entry) ht

variable (hd : locked.Distinct)

include hd

namespace CmcGroups

/-- The node leaves the groups of the rCID and no others. -/
theorem member_removeNid (chan : Channel) (node : Nid) :
    (locked.removeNid rCid nid).1.Member chan node ↔
      locked.Member chan node ∧ ¬ (chan.rCid = rCid ∧ node = nid) := by
  unfold Member
  rw [entry_removeNid hd]
  by_cases hs : chan.rCid = rCid
  · rw [if_pos hs]
    constructor
    · rintro ⟨rest, hf, hm⟩
      obtain ⟨nids, ht, kept⟩ := bind_eq_some_iff.mp hf
      cases (ite_none_left_eq_some.mp kept).2
      have left := (hd chan nids ht).mem_erase_iff.mp hm
      exact ⟨⟨nids, ht, left.2⟩, fun both => left.1 both.2⟩
    · rintro ⟨⟨nids, ht, hm⟩, still⟩
      have left := (hd chan nids ht).mem_erase_iff.mpr ⟨fun hg => still ⟨hs, hg⟩, hm⟩
      have full : ¬ (nids.erase nid).isEmpty := fun he =>
        ne_nil_of_mem left (isEmpty_iff.mp he)
      exact ⟨_, bind_eq_some_iff.mpr ⟨nids, ht, if_neg full⟩, left⟩
  · simp [hs]

variable {enigmaMap : TreeMap Enigma (TreeMap SessionKey (List Nid))}

theorem removeNid_full (hf : (locked.removeNid rCid nid).1[rCid]? = some enigmaMap) :
    Full (Full (· ≠ [])) enigmaMap := by
  rw [getElem?_removeNid, if_pos rfl] at hf
  obtain ⟨old, hk, kept⟩ := bind_eq_some_iff.mp hf
  obtain ⟨full, hs⟩ := ite_none_left_eq_some.mp kept
  cases hs
  refine ⟨Bool.eq_false_iff.mpr full, fun enigma skMap ht => ?_⟩
  refine ⟨full_sweep (hd.settles_all hk) ht, fun key nids left => ?_⟩
  rw [getElem?_sweep (hd.settles_all hk)] at ht
  obtain ⟨before, hf, kept⟩ := bind_eq_some_iff.mp ht
  cases (ite_none_left_eq_some.mp kept).2
  rintro rfl
  cases full_sweep (hd.settles hk hf) left

theorem mem_removal (hk : locked[rCid]? = some enigmaMap) (ht : enigmaMap[enigma]? = some skMap)
    (pair : Enigma × SessionKey) : pair ∈ ((removal nid enigma).sweep skMap).2 ↔
      pair.1 = enigma ∧ ∃ nodeIds, skMap[pair.2]? = some nodeIds ∧ nid ∈ nodeIds := by
  rw [mem_out (hd.settles hk ht)]
  constructor
  · rintro ⟨key, nodeIds, hf, put⟩
    obtain ⟨contained, hs⟩ := mem_ite_nil_right.mp put
    cases mem_singleton.mp hs
    exact ⟨rfl, nodeIds, hf, contains_iff_mem.mp contained⟩
  · rintro ⟨rfl, nodeIds, hf, hm⟩
    refine ⟨pair.2, nodeIds, hf, mem_ite_nil_right.mpr ⟨?_, mem_singleton_self _⟩⟩
    exact contains_iff_mem.mpr hm

theorem nodup_removeNid : (locked.removeNid rCid nid).2.Nodup := by
  unfold removeNid
  split
  · exact nodup_nil
  rename_i enigmaMap hk
  refine nodup_out Prod.fst (hd.settles_all hk) fun enigma skMap ht => ⟨?_, ?_⟩
  · apply nodup_out Prod.snd (hd.settles hk ht)
    intro key nids _
    simp only [removal]
    split
    · simp
    · simp
  · exact fun pair hm => ((mem_removal hd hk ht pair).mp hm).1

/-- The node was in the groups that are reported. -/
theorem mem_removeNid (enigma : Enigma) (key : SessionKey) :
    (enigma, key) ∈ (locked.removeNid rCid nid).2 ↔ locked.Member ⟨rCid, enigma, key⟩ nid := by
  unfold removeNid Member entry
  cases hk : locked[rCid]? with
  | none => simp
  | some =>
    simp only [bind_eq_bind, bind_some, bind_eq_some_iff]
    rw [mem_out (hd.settles_all hk)]
    constructor
    · rintro ⟨enigma', skMap, ht, hm⟩
      obtain ⟨rfl, nids, hf, hi⟩ := (mem_removal hd hk ht _).mp hm
      exact ⟨nids, ⟨skMap, ht, hf⟩, hi⟩
    · rintro ⟨nids, ⟨skMap, ht, hf⟩, hi⟩
      refine ⟨enigma, skMap, ht, ?_⟩
      exact (mem_removal hd hk ht _).mpr ⟨rfl, nids, hf, hi⟩

end CmcGroups

/-- A reset takes its node out of the groups of the rCID, and nothing else. -/
theorem removeNidFromCmcGroups_exact :
    Removal.Exact rCid nid potential locked (removeNidFromCmcGroups rCid nid potential locked) where
  flag _ _ _ := potential.flag_removeNid
  member := CmcGroups.member_removeNid hd
  other _ differ := by
    refine ⟨potential.getElem?_removeNid.trans (if_neg differ), ?_⟩
    exact getElem?_removeNid.trans (if_neg differ)
  potential_full _ := PotentialCmcGroups.removeNid_full
  locked_full _ := removeNid_full hd
  once := nodup_removeNid hd
  pairs := mem_removeNid hd

omit hd in
theorem removeNidFromCmcGroups_exact_pair :
    let locked : CmcGroups := PerSession.put ⟨1, 2, 3⟩ [5, 6] id ∅
    locked.Distinct ∧ Removal.Exact 1 5 ∅ locked (removeNidFromCmcGroups 1 5 ∅ locked) := by
  intro locked
  have hd : locked.Distinct := by
    intro chan nodeIds hf
    rw [entry_put] at hf
    split at hf
    · cases hf
      simp [entry]
    · simp [entry] at hf
  exact ⟨hd, removeNidFromCmcGroups_exact hd⟩

end Blackadder.Ltp
