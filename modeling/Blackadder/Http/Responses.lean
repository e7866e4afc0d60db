import Blackadder.Ltp.Nap

namespace Blackadder.Http

open List List.Sublist Prod

open Std (TreeMap)
open NestedMap Ltp

/-- The HTTP handler with the transport, which has the same maps. A call of `handleResponse` that
has left its loop has its own copy of the group of its session. -/
structure Handler where
  nap : Nap
  potentialCmcGroupsOpen : Bool
  copies : Channel → Option (List Nid)

/-- The outcome of `_getCmcGroup`. -/
structure Formed where
  handler : Handler
  nodeIds : List Nid
  bufferPacket : Bool

variable (channel : Channel) (firstPacket : Bool) (nodeIds : List Nid) (handler : Handler)

/-- A group that is there is kept unless it is empty. -/
def createCmcGroup (groups : CmcGroups) : CmcGroups :=
  groups.put channel nodeIds fun old => if old.isEmpty then nodeIds else old

/-- The nodes whose request has arrived and whose FID is known. -/
def readyNodes (nap : Nap) (nodeIdMap : TreeMap Nid Bool) : List Nid :=
  (nodeIdMap.toList.filter fun entry => entry.2 && nap.forwardingEnabled entry.1).map Prod.fst

/-- Takes nodes out of a potential group, with the enigma and the rCID if they are empty then. -/
def deleteNodes
    (enigmaMap : TreeMap Enigma (TreeMap Nid Bool))
    (nodeIdMap : TreeMap Nid Bool) (groups : PotentialCmcGroups) : PotentialCmcGroups :=
  let nodeIdMap := nodeIds.foldl TreeMap.erase nodeIdMap
  let enigmaMap := if nodeIdMap.isEmpty then enigmaMap.erase channel.enigma
    else enigmaMap.insert channel.enigma nodeIdMap
  if enigmaMap.isEmpty then groups.erase channel.rCid else groups.insert channel.rCid enigmaMap

namespace Handler

def initial (nodeId : Nid) : Handler := ⟨Nap.initial nodeId, true, fun _ => none⟩

/-- The second part of `_getCmcGroup`: a new group from the potential one. -/
def formCmcGroup :
    Formed :=
  if !handler.potentialCmcGroupsOpen then ⟨handler, nodeIds, false⟩
  else if !firstPacket then ⟨handler, nodeIds, false⟩
  else if !nodeIds.isEmpty then ⟨handler, nodeIds, false⟩
  else
    match handler.nap.potentialCmcGroups[channel.rCid]? with
    | none => ⟨handler, nodeIds, false⟩
    | some enigmaMap =>
      match enigmaMap[channel.enigma]? with
      | none => ⟨handler, nodeIds, false⟩
      | some nodeIdMap =>
        let nodeIds := readyNodes handler.nap nodeIdMap
        if nodeIds.isEmpty then ⟨handler, nodeIds, true⟩
        else
          ⟨{ handler with nap := { handler.nap with
              cmcGroups := createCmcGroup channel nodeIds handler.nap.cmcGroups
              potentialCmcGroups := deleteNodes channel nodeIds enigmaMap nodeIdMap
                handler.nap.potentialCmcGroups } },
            nodeIds, nodeIdMap.toList.any fun entry =>
              entry.2 && !handler.nap.forwardingEnabled entry.1⟩

def getCmcGroup :
    Formed :=
  match handler.nap.cmcGroups.entry channel with
  | some (nid :: nids) => ⟨handler, nid :: nids, false⟩
  | _ => handler.formCmcGroup channel firstPacket nodeIds

/-- The nodes that a response moves to the locked group of its session. -/
def moved (channel : Channel) (firstPacket : Bool) : List Nid :=
  match handler.nap.cmcGroups.entry channel with
  | some (_ :: _) => []
  | _ => (handler.formCmcGroup channel firstPacket []).nodeIds

def setCopy (channel : Channel) (nodeIds : Option (List Nid)) : Handler :=
  { handler with copies := fun other => if other = channel then nodeIds else handler.copies other }

end Handler

inductive Event
  | fromClient (rCid : Cid) (nid : Nid) (stale : Seq) (packet : List UInt8)
  /-- A round of the loop of `handleResponse`, which copies a group that is not empty. -/
  | response (channel : Channel) (firstPacket : Bool)
  /-- `publish` to the copy. Other threads may run before it, all the more if the packet is to be
  buffered, since `handleResponse` then sleeps for 200 ms. -/
  | publish (channel : Channel)
  /-- A group that is found in the last round only is not used. -/
  | abandon (channel : Channel)
  | closeCmcGroup (channel : Channel)
  | closePotentialCmcGroups
  /-- `lockPotentialCmcGroupMembership` and `unlockPotentialCmcGroupMembership`. -/
  | membership (state : Bool)
  | forwarding (nid : Nid) (state : Bool)
  /-- Nodes that do not answer the transport leave a group. -/
  | giveUp (channel : Channel) (nids : List Nid)
  /-- What other threads do without the groups. -/
  | elsewhere (change : Nap → Nap)

/-- The next state, with the nodes to which a response is published. -/
def Handler.step : Event → Option (Handler × List Nid)
  | .fromClient rCid nid stale packet => do
    let reaction ← handler.nap.handleFromClient rCid nid stale packet
    return ({ handler with nap := reaction.nap }, [])
  | .response channel firstPacket =>
    match handler.copies channel with
    | some _ => none
    | none =>
      let formed := handler.getCmcGroup channel firstPacket []
      some (formed.handler.setCopy channel
        (if formed.nodeIds.isEmpty then none else some formed.nodeIds), [])
  | .publish channel => do
    let nodeIds ← handler.copies channel
    return (handler.setCopy channel none, nodeIds)
  | .abandon channel => some (handler.setCopy channel none, [])
  | .closeCmcGroup channel =>
    some ({ handler with nap := { handler.nap with
      cmcGroups := handler.nap.cmcGroups.remove channel } }, [])
  | .closePotentialCmcGroups =>
    some ({ handler with nap := { handler.nap with potentialCmcGroups := ∅ } }, [])
  | .membership state => some ({ handler with potentialCmcGroupsOpen := state }, [])
  | .forwarding nid state =>
    some ({ handler with nap := handler.nap.forwarding nid state }, [])
  | .giveUp channel nids =>
    some ({ handler with nap := { handler.nap with
      cmcGroups := handler.nap.cmcGroups.removeNids channel nids } }, [])
  | .elsewhere change =>
    some ({ handler with nap := { change handler.nap with
      potentialCmcGroups := handler.nap.potentialCmcGroups
      cmcGroups := handler.nap.cmcGroups } }, [])

/-- What has happened to a node with respect to an rCID and an enigma. -/
inductive Mark
  | windowEnd
  | moved (sessionKey : SessionKey)
  | reset
deriving DecidableEq

/-- The marks of every node, the newest first. -/
abbrev Marks : Type := Cid → Enigma → Nid → List Mark

variable (handler : Handler) (event : Event) (rCid : Cid) (enigma : Enigma) (nid : Nid)
variable (marks : Marks) (since : Since)

/-- The mark that an event leaves on a node. -/
def newMark :
    Option Mark :=
  match event with
  | .fromClient rCid' nid' _ packet =>
    match readMessage .sNap packet with
    | .control (.windowEnd enigma' _ _) =>
      if rCid = rCid' ∧ enigma = enigma' ∧ nid = nid' then some .windowEnd else none
    | .control .reset => if rCid = rCid' ∧ nid = nid' then some .reset else none
    | _ => none
  | .response channel firstPacket =>
    if rCid = channel.rCid ∧ enigma = channel.enigma ∧ nid ∈ handler.moved channel firstPacket then
      some (.moved channel.sessionKey)
    else none
  | _ => none

def Marks.after : Marks :=
  fun rCid enigma nid => (newMark handler event rCid enigma nid).toList ++ marks rCid enigma nid

/-- The marks of a node since the call for a session has looked for its group last. -/
abbrev Since : Type := Channel → Nid → List Mark

def Since.after : Since := fun channel nid =>
  match event with
  | .response other _ => if channel = other then [] else
      (newMark handler event channel.rCid channel.enigma nid).toList ++ since channel nid
  | _ => (newMark handler event channel.rCid channel.enigma nid).toList ++ since channel nid

/-- The states of the handler, with the marks of all nodes. -/
inductive Reached (nodeId : Nid) : Handler → Marks → Since → Prop
  | initial : Reached nodeId (.initial nodeId) (fun _ _ _ => []) fun _ _ => []
  | step {handler next : Handler} {marks : Marks} {since : Since} {event : Event}
      {published : List Nid} (before : Reached nodeId handler marks since)
      (stepped : handler.step event = some (next, published)) :
      Reached nodeId next (marks.after handler event) (since.after handler event)

/-- The last move came right after a window end, and the node has not reset since. -/
def Entitled (sessionKey : SessionKey) (marks : List Mark) : Prop :=
  ∃ later earlier, marks = later ++ .moved sessionKey :: .windowEnd :: earlier ∧
    .moved sessionKey ∉ later ∧ .reset ∉ later

/-- Every move has a window end of its own. -/
def OneMoveEach (marks : List Mark) : Prop :=
  ∀ later sessionKey earlier, marks = later ++ .moved sessionKey :: earlier →
    ∃ rest, earlier = .windowEnd :: rest

section

variable {marks : List Mark} {key : SessionKey} {mark : Mark}

theorem Entitled.cons (entitled : Entitled key marks) (kept : mark ≠ .reset)
    (elsewhere : mark ≠ .moved key) : Entitled key (mark :: marks) := by
  obtain ⟨later, earlier, same, once, unreset⟩ := entitled
  refine ⟨mark :: later, earlier, by rw [same]; rfl, ?_, ?_⟩
  · intro hm
    cases hm with
    | head => exact elsewhere rfl
    | tail _ inside => exact once inside
  · intro hm
    cases hm with
    | head => exact kept rfl
    | tail _ inside => exact unreset inside

theorem OneMoveEach.cons (each : OneMoveEach marks)
    (ended : ∀ key, mark = .moved key → ∃ rest, marks = .windowEnd :: rest) :
    OneMoveEach (mark :: marks) := by
  intro later key earlier same
  cases later with
  | nil =>
    injection same with first rest
    rw [← rest]
    exact ended key first
  | cons head tail =>
    injection same with first rest
    exact each tail key earlier rest

end

section

variable {nap : Nap} {rCid : Cid} {nid : Nid} {stale : Seq} {reaction : Reaction}

/-- What the transport makes of the groups with a packet from a cNAP. -/
def groupsAfter (rCid : Cid) (nid : Nid) (packet : List UInt8) (nap : Nap) :
    PotentialCmcGroups × CmcGroups :=
  match readMessage .sNap packet with
  | .data _ _ =>
    (nap.potentialCmcGroups.addNid rCid (readDataHeader packet).enigma nid, nap.cmcGroups)
  | .control .reset =>
    (nap.potentialCmcGroups.removeNid rCid nid, (nap.cmcGroups.removeNid rCid nid).1)
  | .control (.windowEnd enigma _ _) =>
    (nap.potentialCmcGroups.enableNIdInCmcGroup rCid enigma nid, nap.cmcGroups)
  | _ => (nap.potentialCmcGroups, nap.cmcGroups)

variable {pkt : List UInt8}

open Nap

theorem groups_handleControlFromClient {msg : Control} (read : readMessage .sNap pkt = .control msg)
    (hh : nap.handleControlFromClient rCid nid stale msg = some reaction) :
    (reaction.nap.potentialCmcGroups, reaction.nap.cmcGroups) = groupsAfter rCid nid pkt nap := by
  unfold groupsAfter
  rw [read]
  unfold handleControlFromClient at hh
  cases msg with
  | nack =>
    obtain ⟨nackGroups, same⟩ := nap_handleNack hh
    rw [same]
  | reset =>
    cases hh
    exact Prod.ext nap_handleReset.1 nap_handleReset.2.1
  | windowEnd => rw [nap_handleWindowEndFromClient hh]
  | windowEnded =>
    cases hh
    unfold handleWindowEndedFromClient
    dsimp only
    split
    · rfl
    split
    · rfl
    · split
      · rfl
      · rfl
  | resetted | sessionEnd _ _ | sessionEnded _ _ | windowUpdate _ _ | windowUpdated _ _ =>
    cases hh
    rfl

theorem groups_handleFromClient (hh : nap.handleFromClient rCid nid stale pkt = some reaction) :
    (reaction.nap.potentialCmcGroups, reaction.nap.cmcGroups) = groupsAfter rCid nid pkt nap := by
  have hk : groupsAfter rCid nid pkt (nap.addNodeId nid) = groupsAfter rCid nid pkt nap := by
    unfold addNodeId
    split
    · rfl
    · rfl
  rw [← hk]
  unfold handleFromClient at hh
  split at hh
  · rename_i read
    cases hh
    unfold groupsAfter
    rw [read]
    rfl
  · rename_i read
    exact groups_handleControlFromClient read hh
  · rename_i read
    cases hh
    unfold groupsAfter
    rw [read]

end

variable {enigmaMap : TreeMap Enigma (TreeMap Nid Bool)} {nodeIds : List Nid} {nid : Nid}

section

variable {handler : Handler} {channel : Channel} {firstPacket : Bool} {nodeIdMap : TreeMap Nid Bool}

theorem mem_readyNodes {nap : Nap} : nid ∈ readyNodes nap nodeIdMap ↔
      nodeIdMap[nid]? = some true ∧ nap.forwardingEnabled nid = true := by
  unfold readyNodes
  rw [mem_map]
  constructor
  · intro ⟨⟨other, ready⟩, hm, same⟩
    obtain ⟨ht, both⟩ := mem_filter.mp hm
    obtain ⟨hf, enabled⟩ := Bool.and_eq_true_iff.mp both
    have found := TreeMap.mem_toList_iff_getElem?_eq_some.mp ht
    cases same
    cases hf
    exact ⟨found, enabled⟩
  · intro ⟨found, enabled⟩
    refine ⟨(nid, true), mem_filter.mpr ⟨?_, ?_⟩, rfl⟩
    · exact TreeMap.mem_toList_iff_getElem?_eq_some.mpr found
    · exact enabled

theorem nodup_readyNodes (nap : Nap) (nodeIdMap : TreeMap Nid Bool) :
    (readyNodes nap nodeIdMap).Nodup := by
  unfold readyNodes
  have ho : nodeIdMap.toList.Pairwise fun a b => compare a.1 b.1 = .lt :=
    TreeMap.ordered_keys_toList
  rw [List.Nodup, pairwise_map]
  apply List.Pairwise.imp ?_ (ho.sublist filter_sublist)
  intro a b less same
  rw [same, Std.ReflOrd.compare_self] at less
  cases less

theorem getElem?_foldl_erase (nids : List Nid) (nodeIdMap : TreeMap Nid Bool) (nid : Nid) :
    (nids.foldl TreeMap.erase nodeIdMap)[nid]? =
      if nid ∈ nids then none else nodeIdMap[nid]? := by
  induction nids generalizing nodeIdMap with
  | nil => simp
  | cons first rest ih =>
    rw [foldl_cons, ih, getElem?_erase]
    by_cases later : nid ∈ rest
    · simp [later]
    · by_cases here : nid = first
      · simp [here]
      · simp [here]

open PotentialCmcGroups

theorem flag_deleteNodes {groups : PotentialCmcGroups} (hk : groups[channel.rCid]? = some enigmaMap)
    (ht : enigmaMap[channel.enigma]? = some nodeIdMap) (rCid : Cid) (enigma : Enigma) (nid : Nid) :
    (deleteNodes channel nodeIds enigmaMap nodeIdMap groups).flag rCid enigma nid =
      if rCid = channel.rCid ∧ enigma = channel.enigma ∧ nid ∈ nodeIds then none
      else groups.flag rCid enigma nid := by
  have he : ∀ nodeIdMap : TreeMap Nid Bool, nodeIdMap.isEmpty → nodeIdMap[nid]? = none :=
    fun nodeIdMap isEmpty => TreeMap.getElem?_of_isEmpty isEmpty
  refine (bind_replace groups _ channel.rCid rCid (look_of_isEmpty enigma nid)).trans ?_
  rw [bind_replace enigmaMap _ channel.enigma enigma he, getElem?_foldl_erase]
  by_cases sameCid : rCid = channel.rCid
  · by_cases sameEnigma : enigma = channel.enigma
    · simp [sameCid, sameEnigma, flag, hk, ht]
    · simp [sameCid, sameEnigma, flag, hk]
  · simp [sameCid, flag]

/-- What a response does with the groups, and the nodes that it moves. -/
inductive Outcome (handler : Handler) (channel : Channel) : Formed → List Nid → Prop
  | locked {nodeIds : List Nid} (there : handler.nap.cmcGroups.entry channel = some nodeIds) :
      Outcome handler channel ⟨handler, nodeIds, false⟩ []
  | nothing (bufferPacket : Bool) : Outcome handler channel ⟨handler, [], bufferPacket⟩ []
  | moves {enigmaMap : TreeMap Enigma (TreeMap Nid Bool)} {nodeIdMap : TreeMap Nid Bool}
      (bufferPacket : Bool) (empty : (handler.nap.cmcGroups.entry channel).getD [] = [])
      (known : handler.nap.potentialCmcGroups[channel.rCid]? = some enigmaMap)
      (there : enigmaMap[channel.enigma]? = some nodeIdMap) :
      Outcome handler channel
        ⟨{ handler with nap := { handler.nap with
            cmcGroups := createCmcGroup channel (readyNodes handler.nap nodeIdMap)
              handler.nap.cmcGroups
            potentialCmcGroups := deleteNodes channel (readyNodes handler.nap nodeIdMap) enigmaMap
              nodeIdMap handler.nap.potentialCmcGroups } },
          readyNodes handler.nap nodeIdMap, bufferPacket⟩
        (readyNodes handler.nap nodeIdMap)

theorem outcome_formCmcGroup (he : (handler.nap.cmcGroups.entry channel).getD [] = []) :
    Outcome handler channel (handler.formCmcGroup channel firstPacket [])
      (handler.formCmcGroup channel firstPacket []).nodeIds := by
  unfold Handler.formCmcGroup
  split
  · exact .nothing false
  split
  · exact .nothing false
  split
  · exact .nothing false
  split
  · exact .nothing false
  rename_i enigmaMap hk
  split
  · exact .nothing false
  rename_i nodeIdMap ht
  dsimp only
  split
  · rename_i unready
    rw [isEmpty_iff.mp unready]
    exact .nothing true
  · exact .moves _ he hk ht

theorem outcome_getCmcGroup (handler : Handler) (chan : Channel) (firstPacket : Bool) :
    Outcome handler chan (handler.getCmcGroup chan firstPacket [])
      (handler.moved chan firstPacket) := by
  unfold Handler.getCmcGroup Handler.moved
  split
  · rename_i ht
    exact .locked ht
  rename_i hd
  apply outcome_formCmcGroup
  cases entry : handler.nap.cmcGroups.entry chan with
  | none => rfl
  | some nodeIds =>
    cases nodeIds with
    | nil => rfl
    | cons nid nids => exact absurd entry (hd nid nids)

end

/-- Ready nodes have sent a window end last, nodes in a locked group are entitled to its responses,
and no window end is good for two moves. -/
structure Sound (handler : Handler) (marks : Marks) : Prop where
  ready : ∀ rCid enigma nid, handler.nap.potentialCmcGroups.flag rCid enigma nid = some true →
    ∃ earlier, marks rCid enigma nid = .windowEnd :: earlier
  nodup : ∀ channel nodeIds, handler.nap.cmcGroups.entry channel = some nodeIds → nodeIds.Nodup
  locked : ∀ channel nodeIds, handler.nap.cmcGroups.entry channel = some nodeIds →
    ∀ nid ∈ nodeIds, Entitled channel.sessionKey (marks channel.rCid channel.enigma nid)
  moves : ∀ rCid enigma nid, OneMoveEach (marks rCid enigma nid)

variable {nodeId : Nid}

section

variable {handler next : Handler} {marks : Marks} {event : Event}
variable {key : SessionKey} {enigma : Enigma}

theorem Entitled.after {rCid : Cid} (entitled : Entitled key (marks rCid enigma nid))
    (each : OneMoveEach (marks.after handler event rCid enigma nid))
    (unreset : .reset ∉ (newMark handler event rCid enigma nid).toList) :
    Entitled key (marks.after handler event rCid enigma nid) := by
  rw [Marks.after] at each ⊢
  cases mark : newMark handler event rCid enigma nid with
  | none => exact entitled
  | some mark' =>
    rw [mark, Option.toList_some, singleton_append] at each
    rw [mark] at unreset
    by_cases again : mark' = .moved key
    · obtain ⟨rest, ended⟩ := each [] key _ (by rw [again]; rfl)
      rw [again, ended]
      exact ⟨[], rest, rfl, not_mem_nil, not_mem_nil⟩
    · exact entitled.cons (fun reset => unreset (by simp [reset])) again

/-- A ready node has just sent its window end or was ready before, a node is new in a locked group
only when it is moved there, and only ready nodes are moved. -/
theorem Sound.marked (sound : Sound handler marks)
    (nodup : ∀ chan nodeIds, next.nap.cmcGroups.entry chan = some nodeIds → nodeIds.Nodup)
    (ready : ∀ rCid enigma nid, next.nap.potentialCmcGroups.flag rCid enigma nid = some true →
      newMark handler event rCid enigma nid = some .windowEnd ∨
        newMark handler event rCid enigma nid = none ∧
          handler.nap.potentialCmcGroups.flag rCid enigma nid = some true)
    (locked : ∀ chan nodeIds, next.nap.cmcGroups.entry chan = some nodeIds → ∀ nid ∈ nodeIds,
      newMark handler event chan.rCid chan.enigma nid = some (.moved chan.sessionKey) ∨
        newMark handler event chan.rCid chan.enigma nid ≠ some .reset ∧
          ∃ before, handler.nap.cmcGroups.entry chan = some before ∧ nid ∈ before)
    (moved : ∀ rCid enigma nid key,
      newMark handler event rCid enigma nid = some (.moved key) →
        handler.nap.potentialCmcGroups.flag rCid enigma nid = some true) :
    Sound next (marks.after handler event) := by
  have moves : ∀ rCid enigma nid, OneMoveEach (marks.after handler event rCid enigma nid) := by
    intro rCid enigma nid
    rw [Marks.after]
    cases mark : newMark handler event rCid enigma nid with
    | none => exact sound.moves rCid enigma nid
    | some mark' =>
      apply (sound.moves rCid enigma nid).cons
      intro key same
      exact sound.ready rCid enigma nid (moved rCid enigma nid key (same ▸ mark))
  refine ⟨fun rCid enigma nid hf => ?_, nodup, fun chan nodeIds ht nid hm => ?_, moves⟩
  · rw [Marks.after]
    rcases ready rCid enigma nid hf with mark | ⟨mark, before⟩
    · exact ⟨_, by rw [mark]; rfl⟩
    · rw [mark]
      exact sound.ready rCid enigma nid before
  · rcases locked chan nodeIds ht nid hm with mark | ⟨unreset, before, there, inside⟩
    · obtain ⟨earlier, ended⟩ := sound.ready _ _ _ (moved _ _ _ _ mark)
      rw [Marks.after, mark, ended]
      exact ⟨[], earlier, rfl, not_mem_nil, not_mem_nil⟩
    · exact (sound.locked chan before there nid inside).after (moves _ _ _)
        fun reset => unreset (Option.mem_toList.mp reset)

/-- Nothing is new: no mark, no ready node, no node in a locked group. -/
theorem Sound.less (sound : Sound handler marks)
    (unmarked : ∀ rCid enigma nid, newMark handler event rCid enigma nid = none)
    (ready : ∀ rCid enigma nid, next.nap.potentialCmcGroups.flag rCid enigma nid = some true →
      handler.nap.potentialCmcGroups.flag rCid enigma nid = some true)
    (locked : ∀ chan rest, next.nap.cmcGroups.entry chan = some rest →
      ∃ nodeIds, handler.nap.cmcGroups.entry chan = some nodeIds ∧ rest.Sublist nodeIds) :
    Sound next (marks.after handler event) := by
  apply sound.marked
  · intro chan rest ht
    obtain ⟨nodeIds, before, kept⟩ := locked chan rest ht
    exact kept.nodup (sound.nodup chan nodeIds before)
  · exact fun rCid enigma nid hf => .inr ⟨unmarked _ _ _, ready rCid enigma nid hf⟩
  · intro chan rest ht nid hm
    obtain ⟨nodeIds, before, kept⟩ := locked chan rest ht
    exact .inr ⟨by rw [unmarked]; nofun, nodeIds, before, kept.subset hm⟩
  · intro rCid enigma nid key mark
    rw [unmarked] at mark
    cases mark

theorem Sound.same (sound : Sound handler marks)
    (unmarked : ∀ rCid enigma nid, newMark handler event rCid enigma nid = none)
    (potential : next.nap.potentialCmcGroups = handler.nap.potentialCmcGroups)
    (groups : next.nap.cmcGroups = handler.nap.cmcGroups) :
    Sound next (marks.after handler event) := by
  apply sound.less unmarked
  · rw [potential]
    exact fun _ _ _ hf => hf
  · rw [groups]
    exact fun _ rest ht => ⟨rest, ht, refl _⟩

variable {rCid : Cid} {nid : Nid} {stale : Seq} {pkt : List UInt8} {channel : Channel}

theorem Sound.windowEnd (sound : Sound handler marks) {last : Seq}
    (read : readMessage .sNap pkt = .control (.windowEnd enigma key last))
    (potential : next.nap.potentialCmcGroups = handler.nap.potentialCmcGroups.enableNIdInCmcGroup
      rCid enigma nid) (same : next.nap.cmcGroups = handler.nap.cmcGroups) :
    Sound next (marks.after handler (.fromClient rCid nid stale pkt)) := by
  apply sound.marked
  · rw [same]
    exact sound.nodup
  all_goals simp only [newMark, read]
  · intro rCid' enigma' nid' hf
    rw [potential, PotentialCmcGroups.flag_enableNIdInCmcGroup] at hf
    split
    · exact .inl rfl
    · rename_i other
      rw [if_neg other] at hf
      exact .inr ⟨rfl, hf⟩
  · intro channel nodeIds ht nid' hm
    rw [same] at ht
    refine .inr ⟨?_, nodeIds, ht, hm⟩
    split <;> nofun
  · intro rCid' enigma' nid' key mark
    split at mark <;> cases mark

open CmcGroups

theorem Sound.reset (sound : Sound handler marks) (read : readMessage .sNap pkt = .control .reset)
    (potential : next.nap.potentialCmcGroups = handler.nap.potentialCmcGroups.removeNid rCid nid)
    (locked : next.nap.cmcGroups = (handler.nap.cmcGroups.removeNid rCid nid).1) :
    Sound next (marks.after handler (.fromClient rCid nid stale pkt)) := by
  apply sound.marked
  · intro channel rest ht
    rw [locked] at ht
    obtain ⟨nodeIds, before, rfl⟩ := of_removeNid sound.nodup ht
    have nodup := sound.nodup channel nodeIds before
    split
    · exact nodup.erase nid
    · exact nodup
  all_goals simp only [newMark, read]
  · intro rCid' enigma' nid' hf
    rw [potential, PotentialCmcGroups.flag_removeNid, Option.ite_none_left_eq_some] at hf
    exact .inr ⟨if_neg hf.1, hf.2⟩
  · intro channel rest ht nid' hm
    rw [locked] at ht
    obtain ⟨nodeIds, before, rfl⟩ := of_removeNid sound.nodup ht
    refine .inr ⟨fun marked => ?_, nodeIds, before, ?_⟩
    · obtain ⟨here, -⟩ := Option.ite_none_right_eq_some.mp marked
      rw [if_pos here.1, here.2] at hm
      exact (sound.nodup channel nodeIds before).not_mem_erase hm
    · split at hm
      · exact List.mem_of_mem_erase hm
      · exact hm
  · intro rCid' enigma' nid' key mark
    split at mark <;> cases mark

theorem Sound.fromClient (sound : Sound handler marks) {reaction : Reaction}
    (hh : handler.nap.handleFromClient rCid nid stale pkt = some reaction) :
    Sound { handler with nap := reaction.nap }
      (marks.after handler (.fromClient rCid nid stale pkt)) := by
  have groups := groups_handleFromClient hh
  unfold groupsAfter at groups
  have hq : (∀ enigma key last, readMessage .sNap pkt ≠ .control (.windowEnd enigma key last)) →
      readMessage .sNap pkt ≠ .control .reset → ∀ rCid' enigma' nid',
        newMark handler (.fromClient rCid nid stale pkt) rCid' enigma' nid' = none := by
    intro unended unreset rCid' enigma' nid'
    unfold newMark
    dsimp only
    generalize readMessage .sNap pkt = msg at unended unreset
    cases msg with
    | control control =>
      cases control with
      | windowEnd enigma key last => exact absurd rfl (unended enigma key last)
      | reset => exact absurd rfl unreset
      | _ => rfl
    | _ => rfl
  split at groups
  · rename_i read
    obtain ⟨potential, same⟩ := mk.inj groups
    apply sound.less
    · exact hq (by simp [read]) (by simp [read])
    · intro rCid' enigma' nid' hf
      rw [potential, PotentialCmcGroups.flag_addNid] at hf
      split at hf
      · cases before : handler.nap.potentialCmcGroups.flag rCid' enigma' nid' with
        | none => simp [before] at hf
        | some state => simpa [before] using hf
      · exact hf
    · intro channel rest ht
      rw [same] at ht
      exact ⟨rest, ht, refl _⟩
  · rename_i read
    obtain ⟨potential, locked⟩ := mk.inj groups
    exact sound.reset read potential locked
  · rename_i read
    obtain ⟨potential, same⟩ := mk.inj groups
    exact sound.windowEnd read potential same
  · rename_i notData notReset notEnd
    obtain ⟨potential, same⟩ := mk.inj groups
    exact sound.same (hq (fun _ _ _ => notEnd _ _ _) notReset) potential same

theorem entry_createCmcGroup {groups : CmcGroups} (he : (groups.entry channel).getD [] = [])
    (nids : List Nid) (other : Channel) : (createCmcGroup channel nids groups).entry other =
      if other = channel then some nids else groups.entry other := by
  rw [createCmcGroup, PerSession.entry_put]
  split
  · rename_i same
    rw [same]
    cases ht : groups.entry channel with
    | none => rfl
    | some old =>
      rw [ht] at he
      have none : old = [] := he
      rw [none]
      rfl
  · rfl

variable {firstPacket : Bool}

section

variable (sound : Sound handler marks)

include sound

theorem Sound.move {nodeIdMap : TreeMap Nid Bool}
    (he : (handler.nap.cmcGroups.entry channel).getD [] = [])
    (hk : handler.nap.potentialCmcGroups[channel.rCid]? = some enigmaMap)
    (ht : enigmaMap[channel.enigma]? = some nodeIdMap)
    (all : handler.moved channel firstPacket = readyNodes handler.nap nodeIdMap)
    (potential : next.nap.potentialCmcGroups = deleteNodes channel
      (readyNodes handler.nap nodeIdMap) enigmaMap nodeIdMap handler.nap.potentialCmcGroups)
    (locked : next.nap.cmcGroups = createCmcGroup channel
      (readyNodes handler.nap nodeIdMap) handler.nap.cmcGroups) :
    Sound next (marks.after handler (.response channel firstPacket)) := by
  apply sound.marked
  · intro other nodeIds found
    rw [locked, entry_createCmcGroup he] at found
    split at found
    · cases found
      exact nodup_readyNodes _ _
    · exact sound.nodup other nodeIds found
  all_goals simp only [newMark, all]
  · intro rCid enigma nid hf
    rw [potential, flag_deleteNodes hk ht, Option.ite_none_left_eq_some] at hf
    exact .inr ⟨if_neg hf.1, hf.2⟩
  · intro other nodeIds found nid hm
    rw [locked, entry_createCmcGroup he] at found
    split at found
    · rename_i same
      cases found
      rw [same]
      exact .inl (if_pos ⟨rfl, rfl, hm⟩)
    · refine .inr ⟨?_, nodeIds, found, hm⟩
      split <;> nofun
  · intro rCid enigma nid key mark
    obtain ⟨here, -⟩ := Option.ite_none_right_eq_some.mp mark
    simp only [PotentialCmcGroups.flag, here.1, here.2.1, hk, ht, Option.bind_eq_bind,
      Option.bind_some]
    exact (mem_readyNodes.mp here.2.2).1

theorem Sound.response (chan : Channel) (firstPacket : Bool) :
    Sound (handler.getCmcGroup chan firstPacket []).handler
      (marks.after handler (.response chan firstPacket)) := by
  have outcome := outcome_getCmcGroup handler chan firstPacket
  have unmarked : handler.moved chan firstPacket = [] → ∀ rCid enigma nid,
      newMark handler (.response chan firstPacket) rCid enigma nid = none := by
    intro none rCid enigma nid
    unfold newMark
    dsimp only
    rw [none, if_neg fun moved => not_mem_nil moved.2.2]
  have same : handler.moved chan firstPacket = [] →
      Sound handler (marks.after handler (.response chan firstPacket)) := fun none =>
    sound.same (unmarked none) rfl rfl
  generalize handler.getCmcGroup chan firstPacket [] = formed at outcome
  generalize all : handler.moved chan firstPacket = nodes at outcome
  cases outcome with
  | locked ht => exact same all
  | nothing => exact same all
  | moves _ empty known ht => exact sound.move empty known ht all rfl rfl

theorem Sound.setCopy {nids : Option (List Nid)} :
    Sound (handler.setCopy channel nids) marks :=
  ⟨sound.ready, sound.nodup, sound.locked, sound.moves⟩

theorem sound_step {published : List Nid} (hs : handler.step event = some (next, published)) :
    Sound next (marks.after handler event) := by
  cases event with
  | fromClient =>
    obtain ⟨reaction, hh, rest⟩ := Option.bind_eq_some_iff.mp hs
    cases rest
    exact sound.fromClient hh
  | response channel firstPacket =>
    unfold Handler.step at hs
    dsimp only at hs
    split at hs
    · cases hs
    · cases hs
      exact (sound.response channel firstPacket).setCopy
  | publish =>
    obtain ⟨nodeIds, _, rest⟩ := Option.bind_eq_some_iff.mp hs
    cases rest
    exact sound.same (fun _ _ _ => rfl) rfl rfl
  | abandon =>
    cases hs
    exact sound.same (fun _ _ _ => rfl) rfl rfl
  | closeCmcGroup =>
    cases hs
    apply sound.less
    · exact fun _ _ _ => rfl
    · exact fun _ _ _ hf => hf
    · intro other rest ht
      rw [PerSession.entry_remove] at ht
      split at ht
      · cases ht
      · exact ⟨rest, ht, refl _⟩
  | closePotentialCmcGroups =>
    cases hs
    apply sound.less
    · exact fun _ _ _ => rfl
    · exact nofun
    · exact fun _ rest ht => ⟨rest, ht, refl _⟩
  | membership state | forwarding nid state =>
    cases hs
    exact sound.same (fun _ _ _ => rfl) rfl rfl
  | giveUp =>
    cases hs
    exact sound.less (fun _ _ _ => rfl) (fun _ _ _ hf => hf)
      fun other rest ht => entry_removeNids ht
  | elsewhere =>
    cases hs
    exact sound.same (fun _ _ _ => rfl) rfl rfl

end

variable {since : Since} {published : List Nid}

end

end Blackadder.Http
