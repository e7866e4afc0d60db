import Blackadder.Ltp.Nap
import Blackadder.Ltp.Reassembly

namespace Blackadder.Ltp

open Std (TreeMap)
open NestedMap Nap Option PerSession List

section

variable (key : SessionKey)

theorem puts_addWindowEnd (nids : List Nid) (nid : Nid) (other : SessionKey) :
    Puts (fun nidMap : TreeMap Nid (TreeMap SessionKey Bool) => nidMap[nid]?.bind (·[other]?))
      (nid ∈ nids ∧ other = key) false (fun _ => false)
      (nids.foldl (fun nidMap nid => within nid (single key false)
        (within key false fun _ => false) nidMap) ∅)
      (fun nidMap => nids.foldl (fun nidMap nid => within nid (single key false)
        (within key false fun _ => false) nidMap) nidMap) := by
  have old : ∀ nidMap : TreeMap Nid (TreeMap SessionKey Bool),
      (nids.foldl (fun nidMap nid => within nid (single key false)
        (within key false fun _ => false) nidMap) nidMap)[nid]?.bind (·[other]?) =
      if nid ∈ nids ∧ other = key then some false else nidMap[nid]?.bind (·[other]?) := by
    induction nids with
    | nil => simp
    | cons first rest ih =>
      intro nidMap
      have leaf := puts_within key other false fun _ : Bool => false
      have one := (leaf.level first nid).old nidMap
      rw [foldl_cons, ih, one]
      by_cases same : other = key
      · by_cases hi : nid ∈ rest
        · simp [same, hi]
        · by_cases here : nid = first
          · simp only [same, here, mem_cons]
            split
            · rfl
            · cases nidMap[first]?.bind (·[key]?) <;> rfl
          · simp [here]
      · simp [same]
  constructor
  · rw [old]
    simp
  · intro nidMap
    rw [old]
    split
    · cases nidMap[nid]?.bind (·[other]?) <;> rfl
    · rfl

theorem WindowEnded.flag_addWindowEnd (chan : Channel) (nodeIds : List Nid)
    (flags : WindowEnded) (sess : Session) : (flags.addWindowEnd chan nodeIds).flag sess =
      if (⟨sess.rCid, sess.enigma, sess.sessionKey⟩ : Channel) = chan ∧
          sess.nid ∈ nodeIds then some false else flags.flag sess := by
  have leaf := puts_addWindowEnd chan.sessionKey nodeIds sess.nid sess.sessionKey
  have seen := ((leaf.level chan.enigma sess.enigma).level chan.rCid sess.rCid).old flags
  have same : (sess.rCid = chan.rCid ∧ sess.enigma = chan.enigma ∧
      sess.nid ∈ nodeIds ∧ sess.sessionKey = chan.sessionKey) ↔
      (⟨sess.rCid, sess.enigma, sess.sessionKey⟩ : Channel) = chan ∧ sess.nid ∈ nodeIds := by
    rw [Channel.eq_iff]
    constructor
    · exact fun ⟨rCid, enigma, nid, key⟩ => ⟨⟨rCid, enigma, key⟩, nid⟩
    · exact fun ⟨⟨rCid, enigma, key⟩, nid⟩ => ⟨rCid, enigma, nid, key⟩
  simp only [same] at seen
  refine Eq.trans seen ?_
  split
  · cases flags[sess.rCid]?.bind fun enigmaMap => enigmaMap[sess.enigma]?.bind
      fun nidMap => nidMap[sess.nid]?.bind (·[sess.sessionKey]?) <;> rfl
  · rfl

end

/-- `ENIGMA`, in its use as the number of attempts. -/
def windowEndAttempts : Nat := 23

/-- At the fragment behind some sequence number, or waiting for the confirmations. -/
inductive Phase
  | sending (sequenceNumber : Seq) (left : List (List UInt8))
  | polling (attempts : Nat)

structure Call where
  nodeIds : List Nid
  /-- The sequence number in the window end. -/
  last : Seq
  phase : Phase

structure Server where
  nap : Nap
  calls : Channel → Option Call

inductive ServerEvent
  | publish (channel : Channel) (nodeIds : List Nid) (data : List UInt8) (stale : Stale)
      (mitu : UInt16) (rCidLength : UInt32)
  | send (channel : Channel)
  /-- Nodes that do not answer a window update are taken out of the group. -/
  | giveUp (channel : Channel) (nids : List Nid)
  | windowEnd (channel : Channel)
  /-- All nodes are found confirmed, and the call returns. -/
  | confirmed (channel : Channel)
  | timeout (channel : Channel)
  | fromClient (rCid : Cid) (nid : Nid) (stale : Seq) (packet : List UInt8)
  | cleanUp (channel : Channel)
  /-- `LtpBufferCleaner` finds a packet of the session too old. -/
  | clean (channel : Channel)
  /-- What other threads do without the packets, activity and confirmations of sessions. -/
  | elsewhere (change : Nap → Nap)

namespace Nap

/-- `_bufferLtpPacket`, before a fragment is published. -/
def bufferLtpPacket (channel : Channel) (sequenceNumber : Seq) (packet : List UInt8) (nap : Nap) :
    Nap :=
  { nap with
    ltpPacketBuffer := nap.ltpPacketBuffer.bufferLtpPacket channel sequenceNumber packet }

def addWindowEnd (channel : Channel) (nodeIds : List Nid) (nap : Nap) : Nap :=
  { nap with windowEndedResponses := nap.windowEndedResponses.addWindowEnd channel nodeIds }

/-- The condition under which `publish` returns while it waits. -/
def finished (nap : Nap) (channel : Channel) (nodeIds : List Nid) : Bool :=
  match nap.windowEndedResponses[channel.rCid]? with
  | none => true
  | some _ => nodeIds.countP (nap.windowEndedResponses.confirmed channel) == nodeIds.length

end Nap

namespace Server

def initial (nodeId : Nid) : Server := ⟨Nap.initial nodeId, fun _ => none⟩

def setCall (server : Server) (channel : Channel) (call : Option Call) (nap : Nap) : Server :=
  ⟨nap, fun other => if other = channel then call else server.calls other⟩

def windowEndTo (channel : Channel) (call : Call) : Publication :=
  ⟨.nodes channel.rCid call.nodeIds,
    .control (.windowEnd channel.enigma channel.sessionKey call.last)⟩

def step (server : Server) (event : ServerEvent) : Option (Server × List Publication) :=
  match event with
  | .publish channel nodeIds data stale mitu rCidLength =>
    -- the call loops for as long as the session is active
    if (server.calls channel).isSome ∨ server.nap.ltpSessionActivityCheck channel then none
    else do
      let fragments ← responseFragments channel.enigma channel.sessionKey data stale mitu
        rCidLength
      return (server.setCall channel (some ⟨nodeIds, fragments.2, .sending 0 fragments.1⟩)
        (server.nap.ltpSessionActivitySet channel true), [])
  | .send channel =>
    match server.calls channel with
    | some ⟨nodeIds, last, .sending sequenceNumber (packet :: left)⟩ =>
      some (server.setCall channel (some ⟨nodeIds, last, .sending (sequenceNumber + 1) left⟩)
        (server.nap.bufferLtpPacket channel (sequenceNumber + 1) packet),
        [⟨.nodes channel.rCid nodeIds, .data packet⟩])
    | _ => none
  | .giveUp channel nids =>
    match server.calls channel with
    | some ⟨_, _, .sending _ _⟩ =>
      some (⟨{ server.nap with cmcGroups := server.nap.cmcGroups.removeNids channel nids },
        server.calls⟩, [])
    | _ => none
  | .windowEnd channel =>
    match server.calls channel with
    | some ⟨nodeIds, last, .sending _ []⟩ =>
      let call : Call := ⟨nodeIds, last, .polling windowEndAttempts⟩
      some (server.setCall channel (some call) (server.nap.addWindowEnd channel nodeIds),
        [windowEndTo channel call])
    | _ => none
  | .confirmed channel =>
    match server.calls channel with
    | some ⟨nodeIds, _, .polling _⟩ =>
      if server.nap.finished channel nodeIds then
        some (server.setCall channel none server.nap, [])
      else none
    | _ => none
  | .timeout channel =>
    match server.calls channel with
    | some ⟨nodeIds, last, .polling (attempts + 1)⟩ =>
      let call : Call := ⟨nodeIds, last, .polling attempts⟩
      let nap := server.nap.addWindowEnd channel nodeIds
      if attempts = 0 then
        some (server.setCall channel none
          ((nap.deleteBufferedLtpPacket channel).ltpSessionActivitySet channel false),
          [windowEndTo channel call])
      else some (server.setCall channel (some call) nap, [windowEndTo channel call])
    | _ => none
  | .fromClient rCid nid stale packet => do
    let reaction ← server.nap.handleFromClient rCid nid stale packet
    return (⟨reaction.nap, server.calls⟩, reaction.published)
  | .cleanUp channel => do
    let nap ← server.nap.cleanUpBuffers channel
    return (⟨nap, server.calls⟩, [])
  | .clean channel =>
    some (⟨{ server.nap with ltpPacketBuffer := server.nap.ltpPacketBuffer.clean channel },
      server.calls⟩, [])
  | .elsewhere change =>
    some (⟨{ change server.nap with
      ltpPacketBuffer := server.nap.ltpPacketBuffer
      ltpSessionActivity := server.nap.ltpSessionActivity
      windowEndedResponses := server.nap.windowEndedResponses }, server.calls⟩, [])

/-- The runs whose steps are all allowed. -/
inductive Runs (allowed : Server → ServerEvent → Prop) : Server → List ServerEvent → Server → Prop
  | nil (server : Server) : Runs allowed server [] server
  | cons {server next last : Server} {event : ServerEvent} {published : List Publication}
      {events : List ServerEvent} (admitted : allowed server event)
      (stepped : server.step event = some (next, published))
        (rest : Runs allowed next events last) :
      Runs allowed server (event :: events) last

end Server

/-- The session is free for the next call, with nothing left in its buffer. -/
def Nap.Released (nap : Nap) (channel : Channel) : Prop :=
  nap.ltpSessionActivityCheck channel = false ∧
    ((nap.ltpPacketBuffer.entry channel).getD ∅).isEmpty = true

/-- A call has nodes to publish to, and a confirmation finds the group of the session, with no
others in it. -/
def ServerEvent.Careful (server : Server) : ServerEvent → Prop
  | .publish _ nodeIds _ _ _ _ => nodeIds ≠ []
  | .fromClient rCid _ _ packet =>
    ∀ enigma sessionKey, readMessage .sNap packet = .control (.windowEnded enigma sessionKey) →
      ∀ call attempts, server.calls ⟨rCid, enigma, sessionKey⟩ = some call →
        call.phase = .polling attempts →
        ∃ group, server.nap.cmcGroups.entry ⟨rCid, enigma, sessionKey⟩ = some group ∧
          ∀ nid ∈ group, nid ∈ call.nodeIds
  | _ => True

section

variable {nap later : Nap} {channel other : Channel}

/-- A session keeps its flags and stays free if it is. -/
structure Nap.Spares (nap later : Nap) (channel : Channel) : Prop where
  flags : ∀ nid, later.windowEndedResponses.flag
      ⟨channel.rCid, channel.enigma, nid, channel.sessionKey⟩ =
    nap.windowEndedResponses.flag ⟨channel.rCid, channel.enigma, nid, channel.sessionKey⟩
  released : nap.Released channel → later.Released channel

theorem Nap.Spares.trans {latest : Nap} (first : nap.Spares later channel)
    (second : later.Spares latest channel) : nap.Spares latest channel :=
  ⟨fun nid => (second.flags nid).trans (first.flags nid), fun hr =>
    second.released (first.released hr)⟩

theorem Nap.Settles.spares (hs : nap.Settles later) (chan : Channel) : nap.Spares later chan where
  flags nid := hs.flags _
  released := by
    intro ⟨inactive, he⟩
    constructor
    · rcases hs.activity chan with same | ended
      · rw [same, inactive]
      · exact ended
    · rcases hs.packets chan with same | deleted
      · rw [same]
        exact he
      · rw [deleted]
        rfl

theorem Nap.released_delete (nap : Nap) (channel : Channel) :
    ((nap.deleteBufferedLtpPacket channel).ltpSessionActivitySet channel false).Released
      channel := by
  constructor
  · rw [ltpSessionActivityCheck, ltpSessionActivitySet, entry_put, if_pos rfl]
    cases (nap.deleteBufferedLtpPacket channel).ltpSessionActivity.entry channel <;> rfl
  · change (((nap.ltpPacketBuffer.deleteBufferedLtpPacket channel).entry channel).getD ∅).isEmpty =
      true
    rw [SentPackets.deleteBufferedLtpPacket, entry_modify, if_pos rfl]
    cases nap.ltpPacketBuffer.entry channel <;> rfl

theorem Nap.spares_ltpSessionActivitySet (hd : other ≠ channel) (status : Bool) :
    nap.Spares (nap.ltpSessionActivitySet channel status) other where
  flags _ := rfl
  released := by
    intro ⟨inactive, he⟩
    refine ⟨?_, he⟩
    rw [ltpSessionActivityCheck, ltpSessionActivitySet, entry_put, if_neg hd]
    exact inactive

theorem Nap.spares_bufferLtpPacket (hd : other ≠ channel) (seqNo : Seq) (pkt : List UInt8) :
    nap.Spares (nap.bufferLtpPacket channel seqNo pkt) other where
  flags _ := rfl
  released := by
    intro ⟨inactive, he⟩
    refine ⟨inactive, ?_⟩
    rw [bufferLtpPacket, SentPackets.bufferLtpPacket, entry_put, if_neg hd]
    exact he

theorem Nap.spares_addWindowEnd (hd : other ≠ channel) (nids : List Nid) :
    nap.Spares (nap.addWindowEnd channel nids) other where
  flags nid := by
    rw [addWindowEnd, WindowEnded.flag_addWindowEnd, if_neg]
    exact fun same => hd same.1
  released := id

theorem Nap.spares_clean (cleaned : Channel) :
    nap.Spares { nap with ltpPacketBuffer := nap.ltpPacketBuffer.clean cleaned } channel where
  flags _ := rfl
  released := by
    intro ⟨inactive, he⟩
    refine ⟨inactive, ?_⟩
    rw [SentPackets.entry_clean]
    split
    · rfl
    · exact he

end

namespace Server

/-- Without a call the session is free, and with one that waits as soon as all flags are set. -/
def Sound (server : Server) (channel : Channel) : Prop :=
  match server.calls channel with
  | none => server.nap.Released channel
  | some call => call.nodeIds ≠ [] ∧ ∀ attempts, call.phase = .polling attempts →
      (∀ nid ∈ call.nodeIds, server.nap.windowEndedResponses.flag
        ⟨channel.rCid, channel.enigma, nid, channel.sessionKey⟩ ≠ none) ∧
      ((∀ nid ∈ call.nodeIds, server.nap.windowEndedResponses.confirmed channel nid = true) →
        server.nap.Released channel)

section

variable {server next : Server} {channel other : Channel} {nap : Nap}

theorem Sound.spare (sound : server.Sound channel)
    (same : next.calls channel = server.calls channel)
    (spares : server.nap.Spares next.nap channel) : next.Sound channel := by
  unfold Sound at sound ⊢
  rw [same]
  cases called : server.calls channel with
  | none =>
    rw [called] at sound
    exact spares.released sound
  | some call =>
    rw [called] at sound
    refine ⟨sound.1, fun attempts waiting => ?_⟩
    obtain ⟨hf, hr⟩ := sound.2 attempts waiting
    constructor
    · intro nid hm
      rw [spares.flags]
      exact hf nid hm
    · intro all
      apply spares.released
      apply hr
      intro nid hm
      rw [WindowEnded.confirmed, ← spares.flags]
      exact all nid hm

theorem calls_setCall_self (call : Option Call) :
    (server.setCall channel call nap).calls channel = call := if_pos rfl

theorem calls_setCall_other (hd : other ≠ channel) (call : Option Call) :
    (server.setCall channel call nap).calls other = server.calls other := if_neg hd

theorem sound_none (hr : nap.Released channel) :
    (server.setCall channel none nap).Sound channel := by
  unfold Sound
  rw [calls_setCall_self]
  exact hr

variable {nids : List Nid} {rCid : Cid} {nid : Nid}

theorem sound_sending (some : nids ≠ []) (last seqNo : Seq) (left : List (List UInt8)) :
    (server.setCall channel (.some ⟨nids, last, .sending seqNo left⟩) nap).Sound channel := by
  unfold Sound
  rw [calls_setCall_self]
  exact ⟨some, fun attempts waiting => nomatch waiting⟩

/-- A window end has just gone out, so not all flags are set. -/
theorem sound_polling (some : nids ≠ []) (last : Seq) (attempts : Nat) :
    (server.setCall channel (.some ⟨nids, last, .polling attempts⟩)
      (nap.addWindowEnd channel nids)).Sound channel := by
  have flag : ∀ nid ∈ nids, (nap.addWindowEnd channel nids).windowEndedResponses.flag
      ⟨channel.rCid, channel.enigma, nid, channel.sessionKey⟩ = .some false := by
    intro nid hm
    rw [addWindowEnd, WindowEnded.flag_addWindowEnd, if_pos ⟨rfl, hm⟩]
  unfold Sound
  rw [calls_setCall_self]
  refine ⟨some, fun _ _ => ⟨?_, ?_⟩⟩
  · intro nid hm
    rw [setCall, flag nid hm]
    exact some_ne_none false
  · intro all
    obtain ⟨nid, hm⟩ := exists_mem_of_ne_nil nids some
    have confirmed := all nid hm
    rw [setCall, WindowEnded.confirmed, flag nid hm] at confirmed
    cases confirmed

theorem Sound.released_of_finished (sound : server.Sound channel) {last : Seq} {attempts : Nat}
    (called : server.calls channel = some ⟨nids, last, .polling attempts⟩)
    (finished : server.nap.finished channel nids = true) : server.nap.Released channel := by
  unfold Sound at sound
  rw [called] at sound
  obtain ⟨hf, hr⟩ := sound.2 attempts rfl
  obtain ⟨first, hm⟩ := exists_mem_of_ne_nil nids sound.1
  unfold Nap.finished at finished
  split at finished
  · rename_i unknown
    exfalso
    apply hf first hm
    rw [WindowEnded.flag, unknown]
    rfl
  · apply hr
    exact countP_eq_length.mp (beq_iff_eq.mp finished)

theorem spares_addNodeId (nid : Nid) : nap.Spares (nap.addNodeId nid) channel := by
  unfold addNodeId
  split
  · exact ⟨fun _ => rfl, id⟩
  · exact ⟨fun _ => rfl, id⟩

theorem spares_flagged {msg : Control}
    (hd : ∀ enigma key, msg = .windowEnded enigma key → channel ≠ ⟨rCid,
      enigma, key⟩) : nap.Spares (nap.flagged rCid nid msg) channel := by
  cases msg with
  | windowEnded enigma key =>
    refine ⟨fun other => ?_, id⟩
    rw [flagged, WindowEnded.flag_setFlag, if_neg]
    intro same
    apply hd enigma key rfl
    rw [Session.eq_iff] at same
    exact Channel.eq_iff.mpr ⟨same.1, same.2.1, same.2.2.2⟩
  | _ => exact ⟨fun _ => rfl, id⟩

/-- The last confirmation frees the session if it finds the group, with only nodes that have
confirmed. -/
theorem released_of_confirmed {nid : Nid} {group nids : List Nid}
    (found : nap.cmcGroups.entry channel = some group) (hi : ∀ nid ∈ group, nid ∈ nids)
    (hf : nap.windowEndedResponses.flag
      ⟨channel.rCid, channel.enigma, nid, channel.sessionKey⟩ ≠ none)
    (all : ∀ nid' ∈ nids, (nap.handleWindowEndedFromClient channel.rCid nid channel.enigma
      channel.sessionKey).nap.windowEndedResponses.confirmed channel nid' = true) :
    (nap.handleWindowEndedFromClient channel.rCid nid channel.enigma
      channel.sessionKey).nap.Released channel := by
  obtain ⟨old, flag⟩ := ne_none_iff_exists'.mp hf
  let sess : Session := ⟨channel.rCid, channel.enigma, nid, channel.sessionKey⟩
  have hs := @settles_handleWindowEndedFromClient nap channel.rCid nid channel.enigma
    channel.sessionKey
  have none : group.any ((nap.windowEndedResponses.setFlag sess).outstanding channel) = false := by
    rw [List.any_eq_false]
    intro member ht
    have confirmed := all member (hi member ht)
    rw [WindowEnded.confirmed, hs.flags] at confirmed
    rw [WindowEnded.outstanding]
    cases set : (nap.windowEndedResponses.setFlag sess).flag
        ⟨channel.rCid, channel.enigma, member, channel.sessionKey⟩ with
    | none =>
      rw [flagged, set] at confirmed
      cases confirmed
    | some val =>
      rw [flagged, set] at confirmed
      have yes : val = true := confirmed
      rw [yes]
      exact Bool.false_ne_true
  unfold handleWindowEndedFromClient
  simp only [flag, found]
  rw [if_neg (ne_true_of_eq_false none)]
  exact released_delete _ channel

theorem Sound.handleWindowEnded {enigma : Enigma} {key : SessionKey}
    (sound : server.Sound ⟨rCid, enigma, key⟩)
    (careful : ∀ call attempts, server.calls ⟨rCid, enigma, key⟩ = some call → call.phase =
      .polling attempts → ∃ group, server.nap.cmcGroups.entry ⟨rCid, enigma, key⟩ = some
      group ∧ ∀ nid ∈ group, nid ∈ call.nodeIds) :
    Server.Sound ⟨(server.nap.handleWindowEndedFromClient rCid nid enigma key).nap,
      server.calls⟩ ⟨rCid, enigma, key⟩ := by
  have hs := @settles_handleWindowEndedFromClient server.nap rCid nid enigma key
  unfold Sound at sound ⊢
  cases called : server.calls ⟨rCid, enigma, key⟩ with
  | none =>
    rw [called] at sound
    exact (hs.spares _).released sound
  | some call =>
    rw [called] at sound
    refine ⟨sound.1, fun attempts waiting => ?_⟩
    obtain ⟨hf, hr⟩ := sound.2 attempts waiting
    obtain ⟨group, found, hi⟩ := careful call attempts called waiting
    constructor
    · intro other hm hg
      apply hf other hm
      rw [hs.flags, flagged, WindowEnded.flag_setFlag] at hg
      split at hg
      · exact map_eq_none_iff.mp hg
      · exact hg
    · intro all
      cases flag : server.nap.windowEndedResponses.flag ⟨rCid, enigma, nid, key⟩ with
      | none =>
        -- nothing changes
        simp only [handleWindowEndedFromClient, flag] at all ⊢
        exact hr all
      | some val =>
        apply @released_of_confirmed ⟨rCid, enigma, key⟩ server.nap nid group
          call.nodeIds found hi _ all
        rw [flag]
        exact some_ne_none val

theorem Sound.handleFromClient {stale : Seq} {pkt : List UInt8} {reaction : Reaction}
    (sound : server.Sound channel)
    (careful : ServerEvent.Careful server (.fromClient rCid nid stale pkt))
    (hh : server.nap.handleFromClient rCid nid stale pkt = some reaction) :
    Server.Sound ⟨reaction.nap, server.calls⟩ channel := by
  have hk : server.nap.Spares (server.nap.addNodeId nid) channel := spares_addNodeId nid
  have he : Server.Sound ⟨server.nap.addNodeId nid, server.calls⟩ channel := sound.spare rfl hk
  unfold Nap.handleFromClient at hh
  split at hh
  · cases hh
    exact he.spare rfl ⟨fun _ => rfl, id⟩
  · rename_i msg read
    by_cases confirmation : ∃ enigma key, msg = .windowEnded enigma key ∧
        channel = ⟨rCid, enigma, key⟩
    · obtain ⟨enigma, key, rfl, rfl⟩ := confirmation
      cases hh
      apply he.handleWindowEnded
      intro call attempts called waiting
      obtain ⟨group, found, hi⟩ := careful enigma key read call attempts called waiting
      refine ⟨group, ?_, hi⟩
      rw [← found]
      unfold addNodeId
      split
      · rfl
      · rfl
    · have hf : (server.nap.addNodeId nid).Spares
          ((server.nap.addNodeId nid).flagged rCid nid msg) channel := by
        apply spares_flagged
        intro enigma key same here
        exact confirmation ⟨enigma, key, same, here⟩
      have hs := settles_handleControlFromClient hh
      exact he.spare rfl (hf.trans (hs.spares channel))
  · cases hh
    exact he

theorem sound_setCall {call : Option Call} (sound : ∀ channel, server.Sound channel)
    (here : (server.setCall channel call nap).Sound channel)
    (spares : ∀ other, other ≠ channel → server.nap.Spares nap other) (other : Channel) :
    (server.setCall channel call nap).Sound other := by
  by_cases same : other = channel
  · rw [same]
    exact here
  · exact (sound other).spare (calls_setCall_other same call) (spares other same)

theorem Sound.nodes {call : Call} (sound : server.Sound channel)
    (called : server.calls channel = some call) : call.nodeIds ≠ [] := by
  unfold Sound at sound
  rw [called] at sound
  exact sound.1

/-- Every event keeps what the server knows of all its channels. -/
theorem sound_step {event : ServerEvent} {published : List Publication}
    (sound : ∀ channel, server.Sound channel) (careful : event.Careful server)
    (hs : server.step event = some (next, published)) (other : Channel) : next.Sound other := by
  unfold step at hs
  cases event with
  | publish =>
    dsimp only at hs
    split at hs
    · cases hs
    obtain ⟨frags, _, rest⟩ := bind_eq_some_iff.mp hs
    cases rest
    apply sound_setCall sound
    · exact sound_sending careful _ _ _
    · exact fun other hd => spares_ltpSessionActivitySet hd true
  | send channel =>
    dsimp only at hs
    split at hs
    · rename_i called
      cases hs
      apply sound_setCall sound
      · exact sound_sending ((sound channel).nodes called) _ _ _
      · exact fun other hd => spares_bufferLtpPacket hd _ _
    · cases hs
  | giveUp =>
    dsimp only at hs
    split at hs
    · cases hs
      exact (sound other).spare rfl ⟨fun _ => rfl, id⟩
    · cases hs
  | windowEnd channel =>
    dsimp only at hs
    split at hs
    · rename_i called
      cases hs
      apply sound_setCall sound
      · exact sound_polling ((sound channel).nodes called) _ _
      · exact fun other hd => spares_addWindowEnd hd _
    · cases hs
  | confirmed channel =>
    dsimp only at hs
    split at hs
    · rename_i called
      split at hs
      · rename_i finished
        cases hs
        apply sound_setCall sound
        · exact sound_none ((sound channel).released_of_finished called finished)
        · exact fun other _ => ⟨fun _ => rfl, id⟩
      · cases hs
    · cases hs
  | timeout channel =>
    dsimp only at hs
    split at hs
    · rename_i called
      split at hs
      · cases hs
        apply sound_setCall sound
        · exact sound_none (released_delete _ channel)
        intro other hd
        exact (spares_addWindowEnd hd _).trans (((settles_deleteBufferedLtpPacket channel).trans
            (settles_ltpSessionActivitySet channel)).spares other)
      · cases hs
        apply sound_setCall sound
        · exact sound_polling ((sound channel).nodes called) _ _
        · exact fun other hd => spares_addWindowEnd hd _
    · cases hs
  | fromClient =>
    obtain ⟨reaction, hh, rest⟩ := bind_eq_some_iff.mp hs
    cases rest
    exact (sound other).handleFromClient careful hh
  | cleanUp =>
    obtain ⟨nap, hc, rest⟩ := bind_eq_some_iff.mp hs
    cases rest
    exact (sound other).spare rfl ((settles_cleanUpBuffers hc).spares other)
  | clean channel =>
    cases hs
    exact (sound other).spare rfl (spares_clean channel)
  | elsewhere =>
    cases hs
    exact (sound other).spare rfl ⟨fun _ => rfl, id⟩

theorem sound_run {events : List ServerEvent} {last : Server}
    (run : Runs ServerEvent.Careful server events last) (sound : ∀ channel, server.Sound channel) :
    ∀ channel, last.Sound channel := by
  induction run with
  | nil => exact sound
  | cons admitted stepped _ ih =>
    apply ih
    exact sound_step sound admitted stepped

theorem sound_initial (nodeId : Nid) (channel : Channel) : (initial nodeId).Sound channel := by
  constructor
  · rw [ltpSessionActivityCheck]
    rfl
  · rfl

end

end Server

/-- In a careful run a session without a call is inactive, and its buffer is empty. -/
theorem session_released_in_careful_run {nodeId : Nid} {events : List ServerEvent} {server : Server}
    (run : Server.Runs ServerEvent.Careful (Server.initial nodeId) events server)
    (channel : Channel) (idle : server.calls channel = none) :
    server.nap.ltpSessionActivityCheck channel = false ∧
      ((server.nap.ltpPacketBuffer.entry channel).getD ∅).isEmpty = true := by
  have sound := Server.sound_run run (Server.sound_initial nodeId) channel
  unfold Server.Sound at sound
  rw [idle] at sound
  exact sound

/-- Node 7 is the group of a session. -/
def smallGroup (nap : Nap) : Nap :=
  { nap with cmcGroups := nap.cmcGroups.put ⟨1, 2, 4⟩ [7] fun group => group }

/-- One byte is published to node 7, up to the window end. -/
def smallResponse : List ServerEvent :=
  [.elsewhere smallGroup, .publish ⟨1, 2, 4⟩ [7] [5] ⟨List.replicate 7 0, fun _ => #v[0, 0]⟩ 96 32,
    .send ⟨1, 2, 4⟩, .windowEnd ⟨1, 2, 4⟩]

/-- The confirmation of node 7. -/
def smallConfirmation : ServerEvent := .fromClient 1 7 0 (Control.windowEnded 2 4).bytes

/-- Node 7 confirms, and the session is free again. -/
theorem session_released_in_careful_run_confirmed :
    ∃ server, Server.Runs ServerEvent.Careful (Server.initial 9)
        (smallResponse ++ [smallConfirmation, .confirmed ⟨1, 2, 4⟩]) server ∧
      server.calls ⟨1, 2, 4⟩ = none ∧
      server.nap.ltpSessionActivityCheck ⟨1, 2, 4⟩ = false ∧
      ((server.nap.ltpPacketBuffer.entry ⟨1, 2, 4⟩).getD ∅).isEmpty = true := by
  have run : ∃ server, Server.Runs ServerEvent.Careful (Server.initial 9)
      (smallResponse ++ [smallConfirmation, .confirmed ⟨1, 2, 4⟩]) server ∧
      server.calls ⟨1, 2, 4⟩ = none := by
    refine ⟨_, .cons trivial rfl (.cons (cons_ne_nil _ _) rfl (.cons trivial rfl
      (.cons trivial rfl (.cons ?_ rfl (.cons trivial rfl (.nil _)))))), rfl⟩
    intro enigma sessionKey read call attempts called _
    have same : Message.control (.windowEnded 2 4) = .control (.windowEnded enigma sessionKey) :=
      read
    cases same
    cases called
    exact ⟨[7], rfl, fun nid hm => hm⟩
  obtain ⟨server, run, idle⟩ := run
  exact ⟨server, run, idle, session_released_in_careful_run run _ idle⟩

/-- Node 7 resets and confirms afterwards: the call returns, and the session stays active. -/
theorem session_active_after_reset : ∃ server, Server.Runs (fun _ _ => True) (Server.initial 9)
        (smallResponse ++ [.fromClient 1 7 0 Control.reset.bytes, smallConfirmation,
          .confirmed ⟨1, 2, 4⟩]) server ∧ server.calls ⟨1, 2, 4⟩ = none ∧
      server.nap.ltpSessionActivityCheck ⟨1, 2, 4⟩ = true :=
  ⟨_, .cons trivial rfl (.cons trivial rfl (.cons trivial rfl (.cons trivial rfl
    (.cons trivial rfl (.cons trivial rfl (.cons trivial rfl (.nil _))))))), rfl, rfl⟩

end Blackadder.Ltp
