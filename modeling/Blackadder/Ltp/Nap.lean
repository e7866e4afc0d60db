import Blackadder.Ltp.CmcGroups
import Blackadder.Ltp.Recovery
import Blackadder.Ltp.NackGroups

/-!
The transport of a NAP and what it does with a packet. What is read beyond the end of a map or never
comes to an end is left undefined.
-/

namespace Blackadder.Ltp

open Std (TreeMap)
open NestedMap Option

/-- `publish_data` with an rCID to some nodes, or `publish_data_isub` under a CID. -/
inductive Route
  | nodes (rCid : Cid) (nodeIds : List Nid)
  | implicit (cid rCid : Cid)
deriving DecidableEq

inductive Content
  | data (packet : List UInt8)
  | control (message : Control)
deriving DecidableEq

structure Publication where
  route : Route
  content : Content
deriving DecidableEq

/-- `tp_states_t`, as far as this transport returns it. -/
inductive TpState
  | fragmentsOutstanding
  | allFragmentsReceived (enigma : Enigma) (sessionKey : SessionKey)
  | sessionEnded (enigma : Enigma) (sessionKey : SessionKey)
  | noActionRequired
deriving DecidableEq

/-- The flags of CTRL-WED messages, by node and session. -/
abbrev WindowEnded : Type := TreeMap Cid (TreeMap Enigma (TreeMap Nid (TreeMap SessionKey Bool)))

structure Nap where
  nodeId : Nid
  knownNids : TreeMap Nid Bool
  cIdReverseLookUp : TreeMap Cid Cid
  icnPacketBuffer : IcnPacketBuffer
  ltpPacketBuffer : SentPackets
  proxyPacketBuffer : SentPackets
  ltpSessionActivity : PerSession Bool
  windowEndedResponses : WindowEnded
  windowEndedRequests : PerSession Bool
  nackGroups : NackGroups
  potentialCmcGroups : PotentialCmcGroups
  cmcGroups : CmcGroups

/-- A NAP that has not done anything yet. -/
def Nap.initial (nodeId : Nid) : Nap where
  nodeId := nodeId
  knownNids := ∅
  cIdReverseLookUp := ∅
  icnPacketBuffer := ∅
  ltpPacketBuffer := ∅
  proxyPacketBuffer := ∅
  ltpSessionActivity := ∅
  windowEndedResponses := ∅
  windowEndedRequests := ∅
  nackGroups := ∅
  potentialCmcGroups := ∅
  cmcGroups := ∅

/-- What comes of a packet. -/
structure Reaction where
  nap : Nap
  published : List Publication
  state : TpState

namespace WindowEnded

variable (session : Session) (flags : WindowEnded) (channel : Channel) (nid : Nid)

/-- The flag that is found under all four keys. -/
def flag (session : Session) : Option Bool := do
  let enigmaMap ← flags[session.rCid]?
  let nidMap ← enigmaMap[session.enigma]?
  let sessionKeyMap ← nidMap[session.nid]?
  sessionKeyMap[session.sessionKey]?

/-- A node whose flag is there and set. -/
def confirmed : Bool :=
  (flags.flag ⟨channel.rCid, channel.enigma, nid, channel.sessionKey⟩).getD false

/-- A node whose flag is there and not set. -/
def outstanding : Bool :=
  !(flags.flag ⟨channel.rCid, channel.enigma, nid, channel.sessionKey⟩).getD true

/-- `_addWindowEnd` for the nodes of a group. -/
def addWindowEnd (nodeIds : List Nid) (flags : WindowEnded) : WindowEnded :=
  let sessionKeyMap := single channel.sessionKey false
  let addNid := fun (nidMap : TreeMap Nid (TreeMap SessionKey Bool)) (nid : Nid) =>
    within nid sessionKeyMap (within channel.sessionKey false fun _ => false) nidMap
  let nidMap := nodeIds.foldl addNid ∅
  within channel.rCid (single channel.enigma nidMap)
    (within channel.enigma nidMap fun nidMap => nodeIds.foldl addNid nidMap) flags

def setFlag : WindowEnded :=
  adjust session.rCid (adjust session.enigma (adjust session.nid
    (adjust session.sessionKey fun _ => true))) flags

theorem flag_setFlag (sess other : Session) (flags : WindowEnded) :
    (flags.setFlag sess).flag other =
      if other = sess then (flags.flag other).map fun _ => true else flags.flag other := by
  have leaf := changes_adjust sess.sessionKey other.sessionKey fun _ : Bool => true
  have seen := (((leaf.level sess.nid other.nid).level sess.enigma other.enigma).level
    sess.rCid other.rCid).seen flags
  simp only [Session.eq_iff]
  exact seen

end WindowEnded

namespace Nap

/-- The node is entered with its last 16 bits only. -/
def addNodeId (nid : Nid) (nap : Nap) : Nap :=
  if nap.knownNids.contains nid then nap
  else { nap with knownNids := nap.knownNids.insertIfNew nid.toUInt16.toUInt32 false }

variable (nap : Nap) (channel : Channel)

def forwardingEnabled (nid : Nid) : Bool := (nap.knownNids[nid]?).getD false

/-- `Http::forwarding`, when the node's path is known or no longer. -/
def forwarding (nid : Nid) (state : Bool) (nap : Nap) : Nap :=
  { nap with knownNids := adjust nid (fun _ => state) nap.knownNids }

def addReverseLookUp (cid rCid : Cid) (nap : Nap) : Nap :=
  { nap with cIdReverseLookUp := nap.cIdReverseLookUp.insertIfNew rCid cid }

def ltpSessionActivityCheck : Bool :=
  (nap.ltpSessionActivity.entry channel).getD false

def ltpSessionActivitySet (status : Bool) (nap : Nap) : Nap :=
  { nap with ltpSessionActivity := nap.ltpSessionActivity.put channel status fun _ => status }

def deleteBufferedLtpPacket (nap : Nap) : Nap :=
  { nap with ltpPacketBuffer := nap.ltpPacketBuffer.deleteBufferedLtpPacket channel }

/-- The enigma is used unchecked, and a session is only looked for if the enigma has none. -/
def deleteLtpBufferEntry (nap : Nap) : Option Nap :=
  match nap.ltpPacketBuffer[channel.rCid]? with
  | none => some nap
  | some enigmaMap => if enigmaMap.contains channel.enigma then some nap else none

/-- Loops for as long as the session is active. -/
def cleanUpBuffers (nap : Nap) : Option Nap :=
  if nap.ltpSessionActivityCheck channel then none
  else do
    let nap ← (nap.deleteBufferedLtpPacket channel).deleteLtpBufferEntry channel
    return { nap with proxyPacketBuffer := nap.proxyPacketBuffer.deleteProxyPacket channel }

/-- `_publishWindowEnded` to a node. -/
def publishWindowEnded (session : Session) : List Publication :=
  if nap.forwardingEnabled session.nid then
    [⟨.nodes session.rCid [session.nid], .control (.windowEnded session.enigma session.sessionKey)⟩]
  else []

/-- `_publishDataRange` of the sNAP. -/
def publishNackGroup (nackGroup : NackGroup) :
    Option (List Publication) :=
  match nap.ltpPacketBuffer.entry channel with
  | none => some []
  | some packets => do
    let range ← packets.range nackGroup.startSequence nackGroup.endSequence
    return range.map fun packet => ⟨.nodes channel.rCid nackGroup.nodeIds, .data packet⟩

/-- `_publishDataRange` of the cNAP. -/
def publishDataRange (start finish : Seq) :
    Option (List Publication) :=
  match nap.cIdReverseLookUp[channel.rCid]? with
  | none => some []
  | some _ =>
    match nap.proxyPacketBuffer.entry channel with
    | none => some []
    | some packets => do
      let range ← packets.range start finish
      return range.map fun packet => ⟨.nodes channel.rCid [nap.nodeId], .data packet⟩

section

variable (rCid : Cid) (nid : Nid)
variable (stale : Seq) (enigma : Enigma) (sessionKey : SessionKey) (sequenceNumber : Seq)
variable (packet : List UInt8) (message : Control) (nap : Nap)

/-- `_handleData` with data from a cNAP. -/
def handleDataFromClient : Nap :=
  { nap with
    icnPacketBuffer := nap.icnPacketBuffer.handleData rCid nid packet
    potentialCmcGroups :=
      nap.potentialCmcGroups.addNid rCid (readDataHeader packet).enigma nid }

/-- A node's NACK. Its fragments are published again once all nodes of the group have answered. -/
def handleNack (start finish : Seq)
    (nap : Nap) : Option Reaction :=
  let channel : Channel := ⟨rCid, enigma, sessionKey⟩
  let nackGroups := nap.nackGroups.addNackNodeId stale channel ⟨nid, start, finish⟩
  let nap := { nap with nackGroups := nackGroups }
  match nap.cmcGroups.entry channel,
      nap.windowEndedResponses[rCid]?.bind fun enigmaMap => enigmaMap[enigma]? with
  | some cmcGroup, some _ =>
    let confirmedWeds := cmcGroup.countP (nap.windowEndedResponses.confirmed channel)
    let nackGroup := (nackGroups.entry channel).getD ⟨[], stale, stale⟩
    if cmcGroup.length > confirmedWeds + nackGroup.nodeIds.length then
      some ⟨nap, [], .noActionRequired⟩
    else do
      let published ← nap.publishNackGroup channel nackGroup
      return ⟨{ nap with nackGroups := nackGroups.deleteNackGroup channel }, published,
        .fragmentsOutstanding⟩
  | _, _ => some ⟨nap, [], .noActionRequired⟩

def handleReset : Reaction :=
  let removed := nap.cmcGroups.removeNid rCid nid
  let nap := { nap with
    potentialCmcGroups := nap.potentialCmcGroups.removeNid rCid nid
    cmcGroups := removed.1 }
  let deleteIfEmpty := fun (nap : Nap) (pair : Enigma × SessionKey) =>
    let channel : Channel := ⟨rCid, pair.1, pair.2⟩
    if nap.cmcGroups.cmcGroupEmpty channel then nap.deleteBufferedLtpPacket channel else nap
  ⟨removed.2.foldl deleteIfEmpty nap, [⟨.nodes rCid [nid], .control .resetted⟩], .noActionRequired⟩

def handleWindowEndFromClient : Option Reaction :=
  let session : Session := ⟨rCid, enigma, nid, sessionKey⟩
  let nap := { nap with
    potentialCmcGroups := nap.potentialCmcGroups.enableNIdInCmcGroup rCid enigma nid }
  match nap.icnPacketBuffer[rCid]? with
  | none => some ⟨nap, [], .fragmentsOutstanding⟩
  | some _ =>
    match nap.icnPacketBuffer.fragments session with
    -- the enigma, the node or the session key is unknown: confirmed anyway
    | none => some ⟨nap, nap.publishWindowEnded session, .fragmentsOutstanding⟩
    | some found => do
      let scan ← checkWindow (sequencesOf found) sequenceNumber.toNat
      if scan.allFragmentsReceived then
        return ⟨nap, nap.publishWindowEnded session, .allFragmentsReceived enigma sessionKey⟩
      else
        return ⟨nap, [⟨.nodes rCid [nid], .control (.nack enigma sessionKey
          (UInt16.ofNat scan.firstMissingSequence) (UInt16.ofNat scan.lastMissingSequence))⟩],
          .fragmentsOutstanding⟩

/-- The last confirmation of a group frees the session. -/
def handleWindowEndedFromClient :
    Reaction :=
  let channel : Channel := ⟨rCid, enigma, sessionKey⟩
  let session : Session := ⟨rCid, enigma, nid, sessionKey⟩
  match nap.windowEndedResponses.flag session with
  | none => ⟨nap, [], .noActionRequired⟩
  | some _ =>
    let nap := { nap with windowEndedResponses := nap.windowEndedResponses.setFlag session }
    match nap.cmcGroups.entry channel with
    | none => ⟨nap, [], .noActionRequired⟩
    | some cmcGroup =>
      if cmcGroup.any (nap.windowEndedResponses.outstanding channel) then
        ⟨nap, [], .noActionRequired⟩
      else
        ⟨(nap.deleteBufferedLtpPacket channel).ltpSessionActivitySet channel false, [],
          .fragmentsOutstanding⟩

/-- `_handleControl` with a message from a cNAP. -/
def handleControlFromClient : Option Reaction :=
  match message with
  | .nack enigma sessionKey start finish =>
    nap.handleNack rCid nid stale enigma sessionKey start finish
  | .reset => some (nap.handleReset rCid nid)
  | .resetted => some ⟨nap, [], .noActionRequired⟩
  | .sessionEnd _ sessionKey =>
    some ⟨nap, [⟨.nodes rCid [nid], .control (.sessionEnded 0 sessionKey)⟩], .noActionRequired⟩
  | .sessionEnded _ _ => some ⟨nap, [], .fragmentsOutstanding⟩
  | .windowEnd enigma sessionKey sequenceNumber =>
    nap.handleWindowEndFromClient rCid nid enigma sessionKey sequenceNumber
  | .windowEnded enigma sessionKey =>
    some (nap.handleWindowEndedFromClient rCid nid enigma sessionKey)
  | .windowUpdate _ _ => some ⟨nap, [], .fragmentsOutstanding⟩
  | .windowUpdated _ _ => some ⟨nap, [], .noActionRequired⟩

/-- `handle` with a packet from a cNAP. -/
def handleFromClient : Option Reaction :=
  let nap := nap.addNodeId nid
  match readMessage .sNap packet with
  | .data _ _ => some ⟨nap.handleDataFromClient rCid nid packet, [], .noActionRequired⟩
  | .control message => nap.handleControlFromClient rCid nid stale message
  | .unknown => some ⟨nap, [], .noActionRequired⟩

end

section

variable (rCid : Cid)
variable (enigma : Enigma) (sessionKey : SessionKey) (sequenceNumber : Seq) (packet : List UInt8)
variable (message : Control) (nap : Nap)

/-- `_handleData` with data from an sNAP, kept under the node of this NAP. -/
def handleDataFromServer : Nap :=
  { nap with icnPacketBuffer := nap.icnPacketBuffer.handleData rCid nap.nodeId packet }

def handleWindowEndFromServer : Option Reaction :=
  let windowEnded := fun cid : Cid =>
    (⟨.implicit cid rCid, .control (.windowEnded enigma sessionKey)⟩ : Publication)
  match nap.icnPacketBuffer[rCid]?.bind fun enigmaMap => enigmaMap[enigma]? with
  | none => some ⟨nap, [], .noActionRequired⟩
  | some nodeIdMap =>
    match nodeIdMap[nap.nodeId]? with
    -- the node is unknown: confirmed anyway
    | none =>
      some ⟨nap, (nap.cIdReverseLookUp[rCid]?).toList.map windowEnded, .noActionRequired⟩
    | some sessionKeyMap =>
      match sessionKeyMap[sessionKey]? with
      | none => some ⟨nap, [], .noActionRequired⟩
      | some found => do
        let scan ← checkWindow (sequencesOf found) sequenceNumber.toNat
        match nap.cIdReverseLookUp[rCid]? with
        | none => return ⟨nap, [], .noActionRequired⟩
        | some cid =>
          if scan.allFragmentsReceived then
            return ⟨nap, [windowEnded cid], .allFragmentsReceived enigma sessionKey⟩
          else
            return ⟨nap, [⟨.implicit cid rCid, .control (.nack enigma sessionKey
              (UInt16.ofNat scan.firstMissingSequence)
              (UInt16.ofNat scan.lastMissingSequence))⟩], .noActionRequired⟩

/-- Only the session key is read from a CTRL-SED; the enigma is that of the caller, zero. -/
def handleControlFromServer : Option Reaction :=
  match message with
  | .nack enigma sessionKey start finish => do
    let published ← nap.publishDataRange ⟨rCid, enigma, sessionKey⟩ start finish
    return ⟨nap, published, .noActionRequired⟩
  | .reset | .resetted => some ⟨nap, [], .noActionRequired⟩
  | .sessionEnd enigma sessionKey =>
    -- `cidLookup` succeeds with an empty identifier if the rCID is unknown
    let cid := (nap.cIdReverseLookUp[rCid]?).getD 0
    some ⟨nap, [⟨.implicit cid rCid, .control (.sessionEnded enigma sessionKey)⟩],
      .sessionEnded enigma sessionKey⟩
  | .sessionEnded _ sessionKey => do
    let nap ← nap.cleanUpBuffers ⟨rCid, 0, sessionKey⟩
    return ⟨nap, [], .noActionRequired⟩
  | .windowEnd enigma sessionKey sequenceNumber =>
    nap.handleWindowEndFromServer rCid enigma sessionKey sequenceNumber
  | .windowEnded enigma sessionKey =>
    some ⟨{ nap with windowEndedRequests :=
      nap.windowEndedRequests.modify ⟨rCid, enigma, sessionKey⟩ fun _ => true }, [],
      .noActionRequired⟩
  | .windowUpdate enigma sessionKey =>
    some ⟨nap, (nap.cIdReverseLookUp[rCid]?).toList.map fun cid =>
      ⟨.implicit cid rCid, .control (.windowUpdated enigma sessionKey)⟩, .noActionRequired⟩
  | .windowUpdated _ _ => some ⟨nap, [], .noActionRequired⟩

/-- `handle` with a packet from an sNAP. -/
def handleFromServer : Option Reaction :=
  match readMessage .cNap packet with
  | .data _ _ => some ⟨nap.handleDataFromServer rCid packet, [], .noActionRequired⟩
  | .control message => nap.handleControlFromServer rCid message
  | .unknown => some ⟨nap, [], .noActionRequired⟩

end

/-- A control message leaves the ICN packet buffer and the flags, and the packets and activity of a
session unless it ends them. -/
structure Settles (nap later : Nap) : Prop where
  nodeId : later.nodeId = nap.nodeId
  icnPacketBuffer : later.icnPacketBuffer = nap.icnPacketBuffer
  flags : ∀ session, later.windowEndedResponses.flag session = nap.windowEndedResponses.flag session
  packets : ∀ channel, later.ltpPacketBuffer.entry channel = nap.ltpPacketBuffer.entry channel ∨
    later.ltpPacketBuffer.entry channel = some ∅
  activity : ∀ channel,
    later.ltpSessionActivityCheck channel = nap.ltpSessionActivityCheck channel ∨
      later.ltpSessionActivityCheck channel = false

section

variable {nap later : Nap}

theorem Settles.refl (nap : Nap) : nap.Settles nap :=
  ⟨rfl, rfl, fun _ => rfl, fun _ => .inl rfl, fun _ => .inl rfl⟩

theorem Settles.trans {latest : Nap} (first : nap.Settles later) (second : later.Settles latest) :
    nap.Settles latest where
  nodeId := second.nodeId.trans first.nodeId
  icnPacketBuffer := second.icnPacketBuffer.trans first.icnPacketBuffer
  flags sess := (second.flags sess).trans (first.flags sess)
  packets chan := by
    rcases second.packets chan with hs | deleted
    · rw [hs]
      exact first.packets chan
    · exact .inr deleted
  activity chan := by
    rcases second.activity chan with hs | ended
    · rw [hs]
      exact first.activity chan
    · exact .inr ended

theorem settles_deleteBufferedLtpPacket (chan : Channel) :
    nap.Settles (nap.deleteBufferedLtpPacket chan) where
  nodeId := rfl
  icnPacketBuffer := rfl
  flags _ := rfl
  packets other := by
    rw [deleteBufferedLtpPacket, SentPackets.deleteBufferedLtpPacket, PerSession.entry_modify]
    split
    · cases nap.ltpPacketBuffer.entry other with
      | none => exact .inl rfl
      | some _ => exact .inr rfl
    · exact .inl rfl
  activity _ := .inl rfl

theorem settles_ltpSessionActivitySet (chan : Channel) :
    nap.Settles (nap.ltpSessionActivitySet chan false) where
  nodeId := rfl
  icnPacketBuffer := rfl
  flags _ := rfl
  packets _ := .inl rfl
  activity other := by
    rw [ltpSessionActivityCheck, ltpSessionActivitySet, PerSession.entry_put]
    split
    · right
      cases nap.ltpSessionActivity.entry other <;> rfl
    · exact .inl rfl

theorem settles_of_eq (nodeId : later.nodeId = nap.nodeId := by rfl)
    (icnPacketBuffer : later.icnPacketBuffer = nap.icnPacketBuffer := by rfl)
    (flags : later.windowEndedResponses = nap.windowEndedResponses := by rfl)
    (pkts : later.ltpPacketBuffer = nap.ltpPacketBuffer := by rfl)
    (activity : later.ltpSessionActivity = nap.ltpSessionActivity := by rfl) :
    nap.Settles later where
  nodeId := nodeId
  icnPacketBuffer := icnPacketBuffer
  flags _ := by rw [flags]
  packets chan := by
    rw [pkts]
    exact .inl rfl
  activity chan := by
    rw [ltpSessionActivityCheck, activity]
    exact .inl rfl

end

section

variable {nap : Nap} {rCid : Cid} {nid : Nid} {stale : Seq} {reaction : Reaction}

/-- The loop over the sessions of the node deletes packets only. -/
theorem nap_handleReset : (nap.handleReset rCid nid).nap.potentialCmcGroups =
      nap.potentialCmcGroups.removeNid rCid nid ∧
    (nap.handleReset rCid nid).nap.cmcGroups = (nap.cmcGroups.removeNid rCid nid).1 ∧
    nap.Settles (nap.handleReset rCid nid).nap := by
  refine List.foldlRecOn (motive := fun later : Nap =>
    later.potentialCmcGroups = nap.potentialCmcGroups.removeNid rCid nid ∧
      later.cmcGroups = (nap.cmcGroups.removeNid rCid nid).1 ∧ nap.Settles later) _ _
    ⟨rfl, rfl, settles_of_eq⟩ fun later ⟨potential, groups, settled⟩ _ _ => ?_
  dsimp only
  split
  · exact ⟨potential, groups, settled.trans (settles_deleteBufferedLtpPacket _)⟩
  · exact ⟨potential, groups, settled⟩

variable {enigma : Enigma} {sessionKey : SessionKey} {sequenceNumber : Seq} {message : Control}

theorem nap_handleNack {start finish : Seq}
    (hh : nap.handleNack rCid nid stale enigma sessionKey start finish = some reaction) :
    ∃ nackGroups, reaction.nap = { nap with nackGroups := nackGroups } := by
  unfold handleNack at hh
  dsimp only at hh
  split at hh
  · split at hh
    · cases hh
      exact ⟨_, rfl⟩
    · obtain ⟨published, _, rest⟩ := bind_eq_some_iff.mp hh
      cases rest
      exact ⟨_, rfl⟩
  · cases hh
    exact ⟨_, rfl⟩

theorem nap_handleWindowEndFromClient
    (hh : nap.handleWindowEndFromClient rCid nid enigma sessionKey sequenceNumber = some
      reaction) : reaction.nap = { nap with potentialCmcGroups :=
        nap.potentialCmcGroups.enableNIdInCmcGroup rCid enigma nid } := by
  unfold handleWindowEndFromClient at hh
  dsimp only at hh
  split at hh
  · cases hh
    rfl
  split at hh
  · cases hh
    rfl
  obtain ⟨scan, _, rest⟩ := bind_eq_some_iff.mp hh
  split at rest
  · cases rest
    rfl
  · cases rest
    rfl

/-- The flag that a message sets. -/
def flagged (rCid : Cid) (nid : Nid) (nap : Nap) : Control → Nap
  | .windowEnded enigma sessionKey =>
    { nap with
      windowEndedResponses := nap.windowEndedResponses.setFlag ⟨rCid, enigma, nid, sessionKey⟩ }
  | _ => nap

theorem settles_handleWindowEndedFromClient {enigma : Enigma} {key : SessionKey} :
    (nap.flagged rCid nid (.windowEnded enigma key)).Settles
      (nap.handleWindowEndedFromClient rCid nid enigma key).nap := by
  unfold handleWindowEndedFromClient
  dsimp only
  split
  · rename_i unknown
    refine ⟨rfl, rfl, fun sess => ?_, fun _ => .inl rfl, fun _ => .inl rfl⟩
    rw [flagged, WindowEnded.flag_setFlag]
    split
    · rename_i hs
      rw [hs, unknown]
      rfl
    · rfl
  · split
    · exact .refl _
    · split
      · exact .refl _
      · exact (settles_deleteBufferedLtpPacket _).trans (settles_ltpSessionActivitySet _)

/-- Of the flags only the one of the message is set. -/
theorem settles_handleControlFromClient
    (hh : nap.handleControlFromClient rCid nid stale message = some reaction) :
    (nap.flagged rCid nid message).Settles reaction.nap := by
  cases message with
  | nack =>
    obtain ⟨nackGroups, same⟩ := nap_handleNack hh
    rw [same]
    exact settles_of_eq
  | reset =>
    cases hh
    exact nap_handleReset.2.2
  | windowEnd =>
    rw [nap_handleWindowEndFromClient hh]
    exact settles_of_eq
  | windowEnded =>
    cases hh
    exact settles_handleWindowEndedFromClient
  | resetted | sessionEnd _ _ | sessionEnded _ _ | windowUpdate _ _ | windowUpdated _ _ =>
    cases hh
    exact .refl nap

theorem icnPacketBuffer_handleControlFromClient
    (hh : nap.handleControlFromClient rCid nid stale message = some reaction) :
    reaction.nap.icnPacketBuffer = nap.icnPacketBuffer := by
  rw [(settles_handleControlFromClient hh).icnPacketBuffer]
  unfold flagged
  split
  · rfl
  · rfl

theorem settles_cleanUpBuffers {chan : Channel} {later : Nap}
    (hc : nap.cleanUpBuffers chan = some later) : nap.Settles later := by
  unfold cleanUpBuffers at hc
  split at hc
  · cases hc
  obtain ⟨middle, deleted, rest⟩ := bind_eq_some_iff.mp hc
  cases rest
  have hs : middle = nap.deleteBufferedLtpPacket chan := by
    unfold deleteLtpBufferEntry at deleted
    split at deleted
    · exact (some.inj deleted).symm
    · split at deleted
      · exact (some.inj deleted).symm
      · cases deleted
  rw [hs]
  exact (settles_deleteBufferedLtpPacket chan).trans (settles_of_eq)

theorem nap_handleWindowEndFromServer
    (hh : nap.handleWindowEndFromServer rCid enigma sessionKey sequenceNumber = some reaction) :
    reaction.nap = nap := by
  unfold handleWindowEndFromServer at hh
  split at hh
  · cases hh
    rfl
  split at hh
  · cases hh
    rfl
  split at hh
  · cases hh
    rfl
  obtain ⟨scan, _, rest⟩ := bind_eq_some_iff.mp hh
  split at rest
  · cases rest
    rfl
  split at rest
  · cases rest
    rfl
  · cases rest
    rfl

theorem settles_handleControlFromServer
    (hh : nap.handleControlFromServer rCid message = some reaction) : nap.Settles reaction.nap := by
  cases message with
  | nack =>
    obtain ⟨published, _, rest⟩ := bind_eq_some_iff.mp hh
    cases rest
    exact .refl nap
  | sessionEnded =>
    obtain ⟨later, hc, rest⟩ := bind_eq_some_iff.mp hh
    cases rest
    exact settles_cleanUpBuffers hc
  | windowEnd =>
    rw [nap_handleWindowEndFromServer hh]
    exact .refl nap
  | windowEnded =>
    cases hh
    exact settles_of_eq
  | reset | resetted | sessionEnd _ _ | windowUpdate _ _ | windowUpdated _ _ =>
    cases hh
    exact .refl nap

end

end Nap

end Blackadder.Ltp
