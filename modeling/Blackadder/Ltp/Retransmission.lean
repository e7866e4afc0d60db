import Blackadder.Ltp.Publishing

namespace Blackadder.Ltp

open Option Nap UInt16

open Std (TreeMap)
open NestedMap

/-- The fragments of the newest message of every session, as they were first published. -/
abbrev Originals : Type := Channel → TreeMap Seq Publication

namespace Originals

/-- A message begins. -/
def start (channel : Channel) (originals : Originals) : Originals := fun other =>
  if other = channel then ∅ else originals other

def add (channel : Channel) (sequenceNumber : Seq) (publication : Publication)
    (originals : Originals) : Originals := fun other =>
  if other = channel then
    if (originals other).contains sequenceNumber then originals other
    else (originals other).insert sequenceNumber publication
  else originals other

end Originals

/-- The same bytes, in the same way: implicitly under the CID, or to the nodes that have asked. -/
def Repeats (requesting : List Nid) (original again : Publication) : Prop :=
  again.content = original.content ∧
    match original.route with
    | .implicit cid rCid => again.route = .implicit cid rCid
    | .nodes rCid _ => again.route = .nodes rCid requesting

/-- Every packet is one of the originals again. -/
def RepeatsAll (requesting : List Nid) (originals : TreeMap Seq Publication)
    (published : List Publication) : Prop :=
  ∀ again ∈ published, ∃ (sequence : Seq) (original : Publication),
    originals[sequence]? = some original ∧ Repeats requesting original again

variable {pkt : List UInt8} {finish : Seq} {rounds : Nat}

theorem Packets.mem_rangeFrom {pkts : Packets} {seq : Seq} {range : List (List UInt8)}
    (hl : pkts.rangeFrom finish rounds seq = some range) (hm : pkt ∈ range) :
    ∃ key : Seq, pkts[key]? = some pkt := by
  induction rounds generalizing seq range with
  | zero => cases hl
  | succ rounds ih =>
    unfold rangeFrom at hl
    split at hl
    · split at hl
      · cases hl
        cases hm
      · rename_i first hf
        obtain ⟨later, loopedLater, rest⟩ := bind_eq_some_iff.mp hl
        cases rest
        cases hm with
        | head => exact ⟨seq, hf⟩
        | tail _ inside => exact ih loopedLater inside
    · cases hl
      cases hm

/-- What the sNAP has published of its newest messages after a step. -/
def Originals.after (server : Server) (originals : Originals) : ServerEvent → Originals
  | .publish channel _ _ _ _ _ => originals.start channel
  | .send channel =>
    match server.calls channel with
    | some ⟨nodeIds, _, .sending sequenceNumber (packet :: _)⟩ =>
      originals.add channel (sequenceNumber + 1)
        ⟨.nodes channel.rCid nodeIds, .data packet⟩
    | _ => originals
  | _ => originals

namespace Server

/-- A state that the sNAP comes to by allowed steps, with what it has published. -/
inductive Reached (allowed : Server → ServerEvent → Prop) (nodeId : Nid) :
    Server → Originals → Prop
  | initial : Reached allowed nodeId (initial nodeId) fun _ => ∅
  | step {server next : Server} {originals : Originals} {event : ServerEvent}
      {published : List Publication} (before : Reached allowed nodeId server originals)
      (admitted : allowed server event) (stepped : server.step event = some (next, published)) :
      Reached allowed nodeId next (originals.after server event)

end Server

/-- A message, whose size is a 16-bit number, finds nothing left in the buffer. -/
def ServerEvent.Fresh (server : Server) : ServerEvent → Prop
  | .publish channel _ data _ _ _ => data.length ≤ 65535 ∧
      ((server.nap.ltpPacketBuffer.entry channel).getD ∅).isEmpty = true
  | _ => True

section

variable {enigma : Enigma} {key : SessionKey} {unit : UInt32} {data : List UInt8}
  {stale : Stale}

theorem length_segments {sending : Sending} {sent : List (List UInt8) × Seq}
    (hl : segments enigma key unit data stale rounds sending = some sent) :
    sent.1.length ≤ rounds := by
  induction rounds generalizing sending sent with
  | zero =>
    unfold segments at hl
    split at hl
    · cases hl
    · cases hl
      exact Nat.le_refl 0
  | succ rounds ih =>
    unfold segments at hl
    split at hl
    · obtain ⟨later, loopedLater, rest⟩ := bind_eq_some_iff.mp hl
      cases rest
      have hb := ih loopedLater
      simp only [List.length_cons]
      omega
    · cases hl
      simp

end

/-- The packets of a session stay, or all go. -/
def Nap.Loses (nap later : Nap) (channel : Channel) : Prop :=
  later.ltpPacketBuffer.entry channel = nap.ltpPacketBuffer.entry channel ∨
    (later.ltpPacketBuffer.entry channel).getD ∅ = ∅

section

variable {nap later : Nap}

theorem Nap.Settles.loses (hs : nap.Settles later) (channel : Channel) :
    nap.Loses later channel := by
  rcases hs.packets channel with same | deleted
  · exact .inl same
  · right
    rw [deleted]
    rfl

theorem Nap.loses_handleFromClient {rCid : Cid} {nid : Nid} {stale : Seq} {reaction : Reaction}
    (hh : nap.handleFromClient rCid nid stale pkt = some reaction) (channel : Channel) :
    nap.Loses reaction.nap channel := by
  have hk : (nap.addNodeId nid).ltpPacketBuffer = nap.ltpPacketBuffer := by
    unfold addNodeId
    split
    · rfl
    · rfl
  rw [Nap.Loses, ← hk]
  unfold handleFromClient at hh
  split at hh
  · cases hh
    exact .inl rfl
  · have loses := (settles_handleControlFromClient hh).loses channel
    unfold Nap.Loses flagged at loses
    split at loses
    · exact loses
    · exact loses
  · cases hh
    exact .inl rfl

theorem Nap.loses_clean (cleaned channel : Channel) :
    nap.Loses { nap with ltpPacketBuffer := nap.ltpPacketBuffer.clean cleaned } channel := by
  unfold Nap.Loses
  rw [SentPackets.entry_clean]
  split
  · exact .inr rfl
  · exact .inl rfl

end

variable {published : List Publication} {nodeId : Nid}

namespace Server

/-- The packets in a session's buffer are originals, and a message is numbered upwards. -/
structure Keeps (server : Server) (originals : Originals) (channel : Channel) : Prop where
  packets : ∀ (sequence : Seq) packet,
    ((server.nap.ltpPacketBuffer.entry channel).getD ∅)[sequence]? = some packet →
      ∃ nodeIds, (originals channel)[sequence]? =
        some ⟨.nodes channel.rCid nodeIds, .data packet⟩
  numbers : ∀ nodeIds last sequenceNumber left,
    server.calls channel = some ⟨nodeIds, last, .sending sequenceNumber left⟩ →
      sequenceNumber.toNat + left.length ≤ 65535 ∧
        ∀ sequence : Seq, (originals channel)[sequence]? ≠ none → sequence ≤ sequenceNumber

section

variable {server next : Server} {originals : Originals} {channel other : Channel} {nap : Nap}

/-- A buffer that only loses packets keeps its originals. -/
theorem Keeps.lose (keeps : server.Keeps originals channel)
    (loses : server.nap.Loses next.nap channel) (calls : ∀ nids last seqNo left,
      next.calls channel = some ⟨nids, last, .sending seqNo left⟩ →
        server.calls channel = some ⟨nids, last, .sending seqNo left⟩) :
    next.Keeps originals channel where
  packets seq pkt hf := by
    apply keeps.packets seq pkt
    rcases loses with same | hg
    · rw [same] at hf
      exact hf
    · rw [hg] at hf
      cases TreeMap.getElem?_emptyc.symm.trans hf
  numbers nids last seqNo left called :=
    keeps.numbers nids last seqNo left (calls nids last seqNo left called)

/-- A session of which a step neither publishes nor loses anything. -/
theorem Keeps.spare {later : Originals} (keeps : server.Keeps originals channel)
    (published : later channel = originals channel)
    (packets : next.nap.ltpPacketBuffer.entry channel = server.nap.ltpPacketBuffer.entry channel)
    (calls : next.calls channel = server.calls channel) : next.Keeps later channel where
  packets := by
    rw [published, packets]
    exact keeps.packets
  numbers := by
    rw [published, calls]
    exact keeps.numbers

theorem entry_bufferLtpPacket (seqNo : Seq) (pkt : List UInt8) :
    ((nap.bufferLtpPacket channel seqNo pkt).ltpPacketBuffer.entry channel).getD ∅ =
      if ((nap.ltpPacketBuffer.entry channel).getD ∅).contains seqNo then
        (nap.ltpPacketBuffer.entry channel).getD ∅
      else ((nap.ltpPacketBuffer.entry channel).getD ∅).insert seqNo pkt := by
  rw [bufferLtpPacket, SentPackets.bufferLtpPacket, PerSession.entry_put, if_pos rfl]
  cases nap.ltpPacketBuffer.entry channel with
  | some => rfl
  | none =>
    have ha : (∅ : Packets).contains seqNo = false := TreeMap.contains_emptyc
    rfl

open Originals

/-- The next fragment has a number that is not used yet, in the buffer and among the originals. -/
theorem Keeps.send (keeps : server.Keeps originals channel) {nids : List Nid} {last seqNo : Seq}
    {left : List (List UInt8)}
    (called : server.calls channel = some ⟨nids, last, .sending seqNo (pkt :: left)⟩) :
    (server.setCall channel (some ⟨nids, last, .sending (seqNo + 1) left⟩)
      (server.nap.bufferLtpPacket channel (seqNo + 1) pkt)).Keeps
      (originals.add channel (seqNo + 1) ⟨.nodes channel.rCid nids, .data pkt⟩) channel := by
  obtain ⟨room, hb⟩ := keeps.numbers nids last seqNo _ called
  rw [List.length_cons] at room
  have num : (seqNo + 1).toNat = seqNo.toNat + 1 := Packets.toNat_succ (by omega)
  have hu : (originals channel)[seqNo + 1]? = none := by
    apply Classical.byContradiction
    intro used
    have high := le_iff_toNat_le.mp (hb _ used)
    omega
  have free : ((server.nap.ltpPacketBuffer.entry channel).getD ∅).contains (seqNo + 1) = false := by
    rw [← Bool.not_eq_true, TreeMap.contains_iff_mem, TreeMap.mem_iff_isSome_getElem?]
    intro isSome
    obtain ⟨old, hf⟩ := isSome_iff_exists.mp isSome
    obtain ⟨_, orig⟩ := keeps.packets _ old hf
    rw [hu] at orig
    cases orig
  have added : originals.add channel (seqNo + 1) ⟨.nodes channel.rCid nids, .data pkt⟩ channel =
      (originals channel).insert (seqNo + 1) ⟨.nodes channel.rCid nids, .data pkt⟩ := by
    rw [add, if_pos rfl, if_neg]
    rw [TreeMap.contains_iff_mem, TreeMap.mem_iff_isSome_getElem?, hu]
    exact Bool.false_ne_true
  constructor
  · intro seq stored hf
    rw [setCall, entry_bufferLtpPacket, free, if_neg Bool.false_ne_true, getElem?_insert] at hf
    rw [added, getElem?_insert]
    split at hf
    · rename_i same
      cases hf
      rw [if_pos same]
      exact ⟨nids, rfl⟩
    · rename_i hd
      rw [if_neg hd]
      exact keeps.packets seq stored hf
  · intro nodeIds' last' seqNo' left' called'
    rw [calls_setCall_self] at called'
    cases called'
    refine ⟨by omega, fun seq used => ?_⟩
    rw [added, getElem?_insert] at used
    rw [le_iff_toNat_le]
    split at used
    · rename_i same
      exact Nat.le_of_eq (congrArg toNat same)
    · have low := le_iff_toNat_le.mp (hb seq used)
      omega

/-- A step in the call of one session that only loses packets, and does not go on sending. -/
theorem keeps_setCall {call : Option Call} (keeps : ∀ channel, server.Keeps originals channel)
    (loses : ∀ other, server.nap.Loses nap other) (phase : ∀ nids last seqNo left,
      call ≠ some ⟨nids, last, .sending seqNo left⟩) (other : Channel) :
    (server.setCall channel call nap).Keeps originals other := by
  apply (keeps other).lose (loses other)
  intro nids last seqNo left called
  by_cases same : other = channel
  · rw [same, calls_setCall_self] at called
    exact absurd called (phase nids last seqNo left)
  · rw [calls_setCall_other same] at called
    exact called

theorem keeps_step {event : ServerEvent} (keeps : ∀ channel, server.Keeps originals channel)
    (fresh : event.Fresh server) (hs : server.step event = some (next, published)) (other : Channel)
    : next.Keeps (originals.after server event) other := by
  unfold step at hs
  cases event with
  | publish channel nids =>
    dsimp only at hs
    split at hs
    · cases hs
    obtain ⟨frags, segmented, rest⟩ := bind_eq_some_iff.mp hs
    cases rest
    by_cases same : other = channel
    · subst same
      have none : ∀ seq : Seq, (originals.start other other)[seq]? = none := by
        intro seq
        rw [start, if_pos rfl]
        exact TreeMap.getElem?_emptyc
      constructor
      · intro seq pkt hf
        cases (TreeMap.getElem?_of_isEmpty fresh.2).symm.trans hf
      · intro nids last seqNo left called
        rw [calls_setCall_self] at called
        cases called
        have hb := length_segments segmented
        refine ⟨?_, fun seq used => absurd (none seq) used⟩
        rw [show (0 : Seq).toNat = 0 from rfl]
        have size := fresh.1
        omega
    · exact (keeps other).spare (if_neg same) rfl (calls_setCall_other same _)
  | send channel =>
    dsimp only at hs
    split at hs
    · rename_i nids last seqNo pkt left called
      cases hs
      have after : originals.after server (.send channel) = originals.add channel
          (seqNo + 1) ⟨.nodes channel.rCid nids, .data pkt⟩ := by
        simp only [after, called]
      rw [after]
      by_cases same : other = channel
      · subst same
        exact (keeps other).send called
      · apply (keeps other).spare (if_neg same) _ (calls_setCall_other same _)
        rw [setCall, bufferLtpPacket, SentPackets.bufferLtpPacket, PerSession.entry_put,
          if_neg same]
    · cases hs
  | giveUp =>
    dsimp only at hs
    split at hs
    · cases hs
      exact (keeps other).lose (.inl rfl) fun _ _ _ _ called => called
    · cases hs
  | windowEnd =>
    dsimp only at hs
    split at hs
    · cases hs
      apply keeps_setCall keeps
      · exact fun _ => .inl rfl
      · rintro _ _ _ _ ⟨⟩
    · cases hs
  | confirmed =>
    dsimp only at hs
    split at hs
    · split at hs
      · cases hs
        apply keeps_setCall keeps
        · exact fun _ => .inl rfl
        · rintro _ _ _ _ ⟨⟩
      · cases hs
    · cases hs
  | timeout channel =>
    dsimp only at hs
    split at hs
    · split at hs
      · cases hs
        apply keeps_setCall keeps
        · exact ((settles_deleteBufferedLtpPacket channel).trans
            (settles_ltpSessionActivitySet channel)).loses
        · rintro _ _ _ _ ⟨⟩
      · cases hs
        apply keeps_setCall keeps
        · exact fun _ => .inl rfl
        · rintro _ _ _ _ ⟨⟩
    · cases hs
  | fromClient =>
    obtain ⟨reaction, hh, rest⟩ := bind_eq_some_iff.mp hs
    cases rest
    exact (keeps other).lose (loses_handleFromClient hh other) fun _ _ _ _ called => called
  | cleanUp =>
    obtain ⟨nap, hc, rest⟩ := bind_eq_some_iff.mp hs
    cases rest
    exact (keeps other).lose ((settles_cleanUpBuffers hc).loses other) fun _ _ _ _ called => called
  | clean channel =>
    cases hs
    exact (keeps other).lose (loses_clean channel other) fun _ _ _ _ called => called
  | elsewhere =>
    cases hs
    exact (keeps other).lose (.inl rfl) fun _ _ _ _ called => called

theorem keeps_reached (hr : Reached ServerEvent.Fresh nodeId server originals) :
    ∀ channel, server.Keeps originals channel := by
  induction hr with
  | initial =>
    intro channel
    refine ⟨fun seq pkt hf => ?_, nofun⟩
    cases TreeMap.getElem?_emptyc.symm.trans hf
  | step before admitted stepped ih => exact keeps_step ih admitted stepped

end

end Server

section

variable {nap : Nap} {rCid : Cid} {nid : Nid} {stale : Seq} {enigma : Enigma}
  {key : SessionKey} {start finish : Seq} {reaction : Reaction}

/-- The nodes for which the sNAP publishes again. -/
def Requesting (nap : Nap) (stale : Seq) (channel : Channel) (nack : Nack)
    (nids : List Nid) : Prop :=
  nack.nid ∈ nids ∧ ∃ group, (nap.nackGroups.addNackNodeId stale channel nack).entry channel =
    some group ∧ group.nodeIds = nids

theorem exists_requesting (nap : Nap) (stale : Seq) (chan : Channel) (nack : Nack) :
    ∃ group, (nap.nackGroups.addNackNodeId stale chan nack).entry chan = some group ∧
      nack.nid ∈ group.nodeIds := by
  rw [NackGroups.entry_addNackNodeId, if_pos rfl]
  refine ⟨_, rfl, ?_⟩
  cases nap.nackGroups.entry chan with
  | none => exact List.mem_singleton_self _
  | some group =>
    change nack.nid ∈ if group.nodeIds.contains nack.nid then group.nodeIds
      else group.nodeIds ++ [nack.nid]
    split
    · rename_i ht
      exact List.contains_iff_mem.mp ht
    · exact List.mem_append_right _ (List.mem_singleton_self _)

/-- Whatever a NACK makes the sNAP publish is in the buffer, and goes to the nodes that asked. -/
theorem published_handleNack
    (hh : nap.handleNack rCid nid stale enigma key start finish = some reaction) :
    ∃ nids, Requesting nap stale ⟨rCid, enigma, key⟩ ⟨nid, start, finish⟩ nids ∧
      ∀ again ∈ reaction.published, ∃ (seq : Seq) (pkt : List UInt8),
        ((nap.ltpPacketBuffer.entry ⟨rCid, enigma, key⟩).getD ∅)[seq]? = some pkt ∧
          again = ⟨.nodes rCid nids, .data pkt⟩ := by
  obtain ⟨group, hf, has⟩ := exists_requesting nap stale ⟨rCid, enigma, key⟩ ⟨nid, start, finish⟩
  refine ⟨group.nodeIds, ⟨has, group, hf, rfl⟩, ?_⟩
  unfold handleNack at hh
  dsimp only at hh
  split at hh
  · split at hh
    · cases hh
      exact fun again hm => nomatch hm
    · obtain ⟨published, range, rest⟩ := bind_eq_some_iff.mp hh
      cases rest
      intro again hm
      rw [hf] at range
      unfold publishNackGroup at range
      split at range
      · cases range
        cases hm
      rename_i pkts entry
      obtain ⟨ranged, hl, rest⟩ := bind_eq_some_iff.mp range
      cases rest
      obtain ⟨pkt, hi, rfl⟩ := List.mem_map.mp hm
      obtain ⟨seq, hs⟩ := Packets.mem_rangeFrom hl hi
      refine ⟨seq, pkt, ?_, rfl⟩
      rw [entry]
      exact hs
  · cases hh
    exact fun again hm => nomatch hm

end

/-- A call of `publish` with a CID, and where it is. -/
structure Request where
  cid : Cid
  last : Seq
  phase : Phase

/-- The cNAP. -/
structure Client where
  nap : Nap
  calls : Channel → Option Request

inductive ClientEvent
  | publish (channel : Channel) (cid : Cid) (data : List UInt8) (stale : Stale) (mtu : UInt16)
      (cidLength rCidLength : UInt32)
  | send (channel : Channel)
  | windowEnd (channel : Channel)
  /-- The confirmation is found, and the call returns. -/
  | confirmed (channel : Channel)
  | timeout (channel : Channel)
  | fromServer (rCid : Cid) (packet : List UInt8)
  | cleanUp (channel : Channel)
  /-- What other threads do without the proxy packets and the confirmations of requests. -/
  | elsewhere (change : Nap → Nap)

def Nap.bufferProxyPacket (channel : Channel) (sequenceNumber : Seq) (packet : List UInt8)
    (nap : Nap) : Nap :=
  { nap with
    proxyPacketBuffer := nap.proxyPacketBuffer.bufferProxyPacket channel sequenceNumber packet }

/-- `_addWindowEnd` of a request. -/
def Nap.addRequestWindowEnd (channel : Channel) (nap : Nap) : Nap :=
  { nap with windowEndedRequests := nap.windowEndedRequests.put channel false fun _ => false }

namespace Client

def initial (nodeId : Nid) : Client := ⟨Nap.initial nodeId, fun _ => none⟩

def setCall (client : Client) (channel : Channel) (call : Option Request) (nap : Nap) : Client :=
  ⟨nap, fun other => if other = channel then call else client.calls other⟩

def windowEndTo (channel : Channel) (request : Request) : Publication :=
  ⟨.implicit request.cid channel.rCid,
    .control (.windowEnd channel.enigma channel.sessionKey request.last)⟩

def step (client : Client) (event : ClientEvent) : Option (Client × List Publication) :=
  match event with
  | .publish channel cid data stale mtu cidLength rCidLength =>
    if (client.calls channel).isSome then none
    else do
      let fragments ← requestFragments channel.enigma channel.sessionKey data stale mtu cidLength
        rCidLength
      return (client.setCall channel (some ⟨cid, fragments.2, .sending 0 fragments.1⟩)
        (client.nap.addReverseLookUp cid channel.rCid), [])
  | .send channel =>
    match client.calls channel with
    | some ⟨cid, last, .sending sequenceNumber (packet :: left)⟩ =>
      some (client.setCall channel (some ⟨cid, last, .sending (sequenceNumber + 1) left⟩)
        (client.nap.bufferProxyPacket channel (sequenceNumber + 1) packet),
        [⟨.implicit cid channel.rCid, .data packet⟩])
    | _ => none
  | .windowEnd channel =>
    match client.calls channel with
    | some ⟨cid, last, .sending _ []⟩ =>
      let request : Request := ⟨cid, last, .polling windowEndAttempts⟩
      some (client.setCall channel (some request) (client.nap.addRequestWindowEnd channel),
        [windowEndTo channel request])
    | _ => none
  | .confirmed channel =>
    match client.calls channel with
    | some ⟨_, _, .polling _⟩ =>
      match client.nap.windowEndedRequests[channel.rCid]? with
      | none => some (client.setCall channel none client.nap, [])
      | some _ =>
        -- the enigma and the session key are used without a check that they are there
        if client.nap.windowEndedRequests.entry channel = some true then
          some (client.setCall channel none { client.nap with
            windowEndedRequests := client.nap.windowEndedRequests.remove channel }, [])
        else none
    | _ => none
  | .timeout channel =>
    match client.calls channel with
    | some ⟨cid, last, .polling (attempts + 1)⟩ =>
      let request : Request := ⟨cid, last, .polling attempts⟩
      some (client.setCall channel (if attempts = 0 then none else some request)
        (client.nap.addRequestWindowEnd channel), [windowEndTo channel request])
    | _ => none
  | .fromServer rCid packet => do
    let reaction ← client.nap.handleFromServer rCid packet
    return (⟨reaction.nap, client.calls⟩, reaction.published)
  | .cleanUp channel => do
    let nap ← client.nap.cleanUpBuffers channel
    return (⟨nap, client.calls⟩, [])
  | .elsewhere change =>
    some (⟨{ change client.nap with
      proxyPacketBuffer := client.nap.proxyPacketBuffer
      windowEndedRequests := client.nap.windowEndedRequests }, client.calls⟩, [])

end Client

/-- What the cNAP has published of its newest requests after a step. -/
def Originals.afterRequest (client : Client) (originals : Originals) : ClientEvent → Originals
  | .publish channel _ _ _ _ _ _ => originals.start channel
  | .send channel =>
    match client.calls channel with
    | some ⟨cid, _, .sending sequenceNumber (packet :: _)⟩ =>
      originals.add channel (sequenceNumber + 1) ⟨.implicit cid channel.rCid, .data packet⟩
    | _ => originals
  | _ => originals

namespace Client

/-- A state that the cNAP comes to, with what it has published. -/
inductive Reached (nodeId : Nid) : Client → Originals → Prop
  | initial : Reached nodeId (initial nodeId) fun _ => ∅
  | step {client next : Client} {originals : Originals} {event : ClientEvent}
      {published : List Publication} (before : Reached nodeId client originals)
      (stepped : client.step event = some (next, published)) :
      Reached nodeId next (originals.afterRequest client event)

end Client

/-- Everything was published implicitly. -/
def Originals.Implicit (originals : Originals) : Prop :=
  ∀ (channel : Channel) (sequence : Seq) (original : Publication),
    (originals channel)[sequence]? = some original →
      ∃ cid, original.route = .implicit cid channel.rCid

section

variable {originals : Originals} {chan : Channel}

theorem Originals.Implicit.start (old : originals.Implicit) (chan : Channel) :
    (originals.start chan).Implicit := by
  intro other seq orig hf
  unfold Originals.start at hf
  split at hf
  · cases TreeMap.getElem?_emptyc.symm.trans hf
  · exact old other seq orig hf

theorem Originals.Implicit.add (old : originals.Implicit) (cid : Cid) (seqNo : Seq)
    (content : Content) : (originals.add chan seqNo
      ⟨.implicit cid chan.rCid, content⟩).Implicit := by
  intro other seq orig hf
  unfold Originals.add at hf
  split at hf
  · rename_i same
    split at hf
    · exact old other seq orig hf
    rw [getElem?_insert] at hf
    split at hf
    · cases hf
      rw [same]
      exact ⟨cid, rfl⟩
    · exact old other seq orig hf
  · exact old other seq orig hf

theorem Originals.Implicit.afterRequest (old : originals.Implicit) (client : Client)
    (event : ClientEvent) : (originals.afterRequest client event).Implicit := by
  cases event with
  | publish chan => exact old.start chan
  | send =>
    unfold Originals.afterRequest
    dsimp only
    split
    · exact old.add _ _ _
    · exact old
  | _ => exact old

theorem implicit_reached {client : Client} (hr : Client.Reached nodeId client originals) :
    originals.Implicit := by
  induction hr with
  | initial =>
    intro chan seq orig hf
    cases TreeMap.getElem?_emptyc.symm.trans hf
  | step _ _ ih => exact ih.afterRequest _ _

end

/-- The cNAP publishes again to its own node. -/
theorem Nap.route_publishDataRange {nap : Nap} {chan : Channel} {start : Seq}
    (ranged : nap.publishDataRange chan start finish = some published) {again : Publication}
    (hm : again ∈ published) : again.route = .nodes chan.rCid [nap.nodeId] := by
  unfold publishDataRange at ranged
  split at ranged
  · cases ranged
    cases hm
  split at ranged
  · cases ranged
    cases hm
  obtain ⟨range, _, rest⟩ := bind_eq_some_iff.mp ranged
  cases rest
  obtain ⟨pkt, _, rfl⟩ := List.mem_map.mp hm
  rfl

/-- The sNAP repeats fragments as they were, to the nodes that asked, if every message finds an
empty buffer. What the cNAP publishes again goes to itself. -/
theorem retransmissions_repeat_iff (nodeId : Nid) (rCid : Cid) (packet : List UInt8)
    (enigma : Enigma) (sessionKey : SessionKey) (start finish : Seq)
    (read : ∀ side, readMessage side packet = .control (.nack enigma sessionKey start finish)) :
    (∀ (server : Server) (originals : Originals),
      Server.Reached ServerEvent.Fresh nodeId server originals →
      ∀ (nid : Nid) (stale : Seq) (next : Server) (published : List Publication),
        server.step (.fromClient rCid nid stale packet) = some (next, published) →
        ∃ nids, Requesting server.nap stale ⟨rCid, enigma, sessionKey⟩ ⟨nid, start, finish⟩ nids ∧
          RepeatsAll nids (originals ⟨rCid, enigma, sessionKey⟩) published) ∧
    ∀ (client : Client) (originals : Originals), Client.Reached nodeId client originals →
      ∀ (next : Client) (published : List Publication),
        client.step (.fromServer rCid packet) = some (next, published) →
        ∀ again ∈ published, ∀ (nids : List Nid) (seq : Seq) (original : Publication),
          (originals ⟨rCid, enigma, sessionKey⟩)[seq]? = some original →
            ¬ Repeats nids original again := by
  constructor
  · intro server originals hr nid stale next published hs
    obtain ⟨reaction, hh, rest⟩ := bind_eq_some_iff.mp hs
    cases rest
    unfold handleFromClient at hh
    simp only [read] at hh
    obtain ⟨nids, requesting, members⟩ := published_handleNack hh
    have hk : (server.nap.addNodeId nid).nackGroups = server.nap.nackGroups ∧
        (server.nap.addNodeId nid).ltpPacketBuffer = server.nap.ltpPacketBuffer := by
      unfold addNodeId
      split
      · exact ⟨rfl, rfl⟩
      · exact ⟨rfl, rfl⟩
    refine ⟨nids, ?_, ?_⟩
    · rw [Requesting, hk.1] at requesting
      exact requesting
    intro again hm
    obtain ⟨seq, stored, hf, rfl⟩ := members again hm
    rw [hk.2] at hf
    obtain ⟨nodeIds, orig⟩ := (Server.keeps_reached hr _).packets seq stored hf
    exact ⟨seq, _, orig, rfl, rfl⟩
  · intro client originals hr next published hs again hm nids seq original hf repeats
    obtain ⟨reaction, hh, rest⟩ := bind_eq_some_iff.mp hs
    cases rest
    unfold handleFromServer at hh
    simp only [read] at hh
    obtain ⟨range, ranged, rest⟩ := bind_eq_some_iff.mp hh
    cases rest
    obtain ⟨_, sameRoute⟩ := repeats
    obtain ⟨cid, implicitly⟩ := implicit_reached hr _ seq original hf
    rw [implicitly, route_publishDataRange ranged hm] at sameRoute
    cases sameRoute

/-- The only fragment is asked for. -/
def smallNack : List UInt8 := (Control.nack 2 4 1 1).bytes

theorem read_smallNack (side : Side) : readMessage side smallNack = .control (.nack 2 4 1 1) := by
  cases side <;> rfl

open Server.Reached

/-- Node 7 asks for the fragment of a response, and an sNAP for that of a request. -/
theorem retransmissions_repeat_iff_response :
    (∃ server originals next again, Server.Reached ServerEvent.Fresh 9 server originals ∧
      server.step (.fromClient 1 7 0 smallNack) = some (next, [again]) ∧
      ∃ nids, Requesting server.nap 0 ⟨1, 2, 4⟩ ⟨7, 1, 1⟩ nids ∧
        RepeatsAll nids (originals ⟨1, 2, 4⟩) [again]) ∧
    ∃ client originals next again, Client.Reached 9 client originals ∧
      client.step (.fromServer 1 smallNack) = some (next, [again]) ∧
      ∀ (nids : List Nid) (seq : Seq) (original : Publication),
        (originals ⟨1, 2, 4⟩)[seq]? = some original → ¬ Repeats nids original again := by
  constructor
  · have run : ∃ server originals next again, Server.Reached ServerEvent.Fresh 9 server originals ∧
        server.step (.fromClient 1 7 0 smallNack) = some (next, [again]) := by
      have grouped := @step ServerEvent.Fresh 9 _ _ _ (.elsewhere smallGroup) _ .initial trivial rfl
      have begun := @step ServerEvent.Fresh 9 _ _ _ (.publish ⟨1, 2, 4⟩ [7] [5]
        ⟨List.replicate 7 0, fun _ => #v[0, 0]⟩ 96 32) _ grouped ⟨by decide, rfl⟩ rfl
      have sent := @step ServerEvent.Fresh 9 _ _ _ (.send ⟨1, 2, 4⟩) _ begun trivial
        rfl
      have ended := @step ServerEvent.Fresh 9 _ _ _ (.windowEnd ⟨1, 2, 4⟩) _ sent trivial rfl
      exact ⟨_, _, _, _, ended, rfl⟩
    obtain ⟨server, originals, next, again, hr, hs⟩ := run
    exact ⟨server, originals, next, again, hr, hs, (retransmissions_repeat_iff 9 1
      smallNack 2 4 1 1 read_smallNack).1 server originals hr 7 0 next [again] hs⟩
  · have begun := @Client.Reached.step 9 _ _ _ (.publish ⟨1, 2, 4⟩ 3 [5]
      ⟨List.replicate 7 0, fun _ => #v[0, 0]⟩ 1500 16 32) _ .initial rfl
    have sent := @Client.Reached.step 9 _ _ _ (.send ⟨1, 2, 4⟩) _ begun rfl
    exact ⟨_, _, _, _, sent, rfl, (retransmissions_repeat_iff 9 1 smallNack 2 4 1 1
      read_smallNack).2 _ _ sent _ _ rfl _ (List.mem_singleton_self _)⟩

/-- A request goes out under CID 3, and again to the own node 9 when the sNAP asks for it. -/
theorem request_repeated_to_itself :
    ∃ client originals next original again, Client.Reached 9 client originals ∧
      (originals ⟨1, 2, 4⟩)[(1 : Seq)]? = some original ∧
      original.route = .implicit 3 1 ∧
      client.step (.fromServer 1 smallNack) = some (next, [again]) ∧
      again.route = .nodes 1 [9] ∧ ∀ nids, ¬ Repeats nids original again := by
  have begun := @Client.Reached.step 9 _ _ _ (.publish ⟨1, 2, 4⟩ 3 [5]
    ⟨List.replicate 7 0, fun _ => #v[0, 0]⟩ 1500 16 32) _ .initial rfl
  have sent := @Client.Reached.step 9 _ _ _ (.send ⟨1, 2, 4⟩) _ begun rfl
  exact ⟨_, _, _, _, _, sent, rfl, rfl, rfl, rfl, fun nids repeats => nomatch repeats.2⟩

end Blackadder.Ltp
