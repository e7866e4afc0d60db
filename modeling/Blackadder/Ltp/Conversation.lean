import Blackadder.Ltp.Publishing
import Blackadder.Ltp.WindowEnds

namespace Blackadder.Ltp

open Option List Receiver Nap

open Std (TreeMap)
open NestedMap IcnPacketBuffer

def Content.bytes : Content → List UInt8
  | .data packet => packet
  | .control message => message.bytes

def Session.channel (session : Session) : Channel :=
  ⟨session.rCid, session.enigma, session.sessionKey⟩

/-- Both NAPs, the packets that have ever been on the network, and the messages of a session. -/
structure Conversation where
  server : Server
  client : Receiver
  down : List (List UInt8)
  up : List (List UInt8)
  messages : List (List UInt8)
  newest : List (List UInt8)
  retrieved : Bool

/-- A step of the sNAP, a packet that arrives on one of the sides, or other threads of the cNAP. -/
inductive Turn
  | server (event : ServerEvent)
  | toServer (index : Nat) (stale : Seq)
  | toClient (index : Nat)
  | elsewhere (change : Nap → Nap)

namespace Conversation

variable (session : Session)

def initial (nodeId : Nid) : Conversation :=
  ⟨Server.initial nodeId, ⟨Nap.initial session.nid, []⟩, [], [], [], [], true⟩

/-- What the sNAP publishes for the cNAP. -/
def downwards (published : List Publication) : List (List UInt8) :=
  published.filterMap fun publication =>
    match publication.route with
    | .nodes rCid nodeIds =>
      if rCid = session.rCid ∧ session.nid ∈ nodeIds then some publication.content.bytes else none
    | .implicit _ _ => none

/-- What the cNAP publishes for the sNAP. -/
def upwards (published : List Publication) : List (List UInt8) :=
  published.filterMap fun publication =>
    match publication.route with
    | .nodes _ _ => none
    | .implicit _ rCid => if rCid = session.rCid then some publication.content.bytes else none

variable (conversation : Conversation)

/-- A message of the session to the cNAP begins. -/
def start : ServerEvent → Conversation
  | .publish channel nodeIds data stale mitu rCidLength =>
    if channel = session.channel ∧ session.nid ∈ nodeIds then
      { conversation with
        messages := conversation.messages ++ [data]
        newest := ((responseFragments channel.enigma channel.sessionKey data stale mitu
          rCidLength).getD ([], 0)).1
        retrieved := false }
    else conversation
  | _ => conversation

def step : Turn → Option Conversation
  | .server event => do
    let stepped ← conversation.server.step event
    return { conversation.start session event with
      server := stepped.1
      down := conversation.down ++ downwards session stepped.2 }
  | .toServer index stale => do
    let packet ← conversation.up[index]?
    let stepped ← conversation.server.step (.fromClient session.rCid session.nid stale packet)
    return { conversation with
      server := stepped.1
      down := conversation.down ++ downwards session stepped.2 }
  | .toClient index => do
    let packet ← conversation.down[index]?
    let reaction ← conversation.client.nap.handleFromServer session.rCid packet
    return { conversation with
      client := Receiver.react session.rCid conversation.client.nap.nodeId
        conversation.client.retrieved reaction
      up := conversation.up ++ upwards session reaction.published
      retrieved := conversation.retrieved ||
        reaction.state == .allFragmentsReceived session.enigma session.sessionKey }
  | .elsewhere change => do
    let client ← conversation.client.step (.elsewhere change)
    return { conversation with client := client }

/-- The packets that the cNAP has retrieved. -/
def delivered : List (List UInt8) :=
  (conversation.client.retrieved.filter (·.1 = session)).map fun entry => (assemble entry.2).1

/-- The conversations that come about by allowed turns. -/
inductive Reached (nodeId : Nid) (allowed : Conversation → Turn → Prop) : Conversation → Prop
  | initial : Reached nodeId allowed (initial session nodeId)
  | step {conversation next : Conversation} {turn : Turn}
      (before : Reached nodeId allowed conversation) (admitted : allowed conversation turn)
      (stepped : conversation.step session turn = some next) : Reached nodeId allowed next

/-- A message begins when the cNAP has nothing left of the session. Until it is retrieved only its
own fragments arrive, and none afterwards. -/
def Orderly : Turn → Prop
  | .server (.publish channel nodeIds data _ mitu rCidLength) =>
    channel = session.channel → session.nid ∈ nodeIds →
      Fits (mituPayload mitu rCidLength) data ∧
        conversation.client.nap.icnPacketBuffer.fragments session = none
  | .toClient index => ∀ packet, conversation.down[index]? = some packet →
      (∀ header payload, readMessage .cNap packet = .data header payload → Belongs session packet →
        packet ∈ conversation.newest ∧ conversation.retrieved = false) ∧
      ∀ last, readMessage .cNap packet =
          .control (.windowEnd session.enigma session.sessionKey last) →
        conversation.client.nap.icnPacketBuffer.fragments session ≠ none →
          last.toNat = conversation.newest.length
  | _ => True

end Conversation

variable {retrieved : List (Session × Fragments)} {found : Fragments} {nid : Nid}

section

variable {nap : Nap} {rCid : Cid} {reaction : Reaction} {enigma : Enigma} {sk : SessionKey}

/-- All fragments are received only with a window end that finds all of them. -/
theorem received_handleControlFromServer {msg : Control}
    (hh : nap.handleControlFromServer rCid msg = some reaction)
    (received : reaction.state = .allFragmentsReceived enigma sk) :
    ∃ last found, msg = .windowEnd enigma sk last ∧
      nap.icnPacketBuffer.fragments ⟨rCid, enigma, nap.nodeId, sk⟩ = some found ∧
        Complete last.toNat (sequencesOf found) := by
  unfold handleControlFromServer at hh
  cases msg with
  | windowEnd enigma' sk' last =>
    unfold handleWindowEndFromServer at hh
    dsimp only at hh
    split at hh
    · cases hh
      cases received
    rename_i nodeIdMap hk
    split at hh
    · cases hh
      cases received
    rename_i sessionKeyMap nidKnown
    split at hh
    · cases hh
      cases received
    rename_i found ht
    obtain ⟨scan, hc, ha⟩ := bind_eq_some_iff.mp hh
    split at ha
    · cases ha
      cases received
    split at ha
    · rename_i complete
      cases ha
      cases received
      refine ⟨last, found, rfl, ?_, complete_of_checkWindow sorted_sequencesOf hc complete⟩
      obtain ⟨enigmaMap, cidKnown, enigmaKnown⟩ := bind_eq_some_iff.mp hk
      simp [fragments, cidKnown, enigmaKnown, nidKnown, ht]
    · cases ha
      cases received
  | nack =>
    obtain ⟨published, _, rest⟩ := bind_eq_some_iff.mp hh
    cases rest
    cases received
  | sessionEnded =>
    obtain ⟨later, _, rest⟩ := bind_eq_some_iff.mp hh
    cases rest
    cases received
  | reset | resetted | sessionEnd _ _ | windowEnded _ _ | windowUpdate _ _ | windowUpdated _ _ =>
    cases hh
    cases received

theorem react_of_received (received : reaction.state = .allFragmentsReceived enigma sk)
    (ht : reaction.nap.icnPacketBuffer.fragments ⟨rCid, enigma, nid, sk⟩ = some found) :
    react rCid nid retrieved reaction =
      ⟨{ reaction.nap with icnPacketBuffer :=
          reaction.nap.icnPacketBuffer.deleteBufferedIcnPacket ⟨rCid, enigma, nid, sk⟩ },
        retrieved ++ [(⟨rCid, enigma, nid, sk⟩, found)]⟩ := by
  unfold react
  rw [received]
  simp only [retrieveIcnPacket, ht]
  rfl

theorem react_of_not_received
    (other : ∀ enigma sk, reaction.state ≠ .allFragmentsReceived enigma sk) :
    react rCid nid retrieved reaction = ⟨reaction.nap, retrieved⟩ := by
  unfold react
  split
  · rename_i received
    exact absurd received (other _ _)
  · rfl

end

variable {turn : Turn}

namespace Conversation

/-- The newest message was retrieved and nothing is left, or some of its fragments have arrived. -/
inductive Standing (session : Session) (conversation : Conversation) : Prop
  | retrieved (done : conversation.retrieved = true)
      (kept : (conversation.delivered session).Sublist conversation.messages)
      (empty : conversation.client.nap.icnPacketBuffer.fragments session = none)
  | arriving (earlier : List (List UInt8)) (data : List UInt8) (arrived : List (List UInt8))
      (awaited : conversation.retrieved = false)
      (messages : conversation.messages = earlier ++ [data])
      (kept : (conversation.delivered session).Sublist earlier)
      (carried : Carried session.enigma session.sessionKey data 0 conversation.newest)
      (small : conversation.newest.length ≤ 65535) (known : arrived ⊆ conversation.newest)
      (held : Buffered arrived (conversation.client.nap.icnPacketBuffer.fragments session))

section

variable {session : Session} {conv next : Conversation}

theorem Standing.kept (hs : Standing session conv) :
    (conv.delivered session).Sublist conv.messages := by
  cases hs with
  | retrieved _ kept => exact kept
  | arriving earlier data _ _ messages kept =>
    rw [messages]
    exact kept.trans (sublist_append_left earlier [data])

theorem Standing.frame (hs : Standing session conv) (retrieved : next.retrieved = conv.retrieved)
    (msgs : next.messages = conv.messages) (newest : next.newest = conv.newest)
    (delivered : next.delivered session = conv.delivered session)
    (buf : next.client.nap.icnPacketBuffer.fragments session =
      conv.client.nap.icnPacketBuffer.fragments session) : Standing session next := by
  cases hs with
  | retrieved done kept empty =>
    apply Standing.retrieved
    · rw [retrieved, done]
    · rw [delivered, msgs]
      exact kept
    · rw [buf, empty]
  | arriving earlier data arrived awaited same kept carried small known held =>
    apply Standing.arriving earlier data arrived
    · rw [retrieved, awaited]
    · rw [msgs, same]
    · rw [delivered]
      exact kept
    · rw [newest]
      exact carried
    · rw [newest]
      exact small
    · rw [newest]
      exact known
    · rw [buf]
      exact held

theorem Standing.begin (hs : Standing session conv) {chan : Channel}
    {nids : List Nid} {data : List UInt8} {stale : Stale} {mitu : UInt16} {rCidLength : UInt32}
    (ho : Orderly session conv
      (.server (.publish chan nids data stale mitu rCidLength)))
    {server : Server} {down : List (List UInt8)} : Standing session { conv.start session
      (.publish chan nids data stale mitu rCidLength) with server := server, down := down } := by
  unfold start
  dsimp only
  split
  · rename_i ours
    obtain ⟨hf, he⟩ := ho ours.1 ours.2
    obtain ⟨pkts, segmented, hc⟩ := @segments_spec chan.enigma chan.sessionKey
      (mituPayload mitu rCidLength) data stale ⟨0, 0⟩ hf data.length (Nat.zero_le _)
      (Nat.sub_le _ _)
    have newest : ((responseFragments chan.enigma chan.sessionKey data stale mitu
        rCidLength).getD ([], 0)).1 = pkts := by
      rw [responseFragments, fragmentsOf, segmented]
      rfl
    rw [newest]
    have hb := hc.bounded
    have msg := hf.message
    rw [ours.1] at hc
    apply Standing.arriving conv.messages data []
    · rfl
    · rfl
    · exact hs.kept
    · exact hc
    · change pkts.length ≤ 65535
      rw [length_drop] at hb
      omega
    · exact nil_subset _
    · change Buffered [] (conv.client.nap.icnPacketBuffer.fragments session)
      rw [he]
      rfl
  · exact hs.frame rfl rfl rfl rfl rfl

variable {sk : SessionKey} {enigma : Enigma}

/-- If a window is complete, all fragments of the message have arrived. -/
theorem all_arrived {data : List UInt8} {pkts arrived : List (List UInt8)}
    (hc : Carried enigma sk data 0 pkts) (hs : pkts.length ≤ 65535) (hk : arrived ⊆ pkts)
    (hh : Holds arrived found) (complete : Complete pkts.length (sequencesOf found))
    (pkt : List UInt8) : pkt ∈ arrived ↔ pkt ∈ pkts := by
  constructor
  · exact fun hm => hk hm
  · intro hm
    obtain ⟨i, place⟩ := mem_iff_getElem?.mp hm
    have hi := (List.getElem?_eq_some_iff.mp place).1
    have num := hc.sequenceNumber hs place
    obtain ⟨key, ht, same⟩ := mem_sequencesOf.mp (complete (i + 1) (by omega) (by omega))
    obtain ⟨stored, stores⟩ := NestedMap.mem_iff_exists.mp ht
    obtain ⟨other, arrivedOther, entry⟩ := (hh key stored).mp stores
    have nums : (entryOf other).1 = (entryOf pkt).1 := by
      rw [entry]
      exact UInt16.toNat_inj.mp (same.trans num.symm)
    rw [← hc.injective hs (hk arrivedOther) hm nums]
    exact arrivedOther

open Conversation

variable {pkt : List UInt8}

theorem Standing.data (hs : Standing session conv) (own : conv.client.nap.nodeId = session.nid)
    (ho : Belongs session pkt → pkt ∈ conv.newest ∧ conv.retrieved = false)
    (retrieved : next.retrieved = conv.retrieved)
    (msgs : next.messages = conv.messages) (newest : next.newest = conv.newest)
    (client : next.client =
      ⟨conv.client.nap.handleDataFromServer session.rCid pkt,
      conv.client.retrieved⟩) : Standing session next := by
  have buf : next.client.nap.icnPacketBuffer.fragments session =
      (conv.client.nap.icnPacketBuffer.handleData session.rCid session.nid
        pkt).fragments session := by
    rw [client, handleDataFromServer, own]
  have delivered : next.delivered session = conv.delivered session := by
    rw [delivered, client]
    rfl
  by_cases belongs : Belongs session pkt
  · obtain ⟨hm, awaited⟩ := ho belongs
    cases hs with
    | retrieved done =>
      rw [done] at awaited
      cases awaited
    | arriving earlier data arrived awaited same kept carried small known held =>
      apply Standing.arriving earlier data (arrived ++ [pkt])
      · rw [retrieved, awaited]
      · rw [msgs, same]
      · rw [delivered]
        exact kept
      · rw [newest]
        exact carried
      · rw [newest]
        exact small
      · rw [newest]
        intro other hi
        rcases mem_append.mp hi with before | last
        · exact known before
        · rw [mem_singleton.mp last]
          exact hm
      · rw [buf]
        exact carried.buffered small held known hm
  · apply hs.frame retrieved msgs newest delivered
    rw [buf, handleData, fragments_bufferIcnPacket, if_neg]
    intro same
    exact belongs ⟨(congrArg Session.enigma same).symm, (congrArg Session.sessionKey same).symm⟩

theorem Standing.retrieve (hs : Standing session conv) {last : Seq}
    (ht : conv.client.nap.icnPacketBuffer.fragments
      ⟨session.rCid, enigma, session.nid, sk⟩ = some found)
    (complete : Complete last.toNat (sequencesOf found))
    (ho : enigma = session.enigma → sk = session.sessionKey → last.toNat =
      conv.newest.length) (msgs : next.messages = conv.messages)
    (newest : next.newest = conv.newest) (retrieved : next.retrieved =
      (conv.retrieved || (.allFragmentsReceived enigma sk : TpState) ==
      .allFragmentsReceived session.enigma session.sessionKey))
    (buf : next.client.nap.icnPacketBuffer =
      conv.client.nap.icnPacketBuffer.deleteBufferedIcnPacket
      ⟨session.rCid, enigma, session.nid, sk⟩) (client : next.client.retrieved =
      conv.client.retrieved ++ [(⟨session.rCid, enigma, session.nid, sk⟩, found)]) :
    Standing session next := by
  by_cases ours : enigma = session.enigma ∧ sk = session.sessionKey
  · obtain ⟨rfl, rfl⟩ := ours
    cases hs with
    | retrieved done kept empty =>
      rw [empty] at ht
      cases ht
    | arriving _ data _ _ same kept hc small hk held =>
      rw [ht] at held
      rw [ho rfl rfl] at complete
      have whole := hc.assemble small (all_arrived hc small hk held complete) held
      have delivered : next.delivered session = conv.delivered session ++ [data] := by
        rw [delivered, client]
        simp [delivered, whole]
      apply Standing.retrieved
      · rw [retrieved, beq_self_eq_true, Bool.or_true]
      · rw [delivered, msgs, same]
        exact kept.append (List.Sublist.refl _)
      · rw [buf, fragments_deleteBufferedIcnPacket, if_pos rfl]
  · have hd : session ≠ ⟨session.rCid, enigma, session.nid, sk⟩ := by
      intro same
      exact ours ⟨(congrArg Session.enigma same).symm, (congrArg Session.sessionKey same).symm⟩
    have unlike : ((.allFragmentsReceived enigma sk : TpState) ==
        .allFragmentsReceived session.enigma session.sessionKey) = false := by
      apply beq_eq_false_iff_ne.mpr
      intro same
      cases same
      exact ours ⟨rfl, rfl⟩
    apply hs.frame _ msgs newest
    · rw [delivered, client]
      simp [delivered, Ne.symm hd]
    · rw [buf, fragments_deleteBufferedIcnPacket, if_neg hd]
    · rw [retrieved, unlike, Bool.or_false]

variable {reaction : Reaction} {rCid : Cid}

theorem nodeId_react : (react rCid nid retrieved reaction).nap.nodeId = reaction.nap.nodeId := by
  unfold react
  split
  · rfl
  · rfl

theorem nodeId_handleFromServer {nap : Nap} (hh : nap.handleFromServer rCid pkt = some reaction) :
    reaction.nap.nodeId = nap.nodeId := by
  unfold handleFromServer at hh
  split at hh
  · cases hh
    rfl
  · exact (settles_handleControlFromServer hh).nodeId
  · cases hh
    rfl

theorem Standing.toClient (hs : Standing session conv)
    (own : conv.client.nap.nodeId = session.nid) {idx : Nat}
    (ho : Orderly session conv (.toClient idx))
    (stepped : conv.step session (.toClient idx) = some next) : Standing session next := by
  obtain ⟨pkt, place, rest⟩ := bind_eq_some_iff.mp stepped
  obtain ⟨reaction, hh, rest⟩ := bind_eq_some_iff.mp rest
  obtain ⟨dataOrderly, endOrderly⟩ := ho pkt place
  unfold handleFromServer at hh
  split at hh
  · rename_i hdr payload read
    cases hh
    cases rest
    exact hs.data own (dataOrderly hdr payload read) (Bool.or_false _) rfl rfl rfl
  · rename_i msg read
    have settled := settles_handleControlFromServer hh
    by_cases received : ∃ enigma sk, reaction.state = .allFragmentsReceived enigma sk
    · obtain ⟨enigma, sk, received⟩ := received
      obtain ⟨last, found, rfl, ht, hc⟩ := received_handleControlFromServer hh received
      have still := ht
      rw [← settled.icnPacketBuffer] at still
      rw [react_of_received received still] at rest
      cases rest
      rw [own] at ht
      apply hs.retrieve ht hc
      · intro sameEnigma sameKey
        rw [sameEnigma, sameKey] at read ht
        apply endOrderly last read
        rw [ht]
        exact some_ne_none found
      · rfl
      · rfl
      · dsimp only
        rw [received]
      · dsimp only
        rw [settled.icnPacketBuffer, own]
      · dsimp only
        rw [own]
    · have other : ∀ enigma sk, reaction.state ≠ .allFragmentsReceived enigma sk :=
        fun enigma sk same => received ⟨enigma, sk, same⟩
      rw [react_of_not_received other, beq_eq_false_iff_ne.mpr (other _ _)] at rest
      cases rest
      apply hs.frame
      · exact Bool.or_false _
      · rfl
      · rfl
      · rfl
      · dsimp only
        rw [settled.icnPacketBuffer]
  · cases hh
    cases rest
    exact hs.frame (Bool.or_false _) rfl rfl rfl rfl

theorem standing_step (hs : Standing session conv)
    (own : conv.client.nap.nodeId = session.nid) (ho : Orderly session conv turn)
    (stepped : conv.step session turn = some next) :
    Standing session next ∧ next.client.nap.nodeId = session.nid := by
  cases turn with
  | server event =>
    obtain ⟨served, _, rest⟩ := bind_eq_some_iff.mp stepped
    cases rest
    cases event with
    | publish =>
      refine ⟨hs.begin ho, ?_⟩
      unfold start
      dsimp only
      split
      · exact own
      · exact own
    | _ => exact ⟨hs.frame rfl rfl rfl rfl rfl, own⟩
  | toServer =>
    obtain ⟨pkt, _, rest⟩ := bind_eq_some_iff.mp stepped
    obtain ⟨served, _, rest⟩ := bind_eq_some_iff.mp rest
    cases rest
    exact ⟨hs.frame rfl rfl rfl rfl rfl, own⟩
  | toClient idx =>
    refine ⟨hs.toClient own ho stepped, ?_⟩
    obtain ⟨pkt, _, rest⟩ := bind_eq_some_iff.mp stepped
    obtain ⟨reaction, hh, rest⟩ := bind_eq_some_iff.mp rest
    cases rest
    rw [nodeId_react, nodeId_handleFromServer hh]
    exact own
  | elsewhere =>
    cases stepped
    exact ⟨hs.frame rfl rfl rfl rfl rfl, own⟩

theorem standing_reached {nodeId : Nid} (hr : Reached session nodeId (Orderly session) conv) :
    Standing session conv ∧ conv.client.nap.nodeId = session.nid := by
  induction hr with
  | initial => exact ⟨.retrieved rfl (List.Sublist.refl _) rfl, rfl⟩
  | step before admitted stepped ih => exact standing_step ih.1 ih.2 admitted stepped

end

end Conversation

/-- In an orderly conversation the cNAP retrieves only messages, none twice, and in the order in
which they were published. -/
theorem orderly_conversation_delivers {session : Session} {nodeId : Nid}
    {conversation : Conversation} (reached : Conversation.Reached session nodeId
      (Conversation.Orderly session) conversation) :
    (conversation.delivered session).Sublist conversation.messages :=
  (Conversation.standing_reached reached).1.kept

namespace Conversation

variable {conversation : Conversation}

section

variable (session : Session) (test : Conversation → Turn → Bool)

/-- A turn that passes a test. -/
def tested (conversation : Conversation) (turn : Turn) : Option Conversation :=
  if test conversation turn then conversation.step session turn else none

def run (nodeId : Nid) (turns : List Turn) : Option Conversation :=
  turns.foldlM (tested session test) (initial session nodeId)

variable {session test} {nodeId : Nid} {allowed : Conversation → Turn → Prop}

theorem reached_foldlM
    (sound : ∀ conversation turn, test conversation turn → allowed conversation turn)
    {turns : List Turn} {last : Conversation} (before : Reached session nodeId allowed conversation)
    (ran : turns.foldlM (tested session test) conversation = some last) :
    Reached session nodeId allowed last := by
  induction turns generalizing conversation with
  | nil =>
    cases ran
    exact before
  | cons turn rest ih =>
    obtain ⟨next, stepped, later⟩ := bind_eq_some_iff.mp ran
    obtain ⟨passes, stepped⟩ := Option.ite_none_right_eq_some.mp stepped
    exact ih (before.step (sound _ _ passes) stepped) later

end

instance (unit : UInt32) (data : List UInt8) : Decidable (Fits unit data) :=
  decidable_of_iff
    (8 ≤ unit.toNat ∧ unit.toNat ≤ 65512 ∧ unit.toNat % 8 = 0 ∧ data.length ≤ 65535)
    ⟨fun ⟨positive, small, multiple, message⟩ => ⟨positive, small, multiple, message⟩,
      fun fits => ⟨fits.positive, fits.small, fits.multiple, fits.message⟩⟩

/-- A test for the turns of an orderly conversation. -/
def orderly (session : Session) (conversation : Conversation) : Turn → Bool
  | .server (.publish _ _ data _ mitu rCidLength) =>
    decide (Fits (mituPayload mitu rCidLength) data) &&
      (conversation.client.nap.icnPacketBuffer.fragments session).isNone
  | .toClient index => (conversation.down[index]?).all fun packet =>
    match readMessage .cNap packet with
    | .data _ _ => decide (packet ∈ conversation.newest) && !conversation.retrieved
    | .control (.windowEnd _ _ last) => last.toNat = conversation.newest.length
    | _ => true
  | _ => true

theorem orderly_sound {session : Session} (passes : orderly session conversation turn) :
    Orderly session conversation turn := by
  unfold Orderly
  split
  · rw [orderly, Bool.and_eq_true, decide_eq_true_iff, Option.isNone_iff_eq_none] at passes
    exact fun _ _ => passes
  · intro pkt place
    rw [orderly, place, Option.all_some] at passes
    constructor
    · intro hdr payload read _
      simpa [read] using passes
    · intro last read _
      simpa [read] using passes
  · trivial

end Conversation

/-- Two fragments of eight bytes, up to the window end. -/
def twoFragments (first second : UInt8) : List Turn :=
  [.server (.publish ⟨1, 2, 4⟩ [7] (List.replicate 8 first ++ List.replicate 8 second)
      ⟨List.replicate 7 0, fun _ => .replicate 2 0⟩ 96 32),
    .server (.send ⟨1, 2, 4⟩), .server (.send ⟨1, 2, 4⟩), .server (.windowEnd ⟨1, 2, 4⟩)]

/-- Two messages for node 7, of two fragments each. -/
def orderlyTurns : List Turn :=
  [.server (.elsewhere smallGroup), .elsewhere (Nap.addReverseLookUp 3 1)] ++
    twoFragments 1 2 ++ [.toClient 1, .toClient 0, .toClient 2, .toServer 0 0,
      .server (.confirmed ⟨1, 2, 4⟩)] ++
    twoFragments 3 4 ++ [.toClient 3, .toClient 4, .toClient 5]

theorem orderly_conversation_delivers_two :
    ∃ conversation : Conversation, Conversation.Reached ⟨1, 2, 7, 4⟩ 9
        (Conversation.Orderly ⟨1, 2, 7, 4⟩) conversation ∧
      conversation.delivered ⟨1, 2, 7, 4⟩ = [List.replicate 8 1 ++ List.replicate 8 2,
        List.replicate 8 3 ++ List.replicate 8 4] ∧
      (conversation.delivered ⟨1, 2, 7, 4⟩).Sublist conversation.messages := by
  have ran : (Conversation.run ⟨1, 2, 7, 4⟩ (Conversation.orderly ⟨1, 2, 7, 4⟩) 9
      orderlyTurns).map (·.delivered ⟨1, 2, 7, 4⟩) =
      some [replicate 8 1 ++ replicate 8 2, replicate 8 3 ++ replicate 8 4] := by
    decide +kernel
  obtain ⟨conversation, hr, seen⟩ := map_eq_some_iff.mp ran
  have reached := Conversation.reached_foldlM (fun _ _ => Conversation.orderly_sound) .initial hr
  exact ⟨conversation, reached, seen, orderly_conversation_delivers reached⟩

/-- The first fragment of the second message is lost; a duplicate from the first one comes in its
place. -/
def mixingTurns : List Turn :=
  [.server (.elsewhere smallGroup), .elsewhere (Nap.addReverseLookUp 3 1)] ++
    twoFragments 1 2 ++ [.toClient 0, .toClient 1, .toClient 2, .toServer 0 0,
      .server (.confirmed ⟨1, 2, 4⟩)] ++
    twoFragments 3 4 ++ [.toClient 0, .toClient 4, .toClient 5]

theorem conversation_mixes_messages : ∃ conversation : Conversation,
      Conversation.Reached ⟨1, 2, 7, 4⟩ 9 (fun _ _ => True) conversation ∧
      conversation.messages = [List.replicate 8 1 ++ List.replicate 8 2,
        List.replicate 8 3 ++ List.replicate 8 4] ∧
      conversation.delivered ⟨1, 2, 7, 4⟩ = [List.replicate 8 1 ++ List.replicate 8 2,
        List.replicate 8 1 ++ List.replicate 8 4] := by
  have ran : (Conversation.run ⟨1, 2, 7, 4⟩ (fun _ _ => true) 9 mixingTurns).map
    (fun conversation =>
      (conversation.messages, conversation.delivered ⟨1, 2, 7, 4⟩)) =
      some ([replicate 8 1 ++ replicate 8 2, replicate 8 3 ++ replicate 8 4],
        [replicate 8 1 ++ replicate 8 2, replicate 8 1 ++ replicate 8 4]) := by
    decide +kernel
  obtain ⟨conversation, hr, seen⟩ := map_eq_some_iff.mp ran
  exact ⟨conversation, Conversation.reached_foldlM (fun _ _ _ => trivial) .initial hr,
    (Prod.mk.inj seen).1,
    (Prod.mk.inj seen).2⟩

end Blackadder.Ltp
