import Blackadder.Ltp.Nap
import Blackadder.Ltp.Reassembly

namespace Blackadder.Ltp

open Option IcnPacketBuffer List Nap UInt16

open Std (TreeMap)

/-- A NAP with the packets that the ICN handler has retrieved from its buffer. -/
structure Receiver where
  nap : Nap
  retrieved : List (Session × Fragments)

/-- Packets come to the ICN handler; other threads publish and form groups without its buffer. -/
inductive NapEvent
  | fromClient (rCid : Cid) (nid : Nid) (stale : Seq) (packet : List UInt8)
  | fromServer (rCid : Cid) (packet : List UInt8)
  | elsewhere (change : Nap → Nap)

namespace Receiver

/-- The ICN handler retrieves a packet as soon as all fragments are there. -/
def react (rCid : Cid) (nid : Nid) (retrieved : List (Session × Fragments)) (reaction : Reaction) :
    Receiver :=
  match reaction.state with
  | .allFragmentsReceived enigma sessionKey =>
    let session : Session := ⟨rCid, enigma, nid, sessionKey⟩
    let buffer := reaction.nap.icnPacketBuffer
    ⟨{ reaction.nap with icnPacketBuffer := (buffer.retrieveIcnPacket session).2 },
      retrieved ++ (buffer.fragments session).toList.map (session, ·)⟩
  | _ => ⟨reaction.nap, retrieved⟩

def step (receiver : Receiver) : NapEvent → Option Receiver
  | .fromClient rCid nid stale packet =>
    (receiver.nap.handleFromClient rCid nid stale packet).map (react rCid nid receiver.retrieved)
  | .fromServer rCid packet =>
    (receiver.nap.handleFromServer rCid packet).map
      (react rCid receiver.nap.nodeId receiver.retrieved)
  | .elsewhere change =>
    some { receiver with nap := { change receiver.nap with
      nodeId := receiver.nap.nodeId
      icnPacketBuffer := receiver.nap.icnPacketBuffer } }

def run (nodeId : Nid) (events : List NapEvent) : Option Receiver :=
  events.foldlM step ⟨Nap.initial nodeId, []⟩

end Receiver

/-- The packets of a message, numbered from one. -/
structure Numbered (session : Session) (packets : List (List UInt8)) : Prop where
  small : packets.length ≤ 65535
  belongs : ∀ packet ∈ packets, Belongs session packet
  number : ∀ i packet, packets[i]? = some packet →
    (readDataHeader packet).sequenceNumber.toNat = i + 1

/-- Every fragment of a message is there with its bytes. -/
def Keeps (packets : List (List UInt8)) (fragments : Option Fragments) : Prop :=
  ∀ packet ∈ packets, ∃ found, fragments = some found ∧
    found[(entryOf packet).1]? = some (entryOf packet).2

/-- There is an entry, and the numbers of the message are in it with nothing else. -/
def Undisturbed (packets : List (List UInt8)) (fragments : Option Fragments) : Prop :=
  ∀ packet ∈ packets, ∃ found, fragments = some found ∧
    ∀ stored, found[(entryOf packet).1]? = some stored → stored = (entryOf packet).2

/-- All fragments of a message have been retrieved from the buffer of its session. -/
def Receiver.Retrieved (receiver : Receiver) (session : Session) (packets : List (List UInt8)) :
    Prop :=
  ∃ found, (session, found) ∈ receiver.retrieved ∧ Keeps packets (some found)

section

variable {session : Session} {pkts : List (List UInt8)} {found : Fragments}

theorem Numbered.mem (hn : Numbered session pkts)
    (hc : Complete (ofNat pkts.length).toNat (sequencesOf found))
    {pkt : List UInt8} (hm : pkt ∈ pkts) : (entryOf pkt).1 ∈ found := by
  obtain ⟨i, place⟩ := mem_iff_getElem?.mp hm
  have hi := (List.getElem?_eq_some_iff.mp place).1
  have num := hn.number i pkt place
  have hs := hn.small
  have len : (ofNat pkts.length).toNat = pkts.length := by
    rw [toNat_ofNat']
    omega
  rw [len] at hc
  obtain ⟨key, stored, same⟩ := mem_sequencesOf.mp (hc (i + 1) (by omega) hi)
  have he : key = (entryOf pkt).1 := UInt16.toNat_inj.mp (same.trans num.symm)
  rwa [← he]

theorem keeps_iff_undisturbed {frags : Option Fragments}
    (all : ∀ found, frags = some found → ∀ pkt ∈ pkts, (entryOf pkt).1 ∈ found) :
    Keeps pkts frags ↔ Undisturbed pkts frags := by
  constructor
  · intro keeps pkt hm
    obtain ⟨found, ht, kept⟩ := keeps pkt hm
    refine ⟨found, ht, fun stored place => ?_⟩
    rw [kept] at place
    exact (Option.some.inj place).symm
  · intro undisturbed pkt hm
    obtain ⟨found, ht, only⟩ := undisturbed pkt hm
    have hi := TreeMap.mem_iff_isSome_getElem?.mp (all found ht pkt hm)
    obtain ⟨stored, place⟩ := isSome_iff_exists.mp hi
    rw [only stored place] at place
    exact ⟨found, ht, place⟩

/-- One of the publications is a CTRL-WED for the session. -/
def Confirms (session : Session) (reaction : Reaction) : Prop :=
  ∃ publication ∈ reaction.published,
    publication.content = .control (.windowEnded session.enigma session.sessionKey)

variable {nap : Nap} {n : Seq} {reaction : Reaction}

theorem complete_of_confirms_client
    (hh : nap.handleWindowEndFromClient session.rCid session.nid session.enigma
      session.sessionKey n = some reaction) (confirms : Confirms session reaction)
    (ht : nap.icnPacketBuffer.fragments session = some found) :
    Complete n.toNat (sequencesOf found) := by
  unfold handleWindowEndFromClient at hh
  obtain ⟨enigmaMap, hk, _⟩ := bind_eq_some_iff.mp ht
  simp only [hk, ht] at hh
  obtain ⟨scan, checked, ha⟩ := bind_eq_some_iff.mp hh
  split at ha
  · rename_i hc
    exact complete_of_checkWindow sorted_sequencesOf checked hc
  cases ha
  obtain ⟨pub, hm, content⟩ := confirms
  rw [mem_singleton.mp hm] at content
  cases content

theorem complete_of_confirms_server (own : session.nid = nap.nodeId)
    (hh : nap.handleWindowEndFromServer session.rCid session.enigma session.sessionKey n = some
      reaction) (confirms : Confirms session reaction)
    (ht : nap.icnPacketBuffer.fragments session = some found) :
    Complete n.toNat (sequencesOf found) := by
  unfold handleWindowEndFromServer at hh
  obtain ⟨enigmaMap, cidKnown, ht⟩ := bind_eq_some_iff.mp ht
  obtain ⟨nodeIdMap, enigmaKnown, ht⟩ := bind_eq_some_iff.mp ht
  obtain ⟨sessionKeyMap, nidKnown, ht⟩ := bind_eq_some_iff.mp ht
  rw [own] at nidKnown
  simp only [cidKnown, bind_some, enigmaKnown, nidKnown, ht] at hh
  obtain ⟨scan, checked, ha⟩ := bind_eq_some_iff.mp hh
  split at ha
  · cases ha
    obtain ⟨pub, hm, _⟩ := confirms
    cases hm
  split at ha
  · rename_i hc
    exact complete_of_checkWindow sorted_sequencesOf checked hc
  cases ha
  obtain ⟨pub, hm, content⟩ := confirms
  rw [mem_singleton.mp hm] at content
  cases content

end

section

/-- A session that has an entry has a fragment in it, so that the check finds a last one. -/
def Filled (buffer : IcnPacketBuffer) : Prop :=
  ∀ session found, buffer.fragments session = some found → sequencesOf found ≠ []

variable {found : Fragments} {buf : IcnPacketBuffer} {reaction : Reaction} {nap : Nap}
  {rCid : Cid} {pkt : List UInt8} {receiver : Receiver} {events : List NapEvent}

theorem sequencesOf_ne_nil {key : Seq} (hm : key ∈ found) : sequencesOf found ≠ [] :=
  ne_nil_of_mem (mem_sequencesOf.mpr ⟨key, hm, rfl⟩)

theorem Filled.handleData (filled : Filled buf) (rCid : Cid) (nid : Nid) (pkt : List UInt8) :
    Filled (buf.handleData rCid nid pkt) := by
  intro session found ht
  rw [IcnPacketBuffer.handleData, IcnPacketBuffer.fragments_bufferIcnPacket] at ht
  split at ht
  · rw [← Option.some.inj ht]
    cases buf.fragments session with
    | none =>
      apply sequencesOf_ne_nil
      rw [elim_none, TreeMap.mem_iff_isSome_getElem?, NestedMap.getElem?_single, if_pos rfl]
      rfl
    | some old =>
      apply sequencesOf_ne_nil
      exact mem_addFragment.mpr (.inr rfl)
  · exact filled session found ht

theorem Filled.retrieve (filled : Filled buf) (session : Session) :
    Filled (buf.retrieveIcnPacket session).2 := by
  intro other found ht
  unfold retrieveIcnPacket at ht
  split at ht
  · exact filled other found ht
  rw [fragments_deleteBufferedIcnPacket] at ht
  split at ht
  · cases ht
  · exact filled other found ht

open Receiver

theorem Filled.react (filled : Filled reaction.nap.icnPacketBuffer) (rCid : Cid) (nid : Nid)
    (retrieved : List (Session × Fragments)) :
    Filled (react rCid nid retrieved reaction).nap.icnPacketBuffer := by
  unfold Receiver.react
  split
  · exact filled.retrieve _
  · exact filled

theorem icnPacketBuffer_addNodeId (nap : Nap) (nid : Nid) :
    (nap.addNodeId nid).icnPacketBuffer = nap.icnPacketBuffer := by
  unfold addNodeId
  split
  · rfl
  · rfl

theorem Filled.handleFromClient (filled : Filled nap.icnPacketBuffer) {nid : Nid} {stale : Seq}
    (hh : nap.handleFromClient rCid nid stale pkt = some reaction) :
    Filled reaction.nap.icnPacketBuffer := by
  rw [← icnPacketBuffer_addNodeId nap nid] at filled
  unfold Nap.handleFromClient at hh
  split at hh
  · cases hh
    exact filled.handleData rCid nid pkt
  · rw [icnPacketBuffer_handleControlFromClient hh]
    exact filled
  · cases hh
    exact filled

theorem Filled.handleFromServer (filled : Filled nap.icnPacketBuffer)
    (hh : nap.handleFromServer rCid pkt = some reaction) : Filled reaction.nap.icnPacketBuffer := by
  unfold Nap.handleFromServer at hh
  split at hh
  · cases hh
    exact filled.handleData rCid nap.nodeId pkt
  · rw [(settles_handleControlFromServer hh).icnPacketBuffer]
    exact filled
  · cases hh
    exact filled

theorem Filled.step {receiver later : Receiver} (filled : Filled receiver.nap.icnPacketBuffer)
    {event : NapEvent} (hs : receiver.step event = some later) :
    Filled later.nap.icnPacketBuffer := by
  cases event with
  | fromClient rCid nid =>
    obtain ⟨reaction, hh, rfl⟩ := map_eq_some_iff.mp hs
    exact (filled.handleFromClient hh).react rCid nid receiver.retrieved
  | fromServer rCid =>
    obtain ⟨reaction, hh, rfl⟩ := map_eq_some_iff.mp hs
    exact (filled.handleFromServer hh).react rCid receiver.nap.nodeId receiver.retrieved
  | elsewhere =>
    cases hs
    exact filled

theorem Receiver.filled {later : Receiver} (filled : Filled receiver.nap.icnPacketBuffer)
    (ran : events.foldlM step receiver = some later) : Filled later.nap.icnPacketBuffer := by
  induction events generalizing receiver with
  | nil =>
    cases ran
    exact filled
  | cons _ _ ih =>
    obtain ⟨next, hs, ran⟩ := bind_eq_some_iff.mp ran
    exact ih (filled.step hs) ran

theorem Receiver.run_filled {nodeId : Nid} (hr : run nodeId events = some receiver) :
    Filled receiver.nap.icnPacketBuffer := by
  apply filled ?_ hr
  intro session found ht
  have he : (∅ : IcnPacketBuffer).fragments session = none := by
    rfl
  cases he.symm.trans ht

theorem exists_checkWindow (filled : sequencesOf found ≠ []) (n : Nat) :
    ∃ scan, checkWindow (sequencesOf found) n = some scan := by
  unfold checkWindow
  rw [getLast?_eq_some_getLast filled]
  exact ⟨_, rfl⟩

/-- Both handlers of a window end come to an answer. -/
theorem Filled.answers (filled : Filled nap.icnPacketBuffer) (session : Session) (n : Seq) :
    (∃ reaction, nap.handleWindowEndFromClient session.rCid session.nid session.enigma
      session.sessionKey n = some reaction) ∧
    ∃ reaction, nap.handleWindowEndFromServer session.rCid session.enigma session.sessionKey n =
      some reaction := by
  constructor
  · unfold handleWindowEndFromClient
    dsimp only
    split
    · exact ⟨_, rfl⟩
    split
    · exact ⟨_, rfl⟩
    rename_i found ht
    obtain ⟨scan, hc⟩ := exists_checkWindow (filled _ found ht) n.toNat
    simp only [hc, bind_eq_bind, bind_some]
    split
    · exact ⟨_, rfl⟩
    · exact ⟨_, rfl⟩
  · unfold handleWindowEndFromServer
    split
    · exact ⟨_, rfl⟩
    rename_i nodeIdMap hk
    split
    · exact ⟨_, rfl⟩
    rename_i sessionKeyMap nidKnown
    split
    · exact ⟨_, rfl⟩
    rename_i found keyKnown
    have ht : nap.icnPacketBuffer.fragments
        ⟨session.rCid, session.enigma, nap.nodeId, session.sessionKey⟩ = some found := by
      obtain ⟨enigmaMap, cidKnown, enigmaKnown⟩ := bind_eq_some_iff.mp hk
      simp [fragments, cidKnown, enigmaKnown, nidKnown, keyKnown]
    obtain ⟨scan, hc⟩ := exists_checkWindow (filled _ found ht) n.toNat
    simp only [hc, bind_eq_bind, bind_some]
    split
    · exact ⟨_, rfl⟩
    · split
      · exact ⟨_, rfl⟩
      · exact ⟨_, rfl⟩

end

/-- Every window end is answered, and a confirmation is true exactly if the session has an entry
with no other message's fragment under its numbers, or the message was retrieved. -/
theorem window_end_confirmed_iff (nodeId : Nid) (events : List NapEvent) (receiver : Receiver)
    (reached : Receiver.run nodeId events = some receiver) (session : Session)
    (packets : List (List UInt8)) (numbered : Numbered session packets) :
    let fromClient := receiver.nap.handleWindowEndFromClient session.rCid session.nid
      session.enigma session.sessionKey (UInt16.ofNat packets.length)
    let fromServer := receiver.nap.handleWindowEndFromServer session.rCid session.enigma
      session.sessionKey (UInt16.ofNat packets.length)
    (∃ reaction, fromClient = some reaction) ∧ (∃ reaction, fromServer = some reaction) ∧
      ∀ reaction, (fromClient = some reaction ∨
          session.nid = receiver.nap.nodeId ∧ fromServer = some reaction) →
        Confirms session reaction →
        ((Keeps packets (receiver.nap.icnPacketBuffer.fragments session) ∨
            receiver.Retrieved session packets) ↔
          (Undisturbed packets (receiver.nap.icnPacketBuffer.fragments session) ∨
            receiver.Retrieved session packets)) := by
  obtain ⟨client, server⟩ := (Receiver.run_filled reached).answers session (ofNat packets.length)
  refine ⟨client, server, fun reaction hh confirms => ?_⟩
  apply or_congr_left
  apply keeps_iff_undisturbed
  intro found ht packet hm
  apply numbered.mem ?_ hm
  rcases hh with ha | ⟨own, ha⟩
  · exact complete_of_confirms_client ha confirms ht
  · exact complete_of_confirms_server own ha confirms ht

/-- Two fragments of one byte each. -/
def smallWindow : List (List UInt8) := [smallFragment 2 4 1 5, smallFragment 2 4 2 6]

theorem numbered_smallWindow : Numbered ⟨1, 2, 7, 4⟩ smallWindow where
  small := by decide
  belongs := by
    intro pkt hm
    rcases mem_pair.mp hm with rfl | rfl
    · exact ⟨rfl, rfl⟩
    · exact ⟨rfl, rfl⟩
  number
  | 0, _, rfl => rfl
  | 1, _, rfl => rfl

/-- Both fragments arrive from node 7, the second one first. -/
def smallWindowEvents : List NapEvent :=
  [.fromClient 1 7 0 (smallFragment 2 4 2 6), .fromClient 1 7 0 (smallFragment 2 4 1 5),
    .elsewhere (Nap.forwarding 7 true)]

theorem window_end_confirmed_iff_two :
    ∃ receiver reaction, Receiver.run 9 smallWindowEvents = some receiver ∧
      receiver.nap.handleWindowEndFromClient 1 7 2 4 2 = some reaction ∧
      Confirms ⟨1, 2, 7, 4⟩ reaction ∧
      (Keeps smallWindow (receiver.nap.icnPacketBuffer.fragments ⟨1, 2, 7, 4⟩) ∨
        receiver.Retrieved ⟨1, 2, 7, 4⟩ smallWindow) := by
  refine ⟨_, _, rfl, rfl, ⟨_, mem_singleton_self _, rfl⟩, ?_⟩
  refine ((window_end_confirmed_iff 9 smallWindowEvents _ rfl ⟨1, 2, 7, 4⟩ smallWindow
    numbered_smallWindow).2.2 _ (.inl rfl) ⟨_, mem_singleton_self _, rfl⟩).mpr (.inl ?_)
  intro packet hm
  rcases mem_pair.mp hm with rfl | rfl
  · exact ⟨_, rfl, fun stored place => (Option.some.inj place).symm⟩
  · exact ⟨_, rfl, fun stored place => (Option.some.inj place).symm⟩

/-- A window end of one fragment. -/
def smallWindowEnd : List UInt8 := (Control.windowEnd 2 4 1).bytes

/-- Only the window end of node 8 has arrived, and is confirmed because of a fragment of node 7. -/
theorem window_end_confirmed_unseen :
    ∃ receiver reaction, Receiver.run 9 [.fromClient 1 7 0 (smallFragment 2 4 1 5),
        .fromClient 1 8 0 smallWindowEnd, .elsewhere (Nap.forwarding 8 true)] = some receiver ∧
      receiver.nap.handleFromClient 1 8 0 smallWindowEnd = some reaction ∧
      Confirms ⟨1, 2, 8, 4⟩ reaction ∧
      receiver.nap.icnPacketBuffer.fragments ⟨1, 2, 8, 4⟩ = none ∧ receiver.retrieved = [] :=
  ⟨_, _, rfl, rfl, ⟨_, mem_singleton_self _, rfl⟩, rfl, rfl⟩

end Blackadder.Ltp
