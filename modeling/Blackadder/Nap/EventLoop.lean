import Blackadder.Common
import Blackadder.Nap.IcnId

namespace Blackadder.Nap.Icn

open List

structure Event where
  type : MessageType
  id : Text
  nodeId : Text
  isubID : Text
  data : Text
deriving DecidableEq

inductive TpState
  | fragmentsOutstanding | allFragmentsReceived | noTransportProtocolUsed | sessionEnded
  | noActionRequired
deriving DecidableEq

/-- What the transport says to the data of an event. `retrieved` is the packet in its buffer. -/
structure Answer where
  tpState : TpState
  enigma : UInt32
  sessionKey : UInt16
  retrieved : Option Text

/-- The calls of handlers. -/
inductive Call
  | subscribeScope (icnId : Text)
  | forwarding (icnId : Text) (state : Bool)
  | forwardingNode (nodeId : Text) (state : Bool)
  | handleStartPublish (icnId : Text)
  | handleStartPublishISub (rCId : Text)
  | publishFromBuffer (icnId : Text)
  | handleIgmpData (icnId : Text) (event : Event)
  | handleIgmpDataISub (rCId : Text) (event : Event)
  | addReverseNidToRCIdLookUp (nodeId rCId : Text)
  | handle (icnId data : Text)
  | handleISub (icnId rCId nodeId data : Text)
  | retrieveIcnPacket (icnId nodeId : Text) (enigma : UInt32) (sessionKey : UInt16)
  | sendToEndpoint (icnId : Text) (enigma : UInt32) (packet : Text)
  | endOfSession (icnId : Text) (enigma : UInt32) (sessionKey : UInt16)
  | handlePublishedData (icnId data : Text)
  | tcpClient (icnId rCId : Text) (enigma : UInt32) (sessionKey : UInt16) (nodeId packet : Text)
  | unpublishInfo (icnId : Text)
deriving DecidableEq

def hexDigit (n : UInt8) : UInt8 := if n < 10 then 48 + n else 87 + n

def chararrayToHex (str : Text) : Text := str.flatMap fun c =>
    [hexDigit (c / 16), hexDigit (c % 16)]

/-- `atoi` of the first 16 characters, in 16 bits. -/
def rootNamespace (icnId : Text) : Nat :=
  ((icnId.take 16).takeWhile fun c => 48 ≤ c ∧ c ≤ 57).foldl (fun n c => 10 * n + (c - 48).toNat)
    0 % 2 ^ 16

/-- `NAMESPACE_IGMP_CTRL` or `NAMESPACE_IGMP_DATA`. -/
def IsIgmp (icnId : Text) : Prop := rootNamespace icnId = 9 ∨ rootNamespace icnId = 10

instance (icnId : Text) : Decidable (IsIgmp icnId) := inferInstanceAs (Decidable (_ ∨ _))

/-- One round of the loop, with the `rCId` that it finds and leaves. -/
def round (own rCId : Text) (event : Event) (answer : Answer) : List Call × Text :=
  let icnId := chararrayToHex event.id
  match event.type with
  | .scopePublished => ([.subscribeScope icnId], rCId)
  | .startPublish => ([.forwarding icnId true,
      if IsIgmp icnId then .handleStartPublish icnId else .publishFromBuffer icnId], rCId)
  | .startPublishISub => ([if IsIgmp rCId then .handleStartPublishISub rCId
      else .forwardingNode event.id true], rCId)
  | .stopPublish => ([.forwarding icnId false], rCId)
  | .pausePublish => ([.forwarding icnId false], rCId)
  | .publishedData =>
    if IsIgmp icnId then ([.handleIgmpData icnId event], rCId)
    else (.handle icnId event.data :: match answer.tpState with
      | .allFragmentsReceived => .retrieveIcnPacket icnId own answer.enigma answer.sessionKey ::
          (answer.retrieved.map (.sendToEndpoint icnId answer.enigma)).toList
      | .sessionEnded => [.endOfSession icnId answer.enigma answer.sessionKey]
      | .noTransportProtocolUsed => [.handlePublishedData icnId event.data]
      | _ => [], rCId)
  | .publishedDataISub =>
    let rCId := chararrayToHex event.isubID
    if IsIgmp rCId then ([.handleIgmpDataISub rCId event], rCId)
    else (.addReverseNidToRCIdLookUp event.nodeId rCId ::
      .handleISub icnId rCId event.nodeId event.data ::
      if answer.tpState = .allFragmentsReceived then
        .retrieveIcnPacket rCId event.nodeId answer.enigma answer.sessionKey ::
          if rootNamespace icnId = 1 then (answer.retrieved.map
            (.tcpClient icnId rCId answer.enigma answer.sessionKey event.nodeId)).toList
          else []
      else [], rCId)
  | .rePublish => ([.unpublishInfo icnId, .forwarding icnId false], rCId)
  | _ => ([], rCId)

/-- The calls for each event. -/
def loop (own : Text) : Text → List (Event × Answer) → List (List Call)
  | _, [] => []
  | rCId, (event, answer) :: later =>
    (round own rCId event answer).1 :: loop own (round own rCId event answer).2 later

/-- The `rCId` that events leave behind. -/
def leftover (rCId : Text) (events : List (Event × Answer)) : Text :=
  events.foldl (fun rCId event => if event.1.type = .publishedDataISub then
    chararrayToHex event.1.isubID else rCId) rCId

variable (own rCId : Text) (event : Event) (answer : Answer)

theorem round_snd : (round own rCId event answer).2 = leftover rCId [(event, answer)] := by
  simp only [round, leftover]
  split <;> simp_all
  split <;> rfl
  split <;> rfl

theorem round_fst_iff : (round own rCId event answer).1 = (round own [] event answer).1 ↔
    (event.type = .startPublishISub → ¬ IsIgmp rCId) := by
  by_cases start : event.type = .startPublishISub
  · have none : ¬ IsIgmp [] := by decide
    simp only [round, start, if_neg none]
    by_cases igmp : IsIgmp rCId
    · simp [igmp]
    · simp [igmp]
  · simp only [round, start, false_implies, iff_true]
    split <;> first | rfl | contradiction | (split <;> rfl)

/-- Every event is handled as if alone exactly if no `START_PUBLISH_iSUB` finds the `rCId` of an
IGMP namespace. -/
theorem handled_alone_iff (events : List (Event × Answer)) :
    loop own rCId events = events.map (fun event => (round own [] event.1 event.2).1) ↔
      ∀ front event back, events = front ++ event :: back →
        event.1.type = .startPublishISub → ¬ IsIgmp (leftover rCId front) := by
  induction events generalizing rCId with
  | nil => simp [loop]
  | cons head later ih =>
    rw [loop, map_cons, cons.injEq, round_fst_iff, ih, round_snd]
    constructor
    · intro both front event back hs start
      cases front with
      | nil =>
        cases hs
        exact both.1 start
      | cons first front =>
        cases hs
        exact both.2 front event back rfl start
    · intro all
      refine ⟨all [] head later rfl, fun front event back hs => ?_⟩
      exact all (head :: front) event back (by rw [hs]; rfl)

/-- Behind a packet for an IGMP namespace, forwarding to a node is not enabled. -/
theorem igmp_packet_diverts_start :
    let packet : Event := ⟨.publishedDataISub, [], [], [0, 0, 0, 0, 0, 0, 0, 9], []⟩
    let start : Event := ⟨.startPublishISub, [48, 49], [], [], []⟩
    let answer : Answer := ⟨.noActionRequired, 0, 0, none⟩
    Call.forwardingNode [48, 49] true ∈ (loop [] [] [(start, answer)]).flatten ∧
      Call.forwardingNode [48, 49] true ∉
        (loop [] [] [(packet, answer), (start, answer)]).flatten := by
  decide

end Blackadder.Nap.Icn
