import Blackadder.Library.NestedMap
import Blackadder.Library.Unwinding
import Blackadder.Ltp.Wire
import Blackadder.Nap.IcnId

/-!
The HTTP handler of a cNAP. All that it knows of a host is kept under the key of an identifier made
from the host's name.
-/

namespace Blackadder.Http

open Std (TreeMap)
open NestedMap Ltp Nap IcnId Option

structure RequestPacket where
  cId : IcnId
  rCId : IcnId
  enigma : Enigma
  sessionKey : SessionKey
  packet : List UInt8
deriving DecidableEq

/-- What the handler asks of the ICN core, of the transport and of the sockets. -/
inductive Output
  | publishScope (id prefixId : Text)
  | publishInfo (id prefixId : Text)
  | unpublishInfo (id prefixId : Text)
  | publish (cId rCId : IcnId) (enigma : Enigma) (sessionKey : SessionKey) (packet : List UInt8)
  | publishFromBuffer (request : RequestPacket)
  | publishReset (cId rCId : IcnId)
  /-- The transport learns that it may publish under a CID. -/
  | forwarding (cId : IcnId)
  | send (socketFd : Int32) (packet : List UInt8)
deriving DecidableEq

structure Client where
  cIds : TreeMap Cid IcnId
  ipEndpointSessions : TreeMap Cid (TreeMap Enigma (List Int32))
  packetBufferRequests : TreeMap Cid (TreeMap Cid RequestPacket)

namespace Client

def initial : Client := ⟨∅, ∅, ∅⟩

variable (client : Client)

def addIpEndpointSession (rCId : IcnId) (enigma : Enigma) (socketFd : Int32) : Client :=
  { client with
    ipEndpointSessions := within rCId.uint (single enigma [socketFd])
      (within enigma [socketFd] fun known =>
        if socketFd ∈ known then known else known ++ [socketFd])
      client.ipEndpointSessions }

def bufferRequest (request : RequestPacket) : Client :=
  { client with
    packetBufferRequests := within request.cId.uint (single request.rCId.uint request)
      (fun requests => requests.insert request.rCId.uint request) client.packetBufferRequests }

/-- `pausing(cid)`. -/
def isPausing (cId : IcnId) : Bool :=
  match client.cIds[cId.uint]? with
  | some known => known.pausing
  | none => false

/-- `pausing(cid, state)`. -/
def setPausing (cId : IcnId) (state : Bool) : Client :=
  { client with cIds := adjust cId.uint (fun known => { known with pausing := state }) client.cIds }

/-- The scopes of an identifier that has not been advertised yet, and its information item. -/
def advertisement (cId : IcnId) : List Output :=
  .publishScope cId.rootScopeId [] ::
    ((List.range' 2 (cId.length / 16 - 2)).map fun i =>
      .publishScope (cId.scopeId i) (cId.scopePath (i - 1))) ++
    [.publishInfo cId.id cId.prefixId]

def handleRequest (fqdn resource : Text) (packet : List UInt8) (socketFd : Int32) :
    Client × List Output :=
  let sessionKey : SessionKey := socketFd.toUInt32.toUInt16
  let cId := IcnId.ofFqdn fqdn
  let rCId := IcnId.ofUrl fqdn resource
  let enigma : Enigma := 23
  let client := client.addIpEndpointSession rCId enigma socketFd
  let client := client.bufferRequest ⟨cId, rCId, enigma, sessionKey, packet⟩
  match client.cIds[cId.uint]? with
  | none =>
    let client := { client with cIds := client.cIds.insert cId.uint cId }
    if client.isPausing cId then (client, []) else (client, advertisement cId)
  | some known =>
    if !known.forwarding then
      if known.fidRequested then (client, [])
      else if client.isPausing cId then (client, [])
      else (client, [.publishInfo cId.id cId.prefixId])
    else (client, [.publish cId rCId enigma sessionKey packet])

def forwarding (cId : IcnId) (state : Bool) : Client × List Output :=
  let client := if client.isPausing cId && state then client.setPausing cId false else client
  match client.cIds[cId.uint]? with
  | none => (client, [])
  | some known =>
    let known := { known with
      forwarding := state, fidRequested := !state && known.fidRequested }
    ({ client with cIds := client.cIds.insert cId.uint known },
      if state then [.forwarding cId] else [])

def publishFromBuffer (cId : IcnId) : List Output :=
  match client.packetBufferRequests[cId.uint]? with
  | none => []
  | some requests => requests.toList.map fun entry => .publishFromBuffer entry.2

def handleDnsLocal (hashedFqdn : UInt32) : Client × List Output :=
  let cid := IcnId.ofHashedFqdn hashedFqdn
  let again : List Output :=
    [.unpublishInfo cid.id cid.prefixId, .publishInfo cid.id cid.prefixId]
  let client := (client.forwarding cid false).1
  match client.packetBufferRequests[cid.uint]? with
  | none => (client, again)
  | some requests =>
    let resets := requests.toList.map fun entry => .publishReset entry.2.cId entry.2.rCId
    if !requests.isEmpty then (client.setPausing cid true, resets) else (client, again ++ resets)

/-- The last of the sockets takes the response. -/
def sendToEndpoint (rCid : IcnId) (enigma : Enigma) (packet : List UInt8) : List Output :=
  match client.ipEndpointSessions[rCid.uint]? with
  | none => []
  | some enigmas =>
    match enigmas[enigma]? with
    | none => []
    | some sockets => sockets.getLast?.toList.map fun socketFd => .send socketFd packet

end Client

inductive Call
  | handleRequest (fqdn resource : Text) (packet : List UInt8) (socketFd : Int32)
  /-- `START_PUBLISH` for the identifier of a host. -/
  | startPublish (fqdn : Text)
  /-- `STOP_PUBLISH` or `PAUSE_PUBLISH`. -/
  | stopPublish (fqdn : Text)
  | handleDnsLocal (fqdn : Text)
  /-- A packet of the response to a request. -/
  | sendToEndpoint (fqdn resource : Text) (enigma : Enigma) (packet : List UInt8)

namespace Call

/-- The host that a call is about. -/
def fqdn : Call → Text
  | .handleRequest fqdn _ _ _ => fqdn
  | .startPublish fqdn => fqdn
  | .stopPublish fqdn => fqdn
  | .handleDnsLocal fqdn => fqdn
  | .sendToEndpoint fqdn _ _ _ => fqdn

/-- The identifier of the response, if the call is about one. -/
def rCId? : Call → Option IcnId
  | .handleRequest fqdn resource _ _ => some (IcnId.ofUrl fqdn resource)
  | .sendToEndpoint fqdn resource _ _ => some (IcnId.ofUrl fqdn resource)
  | _ => none

/-- Neither the hosts nor the responses share a key. -/
def Apart (one two : Call) : Prop :=
  (IcnId.ofFqdn one.fqdn).uint ≠ (IcnId.ofFqdn two.fqdn).uint ∧
    ∀ a ∈ one.rCId?, ∀ b ∈ two.rCId?, a.uint ≠ b.uint

end Call

/-- The next state and the outputs. A notification carries the text of an identifier. -/
def Client.step (client : Client) : Call → Client × List Output
  | .handleRequest fqdn resource packet socketFd =>
    client.handleRequest fqdn resource packet socketFd
  | .startPublish fqdn =>
    let cId := IcnId.initialise (IcnId.ofFqdn fqdn).str
    let (client, outputs) := client.forwarding cId true
    (client, outputs ++ client.publishFromBuffer cId)
  | .stopPublish fqdn => client.forwarding (IcnId.initialise (IcnId.ofFqdn fqdn).str) false
  | .handleDnsLocal fqdn => client.handleDnsLocal (IcnId.hashFqdn fqdn)
  | .sendToEndpoint fqdn resource enigma packet =>
    (client, client.sendToEndpoint (IcnId.ofUrl fqdn resource) enigma packet)

section

variable {client : Client} {key : Cid}

theorem pausing_ofHashed (hashed : UInt32) : (ofHashed hashed).pausing = false := by
  rw [ofHashed, initialise]

theorem isPausing_eq (cId : IcnId) : client.isPausing cId =
    (client.cIds[cId.uint]?.map pausing).getD false := by
  rw [Client.isPausing]
  cases client.cIds[cId.uint]? <;> rfl

theorem cIds_setPausing (cId : IcnId) (state : Bool) : (client.setPausing cId state).cIds[key]? =
      if key = cId.uint then client.cIds[cId.uint]?.map fun known => { known with pausing := state }
      else client.cIds[key]? :=
  getElem?_adjust _

/-- What `forwarding` makes of the entry of a CID. -/
def forwarded (state : Bool) (known : IcnId) : IcnId :=
  { known with
    forwarding := state
    fidRequested := !state && known.fidRequested
    pausing := !state && known.pausing }

theorem cIds_forwarding (cId : IcnId) (state : Bool) : (client.forwarding cId state).1.cIds[key]? =
      if key = cId.uint then client.cIds[cId.uint]?.map
        (forwarded state) else client.cIds[key]? := by
  cases hf : client.cIds[cId.uint]? with
  | none =>
    have awake : client.isPausing cId = false := by rw [isPausing_eq, hf]; rfl
    rw [Client.forwarding]
    simp only [awake, Bool.false_and, Bool.false_eq_true, if_false, hf]
    split
    · rename_i same
      rw [same]
      exact hf
    · rfl
  | some known =>
    have pausing : client.isPausing cId = known.pausing := by rw [isPausing_eq, hf]; rfl
    rw [Client.forwarding]
    simp only [pausing]
    by_cases wakes : (known.pausing && state) = true
    · have entry : (client.setPausing cId false).cIds[cId.uint]? =
          some { known with pausing := false } := by
        rw [cIds_setPausing, if_pos rfl, hf]
        rfl
      have on : state = true := (Bool.and_eq_true_iff.mp wakes).2
      rw [if_pos wakes, entry]
      simp only [getElem?_insert, cIds_setPausing]
      split
      · rw [on]
        rfl
      · rfl
    · have same : (!state && known.pausing) = known.pausing := by
        revert wakes
        cases known.pausing <;> cases state <;> simp
      rw [if_neg wakes, hf]
      simp only [getElem?_insert]
      split
      · rw [map_some, forwarded, same]
      · rfl

theorem forwarding_rest (cId : IcnId) (state : Bool) :
    (client.forwarding cId state).1.packetBufferRequests = client.packetBufferRequests ∧
    (client.forwarding cId state).1.ipEndpointSessions = client.ipEndpointSessions ∧
    (client.forwarding cId state).2 =
      if client.cIds[cId.uint]?.isSome && state then [.forwarding cId] else [] := by
  have entry : ∀ paused : Bool, ((if paused then client.setPausing cId false else
      client).cIds[cId.uint]?).isSome = client.cIds[cId.uint]?.isSome := by
    intro paused
    cases paused with
    | false => rfl
    | true => 
        rw [if_pos rfl, cIds_setPausing, if_pos rfl]
        exact isSome_map
  have rest : ∀ paused : Bool,
      (if paused then client.setPausing cId false else client).packetBufferRequests =
        client.packetBufferRequests ∧
      (if paused then client.setPausing cId false else client).ipEndpointSessions =
        client.ipEndpointSessions := by
    intro paused
    cases paused <;> exact ⟨rfl, rfl⟩
  rw [Client.forwarding]
  rw [← entry (client.isPausing cId && state)]
  obtain ⟨reqs, sessions⟩ := rest (client.isPausing cId && state)
  generalize (if (client.isPausing cId && state) = true then client.setPausing cId false
    else client) = awake at reqs sessions ⊢
  cases awake.cIds[cId.uint]? with
  | none => exact ⟨reqs, sessions, rfl⟩
  | some known => exact ⟨reqs, sessions, by simp⟩

/-- What a request leads to, depending on the entry of its CID. -/
def reaction (cId rCId : IcnId) (sessionKey : SessionKey) (packet : List UInt8) :
    Option IcnId → List Output
  | none => Client.advertisement cId
  | some known =>
    if known.forwarding then [.publish cId rCId 23 sessionKey packet]
    else if known.fidRequested || known.pausing then []
    else [.publishInfo cId.id cId.prefixId]

theorem handleRequest_spec (fqdn resource : Text) (pkt : List UInt8) (socketFd : Int32) :
    let cId := ofFqdn fqdn
    let rCId := ofUrl fqdn resource
    let sk := socketFd.toUInt32.toUInt16
    let hs := (client.addIpEndpointSession rCId 23 socketFd).bufferRequest
      ⟨cId, rCId, 23, sk, pkt⟩
    client.handleRequest fqdn resource pkt socketFd =
      ({ hs with
          cIds := if client.cIds[cId.uint]? = none then client.cIds.insert cId.uint cId
            else client.cIds },
        reaction cId rCId sk pkt client.cIds[cId.uint]?) := by
  intro cId rCId sk hs
  have same : hs.cIds = client.cIds := rfl
  rw [Client.handleRequest]
  simp only [isPausing_eq]
  rw [same]
  cases hf : client.cIds[cId.uint]? with
  | none =>
    have free : ((client.cIds.insert cId.uint cId)[cId.uint]?.map pausing).getD false = false := by
      rw [TreeMap.getElem?_insert_self, map_some]
      exact pausing_ofHashed _
    exact if_neg (Bool.eq_false_iff.mp free)
  | some known =>
    obtain ⟨text, hashed, fidRequested, forwarding, pausing⟩ := known
    cases forwarding with
    | true => rfl
    | false =>
      cases fidRequested with
      | true => rfl
      | false =>
        cases pausing with
        | true => rfl
        | false => rfl

end

/-- Two states that are the same for a host, whose responses have some keys. -/
structure Agree (fqdn : Text) (mine : Cid → Prop) (state alone : Client) : Prop where
  cIds : state.cIds[(IcnId.ofFqdn fqdn).uint]? = alone.cIds[(IcnId.ofFqdn fqdn).uint]?
  requests : state.packetBufferRequests[(IcnId.ofFqdn fqdn).uint]? =
    alone.packetBufferRequests[(IcnId.ofFqdn fqdn).uint]?
  sessions : ∀ key, mine key → state.ipEndpointSessions[key]? = alone.ipEndpointSessions[key]?

section

variable {fqdn : Text} {mine : Cid → Prop} {state alone : Client}

section

variable (agree : Agree fqdn mine state alone)

include agree

theorem Agree.handleRequest (resource : Text) (pkt : List UInt8) (socketFd : Int32) :
    (state.handleRequest fqdn resource pkt socketFd).2 =
        (alone.handleRequest fqdn resource pkt socketFd).2 ∧
      Agree fqdn mine (state.handleRequest fqdn resource pkt socketFd).1
        (alone.handleRequest fqdn resource pkt socketFd).1 := by
  rw [handleRequest_spec, handleRequest_spec]
  refine ⟨congrArg (reaction _ _ _ pkt) agree.cIds, ?_, ?_, ?_⟩
  · simp only [agree.cIds]
    split
    · rw [TreeMap.getElem?_insert_self, TreeMap.getElem?_insert_self]
    · exact agree.cIds
  · simp [Client.bufferRequest, Client.addIpEndpointSession, getElem?_within, agree.requests]
  · intro key own
    simp only [Client.bufferRequest, Client.addIpEndpointSession, getElem?_within]
    split
    · rename_i same
      rw [← same, agree.sessions key own]
    · exact agree.sessions key own

theorem Agree.forwarding (on : Bool) :
    (state.forwarding (ofFqdn fqdn) on).2 = (alone.forwarding (ofFqdn fqdn) on).2 ∧
      Agree fqdn mine (state.forwarding (ofFqdn fqdn) on).1
        (alone.forwarding (ofFqdn fqdn) on).1 := by
  obtain ⟨reqs, sessions, outputs⟩ := @forwarding_rest state (ofFqdn fqdn) on
  obtain ⟨reqs', sessions', outputs'⟩ := @forwarding_rest alone (ofFqdn fqdn) on
  refine ⟨?_, ?_, ?_, ?_⟩
  · rw [outputs, outputs', agree.cIds]
  · rw [cIds_forwarding, cIds_forwarding, agree.cIds]
  · rw [reqs, reqs', agree.requests]
  · intro key own
    rw [sessions, sessions', agree.sessions key own]

theorem Agree.publishFromBuffer :
    state.publishFromBuffer (ofFqdn fqdn) = alone.publishFromBuffer (ofFqdn fqdn) := by
  rw [Client.publishFromBuffer, agree.requests, Client.publishFromBuffer]

theorem Agree.setPausing (on : Bool) : Agree fqdn mine (state.setPausing (ofFqdn fqdn) on)
      (alone.setPausing (ofFqdn fqdn) on) := by
  refine ⟨?_, agree.requests, agree.sessions⟩
  rw [cIds_setPausing, cIds_setPausing, agree.cIds]

theorem Agree.handleDnsLocal :
    (state.handleDnsLocal (hashFqdn fqdn)).2 = (alone.handleDnsLocal (hashFqdn fqdn)).2 ∧
      Agree fqdn mine (state.handleDnsLocal (hashFqdn fqdn)).1
        (alone.handleDnsLocal (hashFqdn fqdn)).1 := by
  have identifier : ofHashedFqdn (hashFqdn fqdn) = ofFqdn fqdn := (ofHashed_eq _).symm
  obtain ⟨-, after⟩ := agree.forwarding false
  rw [Client.handleDnsLocal, Client.handleDnsLocal]
  simp only [identifier, after.requests]
  split
  · exact ⟨rfl, after⟩
  · split
    · exact ⟨rfl, after.setPausing true⟩
    · exact ⟨rfl, after⟩

theorem Agree.sendToEndpoint {rCid : IcnId} (own : mine rCid.uint) (enigma : Enigma)
    (pkt : List UInt8) :
    state.sendToEndpoint rCid enigma pkt = alone.sendToEndpoint rCid enigma pkt := by
  rw [Client.sendToEndpoint, agree.sessions _ own, Client.sendToEndpoint]

end

variable (agree : Agree fqdn mine state alone)

include agree

theorem Agree.step {call : Call} (host : call.fqdn = fqdn)
    (own : ∀ rCid ∈ call.rCId?, mine rCid.uint) : (state.step call).2 = (alone.step call).2 ∧
      Agree fqdn mine (state.step call).1 (alone.step call).1 := by
  subst host
  cases call with
  | handleRequest fqdn resource pkt socketFd => exact agree.handleRequest resource pkt socketFd
  | startPublish fqdn =>
    obtain ⟨outputs, after⟩ := agree.forwarding true
    exact ⟨congrArg₂ _ outputs after.publishFromBuffer, after⟩
  | stopPublish fqdn =>
    exact agree.forwarding false
  | handleDnsLocal fqdn => exact agree.handleDnsLocal
  | sendToEndpoint _ _ enigma pkt =>
    exact ⟨agree.sendToEndpoint (own _ rfl) enigma pkt, agree⟩

theorem Agree.forwarding_elsewhere {cId : IcnId} (host : (ofFqdn fqdn).uint ≠ cId.uint)
    (on : Bool) :
 Agree fqdn mine (state.forwarding cId on).1 alone := by
  obtain ⟨reqs, sessions, -⟩ := @forwarding_rest state cId on
  refine ⟨?_, ?_, ?_⟩
  · rw [cIds_forwarding, if_neg host, agree.cIds]
  · rw [reqs, agree.requests]
  · intro key own
    rw [sessions, agree.sessions key own]

/-- The calls for another host, with another key, leave the state of this one as it is. -/
theorem Agree.elsewhere {call : Call} (host : (ofFqdn fqdn).uint ≠ (ofFqdn call.fqdn).uint)
    (other : ∀ rCid ∈ call.rCId?, ¬ mine rCid.uint) :
    Agree fqdn mine (state.step call).1 alone := by
  cases call with
  | handleRequest =>
    rw [Client.step, handleRequest_spec]
    refine ⟨?_, ?_, ?_⟩
    · rw [← agree.cIds]
      split
      · rw [getElem?_insert]
        exact if_neg host
      · rfl
    · rw [← agree.requests]
      simp only [Client.bufferRequest, getElem?_within]
      exact if_neg host
    · intro key own
      rw [← agree.sessions key own]
      simp only [Client.bufferRequest, Client.addIpEndpointSession, getElem?_within]
      apply if_neg
      rintro rfl
      exact other _ rfl own
  | startPublish name =>
    exact agree.forwarding_elsewhere host true
  | stopPublish name =>
    exact agree.forwarding_elsewhere host false
  | handleDnsLocal name =>
    have identifier : ofHashedFqdn (hashFqdn name) = ofFqdn name := (ofHashed_eq _).symm
    have after := agree.forwarding_elsewhere host false
    rw [Client.step, Client.handleDnsLocal]
    simp only [identifier]
    split
    · exact after
    split
    · refine ⟨?_, after.requests, after.sessions⟩
      rw [cIds_setPausing, ← after.cIds]
      exact if_neg host
    · exact after
  | sendToEndpoint => exact agree

end

/-- The calls for a host, with what they lead to. -/
def ofHost (fqdn : Text) (client : Client) (calls : List Call) : List (Call × List Output) :=
  Unwinding.observed Client.step (fun call => call.fqdn = fqdn) client calls

/-- What the calls for a host lead to does not depend on those for others with other keys. -/
theorem ofHost_filter {fqdn : Text} {calls : List Call} (client : Client)
    (apart : ∀ one ∈ calls, one.fqdn = fqdn → ∀ two ∈ calls, two.fqdn ≠ fqdn → one.Apart two) :
    ofHost fqdn client calls = ofHost fqdn client (calls.filter fun call => call.fqdn = fqdn) := by
  by_cases ha : ∃ call ∈ calls, call.fqdn = fqdn
  · obtain ⟨first, hm, host⟩ := ha
    let mine (key : Cid) : Prop :=
      ∃ call ∈ calls, call.fqdn = fqdn ∧ ∃ rCid ∈ call.rCId?, rCid.uint = key
    apply @Unwinding.observed_filter _ _ _ Client.step _ (Agree fqdn mine) (· ∈ calls)
    · intro state alone call hi other agree
      have foreign := of_decide_eq_false other
      apply agree.elsewhere
      · rw [← host]
        exact (apart first hm host call hi foreign).1
      · rintro rCid response ⟨own, here, same, theirs, hk, key⟩
        exact (apart own here same call hi foreign).2 theirs hk rCid response key
    · intro state alone call hi own agree
      exact agree.step (of_decide_eq_true own) fun rCid response =>
        ⟨call, hi, of_decide_eq_true own, rCid, response, rfl⟩
    · intro call hi
      exact hi
    · exact ⟨rfl, rfl, fun _ _ => rfl⟩
  · -- nothing is asked of the host
    apply @Unwinding.observed_filter _ _ _ Client.step _ (fun _ _ => True) (·.fqdn ≠ fqdn)
    · intro _ _ _ _ _ _
      trivial
    · intro _ _ call other own
      exact absurd (of_decide_eq_true own) other
    · intro call hi host
      exact ha ⟨call, hi, host⟩
    · trivial

/-- Two hosts share an identifier or a key just if the decimal digits of the hashes of their names
are congruent in base 31. Hosts and resources that share none do not affect each other. -/
theorem hosts_apart_iff (one two : Text) (first : IsDnsName one) (second : IsDnsName two) :
    (((IcnId.ofFqdn one).str = (IcnId.ofFqdn two).str ∨
        (IcnId.ofFqdn one).uint = (IcnId.ofFqdn two).uint → one = two) ↔
      one = two ∨ ¬ residue one ≡ residue two [MOD 2 ^ 32]) ∧
    ∀ (client : Client) (calls : List Call),
      (∀ mine ∈ calls, mine.fqdn = one → ∀ other ∈ calls, other.fqdn ≠ one → mine.Apart other) →
      ofHost one client calls = ofHost one client (calls.filter fun call => call.fqdn = one) := by
  constructor
  · rw [shares_iff first second, imp_iff_not_or, or_comm]
  · intro client calls apart
    exact ofHost_filter client apart

/-- `a.com` and `b.com`. -/
theorem hosts_apart_iff_letters :
    ¬ ((IcnId.ofFqdn [97, 46, 99, 111, 109]).str = (IcnId.ofFqdn [98, 46, 99, 111, 109]).str ∨
      (IcnId.ofFqdn [97, 46, 99, 111, 109]).uint = (IcnId.ofFqdn [98, 46, 99, 111, 109]).uint) := by
  intro shared
  have apart := hosts_apart_iff [97, 46, 99, 111, 109] [98, 46, 99, 111, 109] (by decide +kernel)
    (by decide +kernel)
  exact absurd (apart.1.mpr (.inr (by decide +kernel)) shared) (by decide)

/-- Once `an.com` may be published, the first request for `c0.com` is published in its place. -/
theorem hosts_share_identifier :
    let one : Text := [97, 110, 46, 99, 111, 109]
    let two : Text := [99, 48, 46, 99, 111, 109]
    IsDnsName one ∧ IsDnsName two ∧ one ≠ two ∧ (ofFqdn one).str = (ofFqdn two).str ∧
      (ofFqdn one).uint = (ofFqdn two).uint ∧
      ((ofHost two Client.initial [.handleRequest one [47] [1] 5, .startPublish one,
          .handleRequest two [47] [2] 6]).map Prod.snd =
        [[.publish (ofFqdn one) (ofUrl two [47]) 23 6 [2]]]) ∧
      (ofHost two Client.initial [.handleRequest two [47] [2] 6]).map Prod.snd =
        [Client.advertisement (ofFqdn two)] := by
  decide +kernel

end Blackadder.Http
