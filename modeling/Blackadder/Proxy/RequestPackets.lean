import Blackadder.Proxy.Network
import Blackadder.Proxy.Subscriptions
import Blackadder.Rendezvous.Handlers

namespace Blackadder.Proxy

open List hiding Vector
open Program View HashTable MessageType UInt8 Nat
open Wire (Buffer Fid Request bytes fidLen nodeIDLen pursuitIDLen idAt)

/-- The request types of the rendezvous element. -/
def requestTypeOf (type : UInt8) : Rendezvous.RequestType :=
  if type = MessageType.publishScope.code then .publishScope
  else if type = MessageType.publishInfo.code then .publishInfo
  else if type = MessageType.unpublishScope.code then .unpublishScope
  else if type = MessageType.unpublishInfo.code then .unpublishInfo
  else if type = MessageType.subscribeScope.code then .subscribeScope
  else if type = MessageType.subscribeInfo.code then .subscribeInfo
  else if type = MessageType.unsubscribeScope.code then .unsubscribeScope
  else if type = MessageType.unsubscribeInfo.code then .unsubscribeInfo
  else .unknown

/-- `LocalRV::push` up to what it does with the event. -/
def readEvent (data : View) : Rendezvous.Event :=
  let typeOfAPIEvent := data 0
  let idLengthOfAPIEvent := (data 1).toNat
  let idOfAPIEvent := idAt data (1 + 1) idLengthOfAPIEvent
  let payload := 1 + 1 + idLengthOfAPIEvent * pursuitIDLen
  if typeOfAPIEvent = MessageType.publishedData.code then
    let request := Wire.readRequest fun i => data (payload + i)
    .publishedData
      { nodeID := idOfAPIEvent.drop 1
        type := requestTypeOf request.type
        id := request.id
        prefixID := request.prefixID
        strategy := request.strategy }
  else if typeOfAPIEvent = MessageType.publishedDataISub.code then
    .publishedDataISub ((List.range (data payload).toNat).map fun i =>
      idAt data (payload + 1 + i * nodeIDLen) 1)
  else
    .unexpected

/-- A packet that an application has sent. -/
def packetOf (content : List UInt8) : Wire.Packet := ⟨content.length, fun i => content[i]?⟩

/-- `p->push(n)`. -/
def pushRoom (packet : Wire.Packet) (n : Nat) : Wire.Packet :=
  ⟨packet.length + n, packet.data.shift n⟩

variable (gc : GlobalConf)

/-- The packet of `publishReqToRV`: a header for the rendezvous of the node or the path before the
request. -/
def requestPacket (route : Option Fid) (content : List UInt8) : Wire.Packet :=
  match route with
  | none =>
    let p1 := pushRoom (packetOf content) (1 + 1 + (bytes gc.nodeRVScope).length)
    let idLengthOfAPIEvent := UInt8.ofNat ((bytes gc.nodeRVScope).length / pursuitIDLen)
    let data := p1.data.memcpy 0 [MessageType.publishedData.code]
    let data := data.memcpy 1 [idLengthOfAPIEvent]
    { p1 with data := data.memcpy (1 + 1) (bytes gc.nodeRVScope) }
  | some rvFid =>
    let p1 := pushRoom (packetOf content) (1 + 1 * 1 + 2 * pursuitIDLen)
    let data := p1.data.memcpy 0 [1]
    let data := data.memcpy 1 [2]
    let data := data.memcpy (1 + 1) (bytes gc.nodeRVScope)
    let p2 := pushRoom { p1 with data := data } fidLen
    { p2 with data := p2.data.memcpy 0 rvFid.toList }

/-- What `createAndSendPacketToRV` puts behind the header that ends at `base`. -/
def putRequest (base : Nat) (type : MessageType) (idLength : UInt8) (id : ID)
    (prefixIDLength : UInt8) (prefixID : ID) (strategy : Strategy) (data : Memory) : Memory :=
  let data := data.memcpy base [type.code]
  let data := data.memcpy (base + 1) [idLength]
  let data := data.memcpy (base + 1 + 1) (bytes id)
  let data := data.memcpy (base + 1 + 1 + (bytes id).length) [prefixIDLength]
  let data := data.memcpy (base + 1 + 1 + (bytes id).length + 1) (bytes prefixID)
  data.memcpy (base + 1 + 1 + (bytes id).length + 1 + (bytes prefixID).length) [strategy]

/-- Its length comes from the lengths that it is given, what is put into it from the identifiers. -/
def createdPacket (route : Option Fid) (type : MessageType) (idLength : UInt8)
    (id : ID) (prefixIDLength : UInt8) (prefixID : ID) (strategy : Strategy) : Wire.Packet :=
  let length := 1 + 1 * 1 + 2 * pursuitIDLen + 1 + 1 + idLength.toNat * pursuitIDLen + 1
    + prefixIDLength.toNat * pursuitIDLen + 1
  match route with
  | none =>
    let idLengthOfAPIEvent := UInt8.ofNat ((bytes gc.nodeRVScope).length / pursuitIDLen)
    let data := Memory.blank.memcpy 0 [MessageType.publishedData.code]
    let data := data.memcpy 1 [idLengthOfAPIEvent]
    let data := data.memcpy (1 + 1) (bytes gc.nodeRVScope)
    { length
      data := putRequest (1 + 1 + (bytes gc.nodeRVScope).length) type idLength id
        prefixIDLength prefixID strategy data }
  | some rvFid =>
    let data := Memory.blank.memcpy 0 rvFid.toList
    let data := data.memcpy fidLen [1]
    let data := data.memcpy (fidLen + 1) [2]
    let data := data.memcpy (fidLen + 1 + 1) ((bytes gc.nodeRVScope).take (2 * pursuitIDLen))
    { length := fidLen + length
      data := putRequest (fidLen + 1 + 1 + 2 * pursuitIDLen) type idLength id prefixIDLength
        prefixID strategy data }

/-- The packet of `pushDataToLocalSubscriber`, without what it is handed to. -/
def eventBytes (type : MessageType) (id : ID) (data : List UInt8) : List UInt8 :=
  [type.code, UInt8.ofNat ((bytes id).length / pursuitIDLen)] ++ bytes id ++ data

section

/-- A request with the lengths that are given for its identifiers. -/
def requestBytes (type idLength : UInt8) (id : ID) (prefixIDLength : UInt8) (prefixID : ID)
    (strategy : Strategy) : List UInt8 :=
  [type, idLength] ++ bytes id ++ [prefixIDLength] ++ bytes prefixID ++ [strategy]

/-- What stands before a request on its way. -/
def routeHeader : Option Fid → List UInt8
  | none => [MessageType.publishedData.code, 2] ++ bytes gc.nodeRVScope
  | some rvFid => rvFid.toList ++ ([1, 2] ++ bytes gc.nodeRVScope)

variable {gc : GlobalConf} {route : Option Fid}

theorem length_nodeRVScope (gc : GlobalConf) : (bytes gc.nodeRVScope).length = 2 * pursuitIDLen :=
  Wire.length_bytes _

theorem fragments_nodeRVScope (gc : GlobalConf) :
    UInt8.ofNat ((bytes gc.nodeRVScope).length / pursuitIDLen) = 2 := by
  rw [length_nodeRVScope]
  rfl

theorem requestPacket_holds (content : List UInt8) :
    (requestPacket gc route content).data.Holds (routeHeader gc route ++ content) ∧
      (requestPacket gc route content).length = (routeHeader gc route ++ content).length := by
  have scope := length_nodeRVScope gc
  have hg : (packetOf content).data.Holds content := fun _ => rfl
  cases route with
  | none =>
    have room := hg.shift (1 + 1 + (bytes gc.nodeRVScope).length)
    have type := room.memcpy (show 0 = _ from rfl) [publishedData.code] (by simp; omega)
    have len := type.memcpy (show 1 = _ from rfl)
      [ofNat ((bytes gc.nodeRVScope).length / pursuitIDLen)] (by simp)
    have all := len.memcpy (show 1 + 1 = _ from rfl) (bytes gc.nodeRVScope) (by simp)
    rw [fragments_nodeRVScope] at all
    refine ⟨?_, ?_⟩
    · simp only [requestPacket, fragments_nodeRVScope]
      exact all.holds (by simp; omega)
    · simp [requestPacket, pushRoom, packetOf, routeHeader]
      omega
  | some rvFid =>
    have room := hg.shift (1 + 1 * 1 + 2 * pursuitIDLen)
    have num := room.memcpy (show 0 = _ from rfl) [1] (by simp; omega)
    have len := num.memcpy (show 1 = _ from rfl) [2] (by simp)
    have inner := (len.memcpy (show 1 + 1 = _ from rfl) (bytes gc.nodeRVScope)
      (by simp [scope])).holds (by simp [scope]; omega)
    have all := ((inner.shift fidLen).memcpy (show 0 = _ from rfl) rvFid.toList
      (by simp [fidLen])).holds (by simp [fidLen])
    refine ⟨?_, ?_⟩
    · simpa only [requestPacket, pushRoom, routeHeader, append_assoc, cons_append,
        nil_append] using all
    · simp [requestPacket, pushRoom, packetOf, routeHeader, fidLen]
      omega

theorem putRequest_holds {data : Memory} {front : List UInt8} {base : Nat}
    (hh : data.Holds front) (behind : base = front.length) (type : MessageType)
    (idLength : UInt8) (id : ID) (prefixIDLength : UInt8) (pre : ID) (strat : Strategy) :
    (putRequest base type idLength id prefixIDLength pre strat data).Holds
      (front ++ requestBytes type.code idLength id prefixIDLength pre strat) := by
  have first := hh.memcpy behind [type.code]
  have second := first.memcpy (show base + 1 = _ by simp [behind]) [idLength]
  have third := second.memcpy (show base + 1 + 1 = _ by simp [behind]) (bytes id)
  have fourth := third.memcpy (show base + 1 + 1 + (bytes id).length = _ by simp [behind]; omega)
    [prefixIDLength]
  have fifth := fourth.memcpy
    (show base + 1 + 1 + (bytes id).length + 1 = _ by simp [behind]; omega) (bytes pre)
  have all := fifth.memcpy (show base + 1 + 1 + (bytes id).length + 1 + (bytes pre).length = _ by
      simp [behind]; omega) [strat]
  simpa only [putRequest, requestBytes, append_assoc, cons_append, nil_append] using all

theorem createdPacket_holds (type : MessageType) (idLength : UInt8) (id : ID)
    (prefixIDLength : UInt8) (pre : ID) (strat : Strategy) (pkt : Wire.Packet)
    (written : pkt = createdPacket gc route type idLength id prefixIDLength pre strat) :
    pkt.data.Holds (routeHeader gc route ++
        requestBytes type.code idLength id prefixIDLength pre strat) ∧
      pkt.length = (routeHeader gc route).length + 1 + 1 + idLength.toNat * pursuitIDLen + 1
        + prefixIDLength.toNat * pursuitIDLen + 1 := by
  have scope := length_nodeRVScope gc
  subst written
  cases route with
  | none =>
    have first := Memory.holds_blank.memcpy (show 0 = _ from rfl) [publishedData.code]
    have len := first.memcpy (show 1 = _ from rfl)
      [ofNat ((bytes gc.nodeRVScope).length / pursuitIDLen)]
    have hdr := len.memcpy (show 1 + 1 = _ from rfl) (bytes gc.nodeRVScope)
    have all := putRequest_holds hdr
      (show 1 + 1 + (bytes gc.nodeRVScope).length = _ by simp; omega) type idLength id
      prefixIDLength pre strat
    rw [fragments_nodeRVScope] at all
    refine ⟨?_, ?_⟩
    · simp only [createdPacket, fragments_nodeRVScope]
      exact all
    · simp only [createdPacket, routeHeader, length_append, scope, length_cons, length_nil]
  | some rvFid =>
    have path := Memory.holds_blank.memcpy (show 0 = _ from rfl) rvFid.toList
    have num := path.memcpy (show fidLen = _ by simp [fidLen]) [1]
    have len := num.memcpy (show fidLen + 1 = _ by simp [fidLen]) [2]
    have hdr := len.memcpy (show fidLen + 1 + 1 = _ by simp [fidLen])
      ((bytes gc.nodeRVScope).take (2 * pursuitIDLen))
    rw [take_of_length_le (le_of_eq scope)] at hdr
    have all := putRequest_holds hdr (show fidLen + 1 + 1 + 2 * pursuitIDLen = _ by
      simp [fidLen]; omega) type idLength id prefixIDLength pre strat
    refine ⟨?_, ?_⟩
    · simp only [createdPacket, take_of_length_le (le_of_eq scope)]
      simpa only [routeHeader, append_assoc, cons_append, nil_append] using all
    · simp only [createdPacket, routeHeader, length_append, length_cons,
        length_nil, Vector.length_toList, fidLen]
      omega

end

section

variable {view : View} {type idLength prefixIDLength : UInt8} {id prefixID : ID}
  {strategy : Strategy} {rest : List UInt8}

section

variable
  (hs : view.Shows 0 (requestBytes type idLength id prefixIDLength prefixID strategy ++ rest))

include hs

/-- Where the parts of a request are when its first length is true. -/
theorem shows_requestBytes (idTrue : idLength.toNat = id.length) :
    view 0 = type ∧ (view 1).toNat = id.length ∧ view.Shows (1 + 1) (bytes id) ∧
      view (1 + 1 + id.length * pursuitIDLen) = prefixIDLength ∧
      view.Shows (1 + 1 + id.length * pursuitIDLen + 1) (bytes prefixID) ∧
      view (1 + 1 + id.length * pursuitIDLen + 1 + prefixID.length * pursuitIDLen) = strategy := by
  simp only [requestBytes, append_assoc, cons_append, nil_append,
    shows_cons, shows_append, Wire.length_bytes] at hs
  obtain ⟨ht, len, content, prefixLength, prefixContent, isStrategy, -⟩ := hs
  refine ⟨ht, ?_, content, prefixLength, prefixContent, isStrategy⟩
  rw [show view 1 = _ from len]
  exact idTrue

theorem readRequest_of_shows (idTrue : idLength.toNat = id.length)
    (prefixTrue : prefixIDLength.toNat = prefixID.length) :
    Wire.readRequest view = ⟨type, id, prefixID, strategy⟩ := by
  obtain ⟨ht, len, content, prefixLength, prefixContent, isStrategy⟩ := shows_requestBytes hs idTrue
  simp only [Wire.readRequest, ht, len, prefixLength, prefixTrue,
    Wire.idAt_of_shows content, Wire.idAt_of_shows prefixContent, isStrategy]

theorem lengths_of_readRequest (isID : (Wire.readRequest view).id = id)
    (isPrefix : (Wire.readRequest view).prefixID = prefixID) :
    idLength.toNat = id.length ∧ prefixIDLength.toNat = prefixID.length := by
  have second : view 1 = idLength := by
    simp only [requestBytes, cons_append, shows_cons] at hs
    exact hs.2.1
  have idTrue : idLength.toNat = id.length := by
    rw [← isID, Wire.readRequest, Wire.length_idAt, second]
  obtain ⟨-, len, -, prefixLength, -⟩ := shows_requestBytes hs idTrue
  refine ⟨idTrue, ?_⟩
  rw [← isPrefix, Wire.readRequest, Wire.length_idAt, len, prefixLength]

end

variable {gc : GlobalConf}

/-- The event that the rendezvous element should get for a request of the node. -/
def original (gc : GlobalConf) (request : Request) : Rendezvous.Event :=
  .publishedData
    { nodeID := [gc.nodeID]
      type := requestTypeOf request.type
      id := request.id
      prefixID := request.prefixID
      strategy := request.strategy }

/-- The rendezvous element finds the node behind the scope, and the request behind both. -/
theorem readEvent_of_shows {content : List UInt8}
    (hs : view.Shows 0 (routeHeader gc none ++ content)) : readEvent view =
        original gc (Wire.readRequest fun i => view (1 + 1 + 2 * pursuitIDLen + i)) ∧
      View.Shows (fun i => view (1 + 1 + 2 * pursuitIDLen + i)) 0 content := by
  rw [routeHeader, shows_append, cons_append, shows_cons, cons_append,
    shows_cons, nil_append, length_cons, length_cons, length_nodeRVScope] at hs
  obtain ⟨⟨event, len, scope⟩, req⟩ := hs
  have two : (view 1).toNat = gc.nodeRVScope.length := by
    rw [show view 1 = _ from len]
    rfl
  have isScope : idAt view (1 + 1) gc.nodeRVScope.length = gc.nodeRVScope :=
    Wire.idAt_of_shows scope
  refine ⟨?_, shows_shift.mpr (by rw [Nat.add_comm _ (2 * _)]; simpa using req)⟩
  rw [readEvent, event, two, isScope]
  rfl

end

section

variable {s : LocalProxy} {p : Packet} {apiType : MessageType} {id : ID}

/-- The event for one local subscriber. -/
def eventFor (s : LocalProxy) (apiType : MessageType) (data : List UInt8) (target : Ptr × ID) :
    Option Out :=
  (s.heap.get target.1).map fun host => .event host.type host.id apiType target.2 data

variable {host : Ptr}

theorem pushDataToLocalSubscriber_event (hl : host ∈ s.heap) (id : ID) :
    Program.wp (pushDataToLocalSubscriber host id p apiType)
      (fun _ s' => s'.heap = s.heap ∧ ∃ event, s'.out = s.out ++ [event] ∧
        eventFor s apiType p.contents (host, id) = some event) (fun _ => False) s := by
  obtain ⟨target, hf⟩ := HashTable.mem_iff_get.mp hl
  simp only [pushDataToLocalSubscriber, deref, Program.wp_bind, Program.wp_read, hf]
  refine ⟨rfl, _, rfl, ?_⟩
  rw [eventFor, hf]
  rfl

theorem deliver_events {targets : List (Ptr × ID)} (hl : ∀ target ∈ targets, target.1 ∈ s.heap) :
    Program.wp (deliver p apiType targets) (fun _ s' => ∃ events, s'.out = s.out ++ events ∧
        targets.map (eventFor s apiType p.contents) = events.map some) (fun _ => False) s := by
  induction targets generalizing s with
  | nil => exact ⟨[], (append_nil _).symm, rfl⟩
  | cons target rest ih =>
    obtain ⟨host, id⟩ := target
    have ha : host ∈ s.heap := hl (host, id) mem_cons_self
    cases rest with
    | nil =>
      refine Program.wp_post (pushDataToLocalSubscriber_event ha id) ?_
      rintro _ s' ⟨-, event, out, hf⟩
      exact ⟨_, out, congrArg (fun first => [first]) hf⟩
    | cons next rest =>
      simp only [deliver, clone, note, Program.wp_bind, Program.wp_read, Program.wp_update,
        Program.wp_pure]
      refine Program.wp_post (pushDataToLocalSubscriber_event (by exact ha) id) ?_
      rintro _ s1 ⟨heap, event, out, hf⟩
      have others : ∀ target ∈ next :: rest, target.1 ∈ s1.heap := by
        intro target hm
        rw [heap]
        exact hl target (mem_cons_of_mem _ hm)
      have same : eventFor s1 apiType p.contents = eventFor s apiType p.contents := by
        funext target
        rw [eventFor, heap, eventFor]
      refine Program.wp_post (ih others) ?_
      rintro _ s2 ⟨events, out2, each⟩
      rw [same] at each
      refine ⟨event :: events, ?_, ?_⟩
      · rw [out2, out, append_assoc]
        rfl
      · rw [map_cons, each]
        exact congrArg (· :: _) hf

variable [IterationOrder]

/-- A local subscriber of a name. -/
def SubscribedTo (s : LocalProxy) (name : ID) (host : Ptr) : Prop :=
  s.activeSubscriptionIndex.Has name fun as => host ∈ as.subscribers

omit [IterationOrder] in
theorem subscribedTo_iff {name : ID} : SubscribedTo s name host ↔
    ∃ as, s.activeSubscriptionIndex.get name = some as ∧ host ∈ as.subscribers.keys :=
  Iff.rfl

/-- The subscribers of an identifier and of the scope it is under are found for it. -/
theorem get_findLocalSubscribers (host : Ptr) [Decidable (SubscribedTo s id host)]
    [Decidable (SubscribedTo s (fatherID id) host)] :
    (findLocalSubscribers s.activeSubscriptionIndex [id]).get host =
      if SubscribedTo s id host ∨ SubscribedTo s (fatherID id) host then some id else none := by
  simp only [findLocalSubscribers, foldl_cons, foldl_nil, subscribedTo_iff]
  cases own : s.activeSubscriptionIndex.get id <;>
    cases above : s.activeSubscriptionIndex.get (fatherID id) <;>
    simp only [get_foldl_set, get_empty, reduceCtorEq, false_and, exists_false,
      false_or, or_false, Option.some.injEq, exists_eq_left', if_false]
  rename_i first second
  by_cases hi : host ∈ second.subscribers.keys
  · simp [hi]
  · simp [hi]

/-- The proxies of subscribers to an identifier are connected, and one of them is `host`. -/
structure Serves (s : LocalProxy) (id : ID) (host : Ptr) : Prop where
  live : ∀ other, SubscribedTo s id other ∨ SubscribedTo s (fatherID id) other → other ∈ s.heap
  listens : SubscribedTo s id host ∨ SubscribedTo s (fatherID id) host

theorem handleNetworkPublication_events (serves : Serves s id host) :
    Program.wp (handleNetworkPublication [id] p apiType)
      (fun _ s' => ∃ events event, s'.out = s.out ++ events ∧ event ∈ events ∧
        eventFor s apiType p.contents (host, id) = some event) (fun _ => False) s := by
  classical
  have hf : ∀ other, (findLocalSubscribers s.activeSubscriptionIndex [id]).get other =
      if SubscribedTo s id other ∨ SubscribedTo s (fatherID id) other then some id else none :=
    fun other => get_findLocalSubscribers other
  have some_found : 0 < (findLocalSubscribers s.activeSubscriptionIndex [id]).size := by
    refine size_pos.mpr ⟨host, mem_of_get (v := id) ?_⟩
    rw [hf, if_pos serves.listens]
  have entry : (⟨host, id⟩ : Sigma fun _ => ID) ∈
      (findLocalSubscribers s.activeSubscriptionIndex [id]).table.entries := by
    refine AList.mem_lookup_iff.mp ?_
    exact (hf host).trans (if_pos serves.listens)
  simp only [handleNetworkPublication, Program.wp_bind, Program.wp_read]
  rw [if_pos some_found]
  have hl : ∀ target ∈ (findLocalSubscribers s.activeSubscriptionIndex [id]).table.entries.map
      (fun entry => (entry.1, entry.2)), target.1 ∈ s.heap := by
    intro target hm
    obtain ⟨⟨other, name⟩, hi, rfl⟩ := mem_map.mp hm
    have ht := AList.mem_lookup_iff.mpr hi
    refine serves.live other ?_
    by_contra ha
    have nowhere := (hf other).trans (if_neg ha)
    cases nowhere.symm.trans ht
  refine Program.wp_post (deliver_events hl) ?_
  rintro _ s' ⟨events, out, each⟩
  have target : eventFor s apiType p.contents (host, id) ∈ events.map some := by
    rw [← each]
    exact mem_map_of_mem (mem_map.mpr ⟨_, entry, rfl⟩)
  obtain ⟨event, hm, same⟩ := mem_map.mp target
  exact ⟨events, event, out, hm, same.symm⟩

end

section

/-- A request of one of the eight types. -/
structure RVRequest where
  type : MessageType
  id : ID
  prefixID : ID
  strategy : Strategy
  typed : type ∈ [.publishScope, .publishInfo, .unpublishScope, .unpublishInfo, .subscribeScope,
    .subscribeInfo, .unsubscribeScope, .unsubscribeInfo]
  shortID : id.length ≤ 255
  shortPrefix : prefixID.length ≤ 255

def RVRequest.toRequest (request : RVRequest) : Request :=
  ⟨request.type.code, request.id, request.prefixID, request.strategy⟩

/-- `publishReqToRV` puts a header before the packet of the application, `rest` being what that has
behind the request, and `createAndSendPacketToRV` makes a new one. -/
inductive Submission where
  | published (request : RVRequest) (rest : List UInt8)
  | created (request : RVRequest) (idLength prefixIDLength : UInt8)

namespace Submission

def request : Submission → RVRequest
  | .published request _ => request
  | .created request _ _ => request

def packet (route : Option Fid) : Submission → Wire.Packet
  | .published request rest => requestPacket gc route (request.toRequest.bytes ++ rest)
  | .created request idLength prefixIDLength =>
    createdPacket gc route request.type idLength request.id prefixIDLength request.prefixID
      request.strategy

/-- The lengths are those of the identifiers. -/
def LengthsTrue : Submission → Prop
  | .published _ _ => True
  | .created request idLength prefixIDLength =>
    idLength.toNat = request.id.length ∧ prefixIDLength.toNat = request.prefixID.length

/-- The rendezvous element of the node finds the request in the packet. -/
def ReachesLocally (submission : Submission) : Prop :=
  ∀ view, (submission.packet gc none).Reaches 0 view →
    readEvent view = original gc submission.request.toRequest

/-- A proxy gets the packet without the forwarding identifier and hands it to the rendezvous
element, which finds the request in it. -/
def ReachesRemotely (submission : Submission) : Prop :=
  ∀ (_ : IterationOrder) (rvFid : Fid) (s : LocalProxy) (host : Ptr) (p : Packet),
    Serves s gc.nodeRVScope host →
    p.length = (submission.packet gc (some rvFid)).length - fidLen →
    (submission.packet gc (some rvFid)).Reaches fidLen p.data →
    Program.wp (pushFromNetwork p)
      (fun _ s' => ∃ events type number data, s'.out = s.out ++ events ∧
        (s.heap.get host).map (fun target => (target.type, target.id)) = some (type, number) ∧
        .event type number .publishedData gc.nodeRVScope data ∈ events ∧
        ∀ view : View, view.Shows 0 (eventBytes .publishedData gc.nodeRVScope data) →
          readEvent view = original gc submission.request.toRequest)
      (fun _ => False) s

/-- What the packet has behind its header. -/
def content : Submission → List UInt8
  | .published request rest => request.toRequest.bytes ++ rest
  | .created request idLength prefixIDLength =>
    requestBytes request.type.code idLength request.id prefixIDLength request.prefixID
      request.strategy

variable {gc : GlobalConf} {submission : Submission} {route : Option Fid}

theorem packet_holds :
    (submission.packet gc route).data.Holds (routeHeader gc route ++ submission.content) := by
  cases submission with
  | published => exact (requestPacket_holds _).1
  | created => exact (createdPacket_holds _ _ _ _ _ _ _ rfl).1

theorem length_packet (lengths : submission.LengthsTrue) :
    (submission.packet gc route).length = (routeHeader gc route ++ submission.content).length := by
  cases submission with
  | published => exact (requestPacket_holds _).2
  | created =>
    refine (createdPacket_holds _ _ _ _ _ _ _ rfl).2.trans ?_
    rw [lengths.1, lengths.2, content, requestBytes]
    simp only [length_append, Wire.length_bytes, length_cons, length_nil]
    omega

/-- The content is the request with some lengths, true or not. -/
theorem content_eq : ∃ idLength prefixIDLength rest,
    submission.content = requestBytes submission.request.type.code idLength
        submission.request.id prefixIDLength submission.request.prefixID
        submission.request.strategy ++ rest ∧
      (submission.LengthsTrue ↔ idLength.toNat = submission.request.id.length ∧
        prefixIDLength.toNat = submission.request.prefixID.length) := by
  cases submission with
  | published req rest =>
    refine ⟨_, _, rest, rfl, iff_of_true trivial ⟨?_, ?_⟩⟩
    · exact Wire.toNat_count req.shortID
    · exact Wire.toNat_count req.shortPrefix
  | created req idLength prefixIDLength =>
    exact ⟨idLength, prefixIDLength, [], (append_nil _).symm, Iff.rfl⟩

variable {view : View}

/-- The rendezvous element reads the request back from an event if the lengths are true. -/
theorem readEvent_of_content (lengths : submission.LengthsTrue)
    (hs : view.Shows 0 (routeHeader gc none ++ submission.content)) :
    readEvent view = original gc submission.request.toRequest := by
  obtain ⟨idLength, prefixIDLength, rest, same, true_iff⟩ := submission.content_eq
  obtain ⟨idTrue, prefixTrue⟩ := true_iff.mp lengths
  obtain ⟨read, inner⟩ := readEvent_of_shows hs
  rw [same] at inner
  rw [read, readRequest_of_shows inner idTrue prefixTrue]
  rfl

theorem lengths_of_readEvent (hs : view.Shows 0 (routeHeader gc none ++ submission.content))
    (hf : readEvent view = original gc submission.request.toRequest) : submission.LengthsTrue := by
  obtain ⟨idLength, prefixIDLength, rest, same, true_iff⟩ := submission.content_eq
  obtain ⟨read, inner⟩ := readEvent_of_shows hs
  have both := read.symm.trans hf
  simp only [original, Rendezvous.Event.publishedData.injEq, Rendezvous.Request.mk.injEq] at both
  obtain ⟨-, -, isID, isPrefix, -⟩ := both
  rw [same] at inner
  exact true_iff.mpr (lengths_of_readRequest inner isID isPrefix)

theorem reachesLocally_iff : submission.ReachesLocally gc ↔ submission.LengthsTrue := by
  constructor
  · intro ha
    have hs := Buffer.shows_ofBytes (routeHeader gc none ++ submission.content)
    -- this reader also finds what has been written behind the end of the packet
    have hr : (submission.packet gc none).Reaches 0
        (Buffer.ofBytes (routeHeader gc none ++ submission.content)).data := by
      intro i byte _ set
      rw [packet_holds, Nat.zero_add] at set
      obtain ⟨hi, hf⟩ := List.getElem?_eq_some_iff.mp set
      rw [← hf, ← hs i hi, Nat.zero_add]
    exact lengths_of_readEvent hs (ha _ hr)
  · intro lengths view hr
    have hh : (submission.packet gc none).data.Holds
        ([] ++ (routeHeader gc none ++ submission.content)) := packet_holds
    have fits : _ ≤ (submission.packet gc none).length := le_of_eq (length_packet lengths).symm
    exact readEvent_of_content lengths ((Wire.Packet.reaches_iff hh fits view).mp hr)

end Submission

variable {gc : GlobalConf}

/-- A request is not taken for data: the proxy keeps its type and looks for subscribers. -/
theorem readPublication_of_request {buf : Buffer} {type : UInt8} {rest : List UInt8}
    (notData : type ≠ MessageType.publishData.code)
    (notISub : type ≠ MessageType.publishDataISub.code)
    (hs : buf.data.Shows 0 ([1, 2] ++ bytes gc.nodeRVScope ++ type :: rest)) :
    readPublication buf = some ⟨[gc.nodeRVScope], type, none,
      buf.pull (1 + 1 + 2 * pursuitIDLen), 1 + 1 + 2 * pursuitIDLen + 1⟩ := by
  obtain ⟨hdr, body⟩ := shows_append.mp hs
  have ids : Wire.readNetworkIDs buf.data = ([gc.nodeRVScope], 1 + 1 + 2 * pursuitIDLen) := by
    have fields : buf.data.Shows 0 (ofNat [gc.nodeRVScope].length ::
        Wire.idFields (fun _ => 2) [gc.nodeRVScope]) := by
      simpa [Wire.idFields] using hdr
    refine (Wire.readNetworkIDs_of_shows (by simp) (fun id hm => ?_) fields).trans ?_
    · rw [mem_singleton.mp hm]
      rfl
    · rw [Wire.length_idFields, Wire.idBytes_cons]
      rfl
  have ht : (buf.pull (1 + 1 + 2 * pursuitIDLen)).data 0 = type := by
    have first := (shows_cons.mp body).1
    rw [length_append, length_nodeRVScope] at first
    exact first
  have regular : [gc.nodeRVScope] ≠ [GlobalConf.controlReliabilityScope] := by
    intro same
    have two : gc.nodeRVScope.length = 1 := congrArg List.length (List.cons.inj same).1
    cases two
  simp only [readPublication, ids, regular, if_false, ht, notData, notISub]

theorem RVRequest.notData (req : RVRequest) : req.type.code ≠ MessageType.publishData.code ∧
      req.type.code ≠ MessageType.publishDataISub.code := by
  have each : ∀ type ∈ [publishScope, .publishInfo, .unpublishScope, .unpublishInfo,
      .subscribeScope, .subscribeInfo, .unsubscribeScope, .unsubscribeInfo],
      type.code ≠ MessageType.publishData.code ∧ type.code ≠ MessageType.publishDataISub.code := by
    decide
  exact each req.type req.typed

theorem Submission.reachesRemotely {submission : Submission} (lengths : submission.LengthsTrue) :
    submission.ReachesRemotely gc := by
  intro order rvFid s host p serves len hr
  obtain ⟨idLength, prefixIDLength, rest, same, -⟩ := submission.content_eq
  have hh : (submission.packet gc (some rvFid)).data.Holds
      (rvFid.toList ++ ([1, 2] ++ bytes gc.nodeRVScope ++ submission.content)) := by
    have whole : (submission.packet gc (some rvFid)).data.Holds _ := packet_holds
    simpa only [routeHeader, append_assoc] using whole
  have size : (submission.packet gc (some rvFid)).length =
      (rvFid.toList ++ ([1, 2] ++ bytes gc.nodeRVScope ++ submission.content)).length := by
    rw [length_packet lengths, routeHeader, append_assoc]
  have hs : p.data.Shows 0 ([1, 2] ++ bytes gc.nodeRVScope ++ submission.content) :=
    (Wire.Packet.reaches_iff hh (le_of_eq size.symm) p.data).mp
      (by rw [Vector.length_toList]; exact hr)
  have found : readPublication p.toBuffer = some ⟨[gc.nodeRVScope], submission.request.type.code,
      none, p.toBuffer.pull (1 + 1 + 2 * pursuitIDLen), 1 + 1 + 2 * pursuitIDLen + 1⟩ := by
    rw [same] at hs
    exact readPublication_of_request submission.request.notData.1 submission.request.notData.2 hs
  have data : (p.toBuffer.pull (1 + 1 + 2 * pursuitIDLen)).contents = submission.content := by
    have tail := (shows_append.mp hs).2
    rw [length_append, length_nodeRVScope] at tail
    rw [Buffer.contents_pull, len, size]
    have extent : (rvFid.toList ++ ([1, 2] ++ bytes gc.nodeRVScope ++ submission.content)).length -
        fidLen - (1 + 1 + 2 * pursuitIDLen) = submission.content.length := by
      simp only [length_append, Vector.length_toList, length_nodeRVScope, length_cons,
        length_nil, fidLen]
      omega
    rw [extent]
    exact read_of_shows tail
  rw [pushFromNetwork_eq, found]
  simp only [look, note, handlePublication, submission.request.notData.1]
  have serves' : Serves { s with uses := s.uses ++ [.look p.handle] } gc.nodeRVScope host :=
    ⟨serves.live, serves.listens⟩
  refine Program.wp_post (handleNetworkPublication_events serves') ?_
  rintro _ s' ⟨events, event, out, hm, isEvent⟩
  obtain ⟨target, there, ht⟩ := Option.map_eq_some_iff.mp isEvent
  refine ⟨events, target.type, target.id, submission.content, out, ?_, ?_, fun view seen => ?_⟩
  · rw [show s.heap.get host = some target from there]
    rfl
  · rw [← ht] at hm
    rw [← data]
    exact hm
  · rw [eventBytes, fragments_nodeRVScope] at seen
    exact readEvent_of_content lengths seen

open Submission

/-- A request arrives unchanged by either route exactly if it has the true lengths of its
identifiers. -/
theorem request_reaches_rendezvous_iff (gc : GlobalConf) (submission : Submission) :
    submission.ReachesLocally gc ∧ submission.ReachesRemotely gc ↔ submission.LengthsTrue := by
  constructor
  · intro hr
    exact reachesLocally_iff.mp hr.1
  · intro lengths
    exact ⟨reachesLocally_iff.mpr lengths, reachesRemotely lengths⟩

/-- The `deleteAll` methods give true lengths unless the identifier is empty or too long. -/
theorem withdrawal_lengths_iff (req : RVRequest) (fullID : ID)
    (isID : req.id = lastFragment fullID) (isPrefix : req.prefixID = fatherID fullID) :
    (created req 1 (UInt8.ofNat fullID.length - 1)).LengthsTrue ↔ fullID ≠ [] := by
  have short := req.shortPrefix
  rw [isPrefix, fatherID, length_dropLast] at short
  rw [Submission.LengthsTrue, isID, isPrefix, lastFragment, fatherID, length_drop,
    length_dropLast, ← length_pos_iff]
  constructor
  · rintro ⟨one, -⟩
    have hp : (1 : UInt8).toNat = 1 := rfl
    omega
  · intro hp
    refine ⟨(show (1 : UInt8).toNat = 1 from rfl).trans (by omega), ?_⟩
    show (2 ^ 8 - 1 + fullID.length % 2 ^ 8) % 2 ^ 8 = fullID.length - 1
    omega

/-- The request with which an item without any name is withdrawn. -/
def emptyWithdrawal : RVRequest where
  type := .unpublishInfo
  id := []
  prefixID := []
  strategy := Strategy.nodeLocal
  typed := by decide
  shortID := by decide
  shortPrefix := by decide

open Samples

/-- An item without a name is withdrawn with the lengths 1 and 255 of empty identifiers. -/
theorem empty_withdrawal_misread : ∃ s, Run (fun _ _ => True) s ∧
    .withdrawal none emptyWithdrawal.type 1 emptyWithdrawal.id 255 emptyWithdrawal.prefixID
      emptyWithdrawal.strategy ∈ s.out ∧
    ¬ (Submission.created emptyWithdrawal 1 255).ReachesLocally sampleNode := by
  obtain ⟨s, run, seen⟩ := Run.reached
    (show after [requests .publishInfo 7 [], disconnects 7]
      (fun s => decide (Out.withdrawal none emptyWithdrawal.type 1 emptyWithdrawal.id 255
        emptyWithdrawal.prefixID emptyWithdrawal.strategy ∈ s.out)) = .ok true by decide +kernel)
  refine ⟨s, run, of_decide_eq_true seen, fun hr => ?_⟩
  have lengths := reachesLocally_iff.mp hr
  cases lengths.1

end

end Blackadder.Proxy
