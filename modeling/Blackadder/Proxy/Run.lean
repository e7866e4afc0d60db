import Blackadder.Proxy.Notifications

namespace Blackadder.Proxy

open Program LocalProxy Steps Arrival

/-- What a packet asks of the tables. -/
inductive Demand where
  | nothing
  | leave
  | notification (data : View)
  | request (asked : Wire.Request)
  | multicast (id : ID)

namespace Demand

/-- Of the packets from the network, only notifications change the tables. -/
def ofNetwork (gc : GlobalConf) (data : View) : Demand :=
  let (ids, offset) := Wire.readNetworkIDs data
  if ids = [GlobalConf.controlReliabilityScope] then .nothing
  else if data (offset + 0) = MessageType.publishData.code ∧ ids = [gc.notificationIID] then
    .notification fun i => data (offset + (1 + i))
  else .nothing

def ofHost (gc : GlobalConf) (data : View) : Demand :=
  let header := Wire.readHeader data
  if data 0 = MessageType.disconnect.code then .leave
  else if data 0 = MessageType.publishData.code then
    if header.strategy = Strategy.implicitRendezvous ∧ header.id = gc.notificationIID then
      .notification fun i => data (header.length + Wire.fidLen + i)
    else .nothing
  else if data 0 = MessageType.publishDataISub.code then
    let id := Wire.readSubscription fun i => data (header.length + i)
    if header.strategy = Strategy.domainLocal then
      .request ⟨MessageType.publishDataISub.code, id, fatherID id, header.strategy⟩
    else .nothing
  else if data 0 = MessageType.publishDataIMulticast.code then .multicast header.id
  else .request (Wire.readRequest data)

end Demand

def Arrival.demand (arrival : Arrival) (gc : GlobalConf) : Demand :=
  if arrival.port = 2 then .ofNetwork gc arrival.data
  else if arrival.port = 3 then
    if arrival.data 0 = MessageType.disconnect.code then .leave else .nothing
  else .ofHost gc arrival.data

def Arrival.packet (arrival : Arrival) : Packet := { arrival with handle := .given }

def Policy.Permits (pol : Policy) (s : LocalProxy) (p : Ptr) : Demand → Prop
  | .nothing => True
  | .leave => pol.PermitsLeave s p
  | .notification data => pol.PermitsNotification s data
  | .request asked => pol.PermitsRequest s p asked
  | .multicast id => pol.PermitsMulticast s id

variable {pol : Policy} {s s' : LocalProxy} {p : Ptr} {demand : Demand}

theorem Policy.Permits.congr (hp : pol.Permits s p demand) (hs : s'.tables = s.tables) :
    pol.Permits s' p demand := by
  obtain ⟨gc', heap', idx', pubs', subs', nodes', out', uses'⟩ := s'
  simp only [tables] at hs
  obtain ⟨rfl, rfl, rfl, rfl⟩ := hs
  cases demand with
  | nothing => trivial
  | leave => exact ⟨hp.registers, hp.orderly, hp.publishes, hp.subscribes⟩
  | notification data => exact hp
  | request asked => exact ⟨hp.registers, hp.tidy⟩
  | multicast id => exact hp

section

variable [IterationOrder] {pkt : Packet}
variable {post : Unit → LocalProxy → Prop} {fault : Fault → Prop} {arrival : Arrival}

omit [IterationOrder] in
theorem wp_look :
    wp (look pkt) post fault s ↔ post () { s with uses := s.uses ++ [.look pkt.handle] } :=
  Iff.rfl

theorem handleRVNotification_kill (hp : pol.PermitsNotification s pkt.data) :
    wlp (do handleRVNotification pkt; kill pkt) (fun _ => Steps pol p s) s := by
  have hh : wlp (handleRVNotification pkt) (fun _ => Steps pol p s) s :=
    handleRVNotification_spec pkt hp
  exact wp_seq hh fun _ s1 steps => steps.andQuiet kill_quiet

open Demand

/-- So does whatever comes from the network. -/
theorem pushFromNetwork_spec [Allocator] (hp : pol.Permits s p (.ofNetwork s.gc pkt.data)) :
    wlp (pushFromNetwork pkt) (fun _ => Steps pol p s) s := by
  rw [pushFromNetwork, wlp, wp_bind, wp_look]
  unfold ofNetwork at hp
  generalize Wire.readNetworkIDs pkt.data = res at hp ⊢
  dsimp only at hp ⊢
  have looked : Steps pol p s { s with uses := s.uses ++ [.look pkt.handle] } :=
    .single (.quiet (.ofSame rfl rfl))
  rw [wp_bind, wp_read]
  split
  · exact looked.andQuiet handleControlReliabilityNotification_quiet
  rename_i other
  rw [if_neg other] at hp
  split
  · rename_i type
    split
    · rename_i isNotification
      rw [if_pos ⟨type, isNotification⟩] at hp
      exact looked.andThen (handleRVNotification_kill (hp.congr rfl))
    split
    · exact looked.andThen (processTMNotification_spec _)
    · exact looked.andQuiet handleNetworkPublication_quiet
  split
  · refine looked.andQuiet
      (.bind (storeActiveNode_respects (fun _ _ => .ofSame rfl rfl) _ _) fun forward =>
      .ite (.bind ?_ ?_) ?_)
    · exact publishiReqToRV_quiet
    · exact fun _ => handleNetworkPublication_quiet
    · exact handleNetworkPublication_quiet
  · exact looked.andQuiet handleNetworkPublication_quiet

theorem handleMappRequest_spec (sane : Sane s) (hl : p ∈ s.heap)
    (hp : pkt.data 0 = MessageType.disconnect.code → pol.Permits s p .leave) :
    wlp (handleMappRequest pkt p) (fun _ => Steps pol p s) s := by
  rw [handleMappRequest, wlp, wp_bind, wp_look]
  have looked : Steps pol p s { s with uses := s.uses ++ [.look pkt.handle] } :=
    .single (.quiet (.ofSame rfl rfl))
  have send : ∀ {sent : LocalHost → Out}, (∀ target, (sent target).report = none) →
      (∀ target, (sent target).addressee = some target.id) →
      Respects Quiet (do let target ← deref p; emit (sent target); kill pkt) := by
    intro sent report addressee
    have both : Respects Quiet ((deref p >>= fun target => emit (sent target)) >>= fun _ =>
        kill pkt) :=
      .bind (deref_send_quiet report addressee fun _ _ => emit_quiet) fun _ => kill_quiet
    rwa [bind_assoc] at both
  rw [wp_bind, wp_read]
  split
  · exact looked.andQuiet (send (fun _ => rfl) fun _ => rfl)
  split
  · exact looked.andQuiet (send (fun _ => rfl) fun _ => rfl)
  split
  · simp only [wp_bind, wp_update]
    refine wp_post (andThen ?_ (updateStates_spec _)) fun _ s1 steps =>
      andQuiet steps kill_quiet
    exact looked.tail (.quiet (.ofSame rfl rfl))
  split
  · rename_i type
    have hl1 : p ∈ heap { s with uses := s.uses ++ [.look pkt.handle] } := hl
    have leave : pol.Permits { s with uses := s.uses ++ [.look pkt.handle] } p .leave :=
      (hp type).congr rfl
    rw [wp_bind]
    refine wp_mono (disconnect_spec (looked.sane sane) hl1 leave) ?_ fun _ _ => trivial
    exact fun _ s1 left => andQuiet (looked.trans left.steps) kill_quiet
  · exact looked.andQuiet kill_quiet

theorem handleUserTMPublication_spec (id : ID) (type : MessageType) (fid : BABitvector)
    (pkt : Packet) :
    wlp (handleUserTMPublication id type fid pkt p) (fun _ => Steps pol p s) s := by
  have read : wlp (augmentedIDs id) (fun _ => Steps pol p s) s :=
    quiet_steps (augmentedIDs_respects id)
  simp only [handleUserTMPublication, wp_bind]
  refine wp_post read fun ids s1 steps => ?_
  refine wp_post (steps.andQuiet (otherSubscribers_respects _ _ _)) fun subs s2 steps => ?_
  split
  · exact wp_seq (steps.andQuiet pushTypedDataToRemoteSubscribers_quiet)
      fun _ s3 steps => steps.andThen (processTMNotification_spec _)
  · exact wp_seq (steps.andQuiet (pushCopy_quiet fun _ =>
      pushTypedDataToRemoteSubscribers_quiet))
      fun _ s3 steps => steps.andThen (processTMNotification_spec _)

theorem publishData_spec (hp : pol.Permits s p (.ofHost s.gc pkt.data))
    (type : pkt.data 0 = MessageType.publishData.code) :
    wlp (publishData pkt p) (fun _ => Steps pol p s) s := by
  have hd : ¬ pkt.data 0 = MessageType.disconnect.code := by
    rw [type]
    decide
  simp only [ofHost, if_neg hd, if_pos type] at hp
  simp only [publishData, wp_bind, wp_read]
  split
  · rename_i implicit
    split
    · rename_i notification
      rw [if_pos ⟨implicit, notification⟩] at hp
      exact handleRVNotification_kill hp
    split
    · exact quiet_steps (handleImplicitPublication_quiet fun _ _ _ =>
        handOn_quiet (harmless_outwards rfl rfl))
    split
    · exact handleUserTMPublication_spec _ _ _ _
    · exact quiet_steps (handleImplicitPublication_quiet fun _ _ =>
        pushTypedDataToRemoteSubscribers_quiet)
  split
  · exact quiet_steps (handleImplicitPublication_quiet fun _ _ =>
      pushTypedDataToRemoteSubscribers_quiet)
  split
  · exact quiet_steps (handleImplicitPublication_quiet fun _ _ =>
      pushTypedDataToRemoteSubscribers_quiet)
  · exact quiet_steps handleUserPublication_quiet

theorem publishDataISub_spec (hl : p ∈ s.heap) (hp : pol.Permits s p (.ofHost s.gc pkt.data))
    (type : pkt.data 0 = MessageType.publishDataISub.code) :
    wlp (publishDataISub pkt p) (fun _ => Steps pol p s) s := by
  have hd : ¬ pkt.data 0 = MessageType.disconnect.code ∧
      ¬ pkt.data 0 = MessageType.publishData.code := by
    rw [type]
    decide
  simp only [ofHost, if_neg hd.1, if_neg hd.2, if_pos type] at hp
  simp only [publishDataISub]
  split
  · rename_i domain
    rw [if_pos domain] at hp
    refine wp_seq (handleUserPublication_quiet s) fun _ s1 hq => ?_
    have published : Steps pol p s s1 := .single (.quiet hq)
    have hl1 : p ∈ s1.heap := by rwa [hq.heap]
    simp only [wp_bind, wp_read, wp_look]
    refine wp_post (andThen (published.tail (.quiet (.ofSame rfl rfl)))
      (handleLocalRequest_spec ?_ ?_ _)) fun _ s2 steps => andQuiet steps kill_quiet
    · exact hl1
    · exact (hp.congr hq.tables).congr rfl
  · exact .refl

/-- Whatever a host sends takes permitted steps of the tables. -/
theorem pushFromHost_spec (sane : Sane s) (hl : p ∈ s.heap)
    (hp : pol.Permits s p (.ofHost s.gc pkt.data)) :
    wlp (pushFromHost pkt p) (fun _ => Steps pol p s) s := by
  let s1 : LocalProxy := { s with uses := s.uses ++ [.look pkt.handle] }
  have looked : Steps pol p s s1 := .single (.quiet (.ofSame rfl rfl))
  have hl1 : p ∈ s1.heap := hl
  have hp1 : pol.Permits s1 p (.ofHost s1.gc pkt.data) := hp.congr rfl
  rw [pushFromHost, wlp, wp_bind, wp_look]
  dsimp only
  split
  · rename_i type
    rw [ofHost, if_pos type] at hp1
    rw [wp_bind]
    refine wp_mono (disconnect_spec (looked.sane sane) hl1 hp1) ?_ fun _ _ => trivial
    exact fun _ s2 left => andQuiet (looked.trans left.steps) kill_quiet
  split
  · rename_i type
    exact looked.andThen (publishData_spec hp1 type)
  split
  · rename_i type
    exact looked.andThen (publishDataISub_spec hl1 hp1 type)
  split
  · rename_i leave publish iSub type
    rw [ofHost, if_neg leave, if_neg publish, if_neg iSub, if_pos type] at hp1
    exact looked.andThen (handleUserMulticastRequest_spec _ _ hp1)
  rename_i leave publish iSub multicast
  rw [ofHost, if_neg leave, if_neg publish, if_neg iSub, if_neg multicast] at hp1
  simp only [wp_bind, wp_read]
  refine wp_post (looked.andThen (handleLocalRequest_spec hl1 hp1 _)) fun forward s2 steps => ?_
  split
  · exact andThen steps (publishReqToRV_spec hp1.registers _)
  · exact andQuiet steps kill_quiet

variable [Allocator]

/-- The state in which a packet finds its host. -/
def LocalProxy.received (s : LocalProxy) (arrival : Arrival) : LocalProxy :=
  if arrival.port = 2 then s else s.welcome arrival.sender.1 arrival.sender.2

theorem received_gc : (s.received arrival).gc = s.gc := by
  unfold received welcome
  split
  · rfl
  · split
    · rfl
    · rfl

theorem received_steps (inner : arrival.port ≠ 2) (hc : pol.connects arrival.sender.2) :
    Steps pol (s.hostOf arrival.sender.2) s (s.received arrival) := by
  rw [received, if_neg inner]
  exact welcome_step hc

theorem received_live (inner : arrival.port ≠ 2) (sane : Sane s) :
    s.hostOf arrival.sender.2 ∈ (s.received arrival).heap := by
  rw [received, if_neg inner]
  exact welcome_live sane

theorem wp_push_inner (inner : arrival.port ≠ 2) : wp (push arrival) post fault s ↔
      wp (if arrival.port = 3 then handleMappRequest arrival.packet (s.hostOf arrival.sender.2)
        else pushFromHost arrival.packet (s.hostOf arrival.sender.2)) post fault
        { s.received arrival with uses := [] } := by
  have welcomed : welcome { s with uses := [] } arrival.sender.1 arrival.sender.2 =
      { s.received arrival with uses := [] } := by
    rw [received, if_neg inner]
    unfold welcome
    by_cases ht : arrival.sender.2 ∈ s.localPubSubIndex
    · rw [if_pos ht, if_pos ht]
    · rw [if_neg ht, if_neg ht]
      rfl
  rw [push, wp_bind, wp_update]
  rw [if_neg inner, wp_bind, wp_getLocalHost, welcomed]
  rfl

/-- Every packet changes the tables by steps of its policy, on behalf of the host it is from. -/
theorem push_spec (sane : Sane s) (actor : arrival.port = 2 ∨ p = s.hostOf arrival.sender.2)
    (hc : arrival.port = 2 ∨ pol.connects arrival.sender.2)
    (hp : pol.Permits (s.received arrival) p (arrival.demand s.gc)) :
    wlp (push arrival) (fun _ => Steps pol p s) s := by
  by_cases network : arrival.port = 2
  · have start : Steps pol p s { s with uses := [] } := .single (.quiet (.ofSame rfl rfl))
    rw [demand, received, if_pos network, if_pos network] at hp
    rw [push, wlp, wp_bind]
    rw [if_pos network]
    exact start.andThen (pushFromNetwork_spec (hp.congr rfl))
  obtain rfl := actor.resolve_left network
  have welcomed : Steps pol (s.hostOf arrival.sender.2) s { s.received arrival with uses := [] } :=
    (received_steps network (hc.resolve_left network)).tail (.quiet (.ofSame rfl rfl))
  have hl : s.hostOf arrival.sender.2 ∈ (s.received arrival).heap := received_live network sane
  rw [wlp, wp_push_inner network]
  rw [demand, if_neg network] at hp
  split
  · rename_i mapi
    rw [if_pos mapi] at hp
    refine welcomed.andThen (handleMappRequest_spec (welcomed.sane sane) hl fun type => ?_)
    rw [show arrival.data 0 = _ from type] at hp
    exact hp.congr rfl
  · rename_i other
    have hs : (s.received arrival).gc = s.gc := received_gc
    rw [if_neg other, ← hs] at hp
    exact welcomed.andThen (pushFromHost_spec (welcomed.sane sane) hl (hp.congr rfl))

end

section

variable [IterationOrder] [Allocator] {arrival : Arrival} {id : ID}

theorem received_tables : (s.received arrival).activePublicationIndex = s.activePublicationIndex ∧
    (s.received arrival).activeSubscriptionIndex = s.activeSubscriptionIndex := by
  unfold received welcome
  split
  · exact ⟨rfl, rfl⟩
  · split
    · exact ⟨rfl, rfl⟩
    · exact ⟨rfl, rfl⟩

theorem received_isKind (isScope : Bool) :
    isKind (s.received arrival) isScope id = isKind s isScope id := by
  rw [isKind, received_tables.1, isKind]

theorem received_isSubscriptionKind (isScope : Bool) :
    isSubscriptionKind (s.received arrival) isScope id = isSubscriptionKind s isScope id := by
  rw [isSubscriptionKind, received_tables.2, isSubscriptionKind]

theorem of_listed_received {tables : LocalProxy → Registry Ptr ID}
    (hc : ∀ {s p} type num, tables (connect s p type num) = (tables s).renew p)
    (inner : arrival.port ≠ 2)
    (hl : id ∈ (tables (s.received arrival)).listed (s.hostOf arrival.sender.2)) :
    ∃ p, s.localPubSubIndex.get arrival.sender.2 = some p ∧ s.hostOf arrival.sender.2 = p ∧
      id ∈ (tables s).listed p := by
  rw [received, if_neg inner, welcome] at hl
  split at hl
  · rename_i ht
    obtain ⟨p, hf⟩ := HashTable.mem_iff_get.mp ht
    have isHost : s.hostOf arrival.sender.2 = p := by rw [hostOf, hf, Option.getD_some]
    rw [isHost] at hl
    exact ⟨p, hf, isHost, hl⟩
  · rw [hc] at hl
    exact absurd rfl hl.1

theorem received_held : (subscriptions (s.received arrival)).held = (subscriptions s).held := by
  unfold received welcome
  split
  · rfl
  split
  · rfl
  · rw [subscriptions_connect]
    rfl

omit [IterationOrder] [Allocator] in
theorem demand_of_network (network : arrival.port = 2) (gc : GlobalConf) :
    arrival.demand gc = .nothing ∨ ∃ data, arrival.demand gc = .notification data := by
  rw [demand, if_pos network, Demand.ofNetwork]
  generalize Wire.readNetworkIDs arrival.data = res
  dsimp only
  split
  · exact .inl rfl
  · split
    · exact .inr ⟨_, rfl⟩
    · exact .inl rfl

variable {gc : GlobalConf} {q : Ptr}

omit [IterationOrder] [Allocator] in
/-- Only packets of hosts take a host out or ask for anything. -/
theorem port_of_demand
    (asks : arrival.demand gc = .leave ∨ ∃ asked, arrival.demand gc = .request asked) :
    arrival.port ≠ 2 := by
  intro network
  rcases demand_of_network network gc with nothing | ⟨data, notification⟩
  · simp [nothing] at asks
  · simp [notification] at asks

omit [IterationOrder] [Allocator] in
theorem Policy.Permits.anyHost (network : arrival.port = 2)
    (hp : pol.Permits s p (arrival.demand gc)) : pol.Permits s q (arrival.demand gc) := by
  cases asks : arrival.demand gc with
  | nothing => trivial
  | leave => exact absurd network (port_of_demand (.inl asks))
  | notification data =>
    rw [asks] at hp
    exact hp
  | request asked => exact absurd network (port_of_demand (.inr ⟨asked, asks⟩))
  | multicast id =>
    rw [asks] at hp
    exact hp

/-- A packet is on behalf of no host but the one it is from. -/
theorem exists_actor (hl : q ∈ s.heap)
    (other : arrival.port = 2 ∨ s.localPubSubIndex.get arrival.sender.2 ≠ some q)
    (hp : pol.Permits (s.received arrival) (s.hostOf arrival.sender.2) (arrival.demand s.gc)) :
    ∃ actor, q ≠ actor ∧ (arrival.port = 2 ∨ actor = s.hostOf arrival.sender.2) ∧
      pol.Permits (s.received arrival) actor (arrival.demand s.gc) := by
  rcases other with network | other
  · exact ⟨q + 1, Nat.ne_of_lt (Nat.lt_succ_self q), .inl network, hp.anyHost network⟩
  refine ⟨s.hostOf arrival.sender.2, ?_, .inr rfl, hp⟩
  rintro rfl
  by_cases ht : arrival.sender.2 ∈ s.localPubSubIndex
  · obtain ⟨p, hf⟩ := HashTable.mem_iff_get.mp ht
    refine other ?_
    rw [hostOf, hf, Option.getD_some]
  · exact hostOf_free ht hl

end

/-- The states between packets. The order of the tables and the address of a new host are open. -/
inductive Run (allowed : LocalProxy → Arrival → Prop) : LocalProxy → Prop
  | start (gc : GlobalConf) : Run allowed { gc }
  | step {s s' : LocalProxy} (order : IterationOrder) (addresses : Allocator) (arrival : Arrival)
      (before : Run allowed s) (isAllowed : allowed s arrival)
      (returns : push arrival s = .ok ((), s')) : Run allowed s'

theorem initial_sane (gc : GlobalConf) : Sane { gc } := by
  constructor
  · rintro id ap ⟨⟩
  · rintro id as ⟨⟩
  · rintro q id ⟨host, ⟨⟩, -⟩
  · rintro q id ⟨ap, ⟨⟩, -⟩
  · intro id q
    simp [HashTable.Has]

theorem Steps.keeps [IterationOrder] {actor : Ptr} {held : LocalProxy → Prop}
    (one : ∀ {s s'}, Sane s → held s → Step pol actor s s' → held s') (sane : Sane s)
    (start : held s) (steps : Steps pol actor s s') : held s' := by
  induction steps with
  | refl => exact start
  | tail before step ih => exact one (Steps.sane before sane) ih step

namespace Run

variable {allowed : LocalProxy → Arrival → Prop}

/-- What holds at the start and is kept by every step of the policy holds in every run that keeps to
it. -/
theorem keeps (held : LocalProxy → Prop)
    (hp : ∀ [IterationOrder] [Allocator] {s arrival}, Sane s → held s →
      allowed s arrival → pol.Permits (s.received arrival) (s.hostOf arrival.sender.2)
        (arrival.demand s.gc)) (everyone : ∀ id, pol.connects id) (start : ∀ gc, held { gc })
    (one : ∀ [IterationOrder] {actor s s'}, Sane s → held s → Step pol actor s s' → held s')
    (run : Run allowed s) : Sane s ∧ held s := by
  induction run with
  | start gc => exact ⟨initial_sane gc, start gc⟩
  | step _ _ _ _ isAllowed returns ih =>
    have steps := wp_ok (push_spec ih.1 (.inr rfl) (.inr (everyone _))
      (hp ih.1 ih.2 isAllowed)) returns
    exact ⟨steps.sane ih.1, steps.keeps one ih.1 ih.2⟩

theorem pushAll [IterationOrder] [Allocator] {arrivals : List Arrival} (run : Run allowed s)
    (isAllowed : ∀ arrival ∈ arrivals, ∀ s, allowed s arrival)
    (hr : Proxy.pushAll arrivals s = .ok ((), s')) : Run allowed s' := by
  have ends : wlp (Proxy.pushAll arrivals) (fun _ => Run allowed) s := by
    refine wp_forM _ _ (Run allowed) (fun arrival hm s run => ?_) s run
    unfold wp
    split
    · rename_i outcome
      exact .step _ _ arrival run (isAllowed arrival hm s) outcome
    · trivial
  have result := wp_ok ends hr
  exact result

end Run

/-- Everything may happen, but for who may connect. -/
def Policy.all (connects : Nat → Prop) : Policy := ⟨True, True, True, True, True, True, connects⟩

theorem Policy.all_permits (connects : Nat → Prop) : (Policy.all connects).Permits s p demand := by
  cases demand with
  | nothing => trivial
  | leave => exact ⟨trivial, .inl trivial, .inl trivial, .inl trivial⟩
  | notification data => exact .inl trivial
  | request asked => exact ⟨.inl trivial, .inl trivial⟩
  | multicast id => exact .inl trivial

theorem run_sane {allowed : LocalProxy → Arrival → Prop} (run : Run allowed s) : Sane s :=
  (run.keeps (fun _ => True) (fun _ _ _ => Policy.all_permits fun _ => True)
    (fun _ => trivial) (fun _ => trivial)
    fun _ _ _ => trivial).1

def Arrival.ofApplication (id : Nat) (bytes : List UInt8) : Arrival :=
  { Wire.Buffer.ofBytes bytes with port := 0, anno := id }

end Blackadder.Proxy
