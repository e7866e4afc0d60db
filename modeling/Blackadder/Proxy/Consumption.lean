import Blackadder.Proxy.Custody
import Blackadder.Proxy.States

namespace Blackadder.Proxy

open Program Custody List GlobalConf Logs Verdict MessageType Wire LogsFrom

section

variable [IterationOrder] {p : Packet} {s : LocalProxy} {host : Ptr} {id : ID}

/-- The publication whose path a packet of data takes: its own, or else that of the father. -/
def publicationFor (s : LocalProxy) (id : ID) : Option ActivePublication :=
  (s.activePublicationIndex.get id).orElse fun _ => s.activePublicationIndex.get (fatherID id)

/-- The identifiers that a packet of data is sent with. -/
def knownIDs (s : LocalProxy) (id : ID) (ap : ActivePublication) : List ID :=
  if (s.activePublicationIndex.get id).isSome then ap.allKnownIDs else [id]

/-- The local subscribers but for the publisher. -/
def localSubscribers (s : LocalProxy) (ids : List ID) (host : Ptr) : List Ptr :=
  ((findLocalSubscribers s.activeSubscriptionIndex ids).erase host).keys

/-- There is no path at the moment, and the publisher is told, or has been told, to wait. -/
def Waits (s : LocalProxy) (host : Ptr) (id : ID) : Prop :=
  ∃ ap, publicationFor s id = some ap ∧ ap.fidToSubscribers.zero = true ∧
    ap.publishers.get host ∈ [some .rePublish, some .pausePublish, some .stopPublish]

/-- There is a path, and nobody on this node subscribes. -/
def SendsOnly (s : LocalProxy) (host : Ptr) (id : ID) : Prop :=
  ∃ ap, publicationFor s id = some ap ∧ ap.fidToSubscribers.zero = false ∧
    localSubscribers s (knownIDs s id ap) host = []

variable {ap : ActivePublication}

omit [IterationOrder] in
theorem waits_iff (hf : publicationFor s id = some ap) :
    Waits s host id ↔ ap.fidToSubscribers.zero = true ∧
      ap.publishers.get host ∈ [some .rePublish, some .pausePublish, some .stopPublish] := by
  simp [Waits, hf]

theorem sendsOnly_iff (hf : publicationFor s id = some ap) :
    SendsOnly s host id ↔ ap.fidToSubscribers.zero = false ∧
      localSubscribers s (knownIDs s id ap) host = [] := by
  simp [SendsOnly, hf]

/-- The four things that `handleUserPublication` does with its packet. -/
theorem handleUserPublication_logs (expected : Nat → List Use → Prop) {type apiType : MessageType}
    (waits : Waits s host id → expected s.uses.length [])
    (kills : ¬ Waits s host id → ¬ SendsOnly s host id →
      expected s.uses.length [.kill p.handle]) (sends : ¬ Waits s host id → SendsOnly s host id →
      ∀ ids fid, Logs expected (pushTypedDataToRemoteSubscribers ids type fid p))
    (copies : ¬ Waits s host id → ¬ SendsOnly s host id → ∀ ids fid subs, subs ≠ [] →
      Logs expected (do
        let copy ← clone p
        pushTypedDataToRemoteSubscribers ids type fid copy
        deliver p apiType subs)) :
    LogsFrom s expected (handleUserPublication id type p host apiType) := by
  rw [LogsFrom, handleUserPublication, wp_bind, wp_read]
  dsimp only
  split
  · rename_i ha
    have none : publicationFor s id = none := ha
    refine ⟨_, rfl, kills ?_ ?_⟩
    · rintro ⟨ap, hf, -⟩
      rw [none] at hf
      cases hf
    · rintro ⟨ap, hf, -⟩
      rw [none] at hf
      cases hf
  · rename_i ap isFound
    have hf : publicationFor s id = some ap := isFound
    split
    · rename_i zero
      have sendsNothing : ¬ SendsOnly s host id := by
        rw [sendsOnly_iff hf, zero]
        rintro ⟨⟨⟩, -⟩
      split
      · rename_i state
        exact idle (sendNotificationLocally_idle _ _ _)
          (waits ((waits_iff hf).mpr ⟨zero, by simp [state]⟩))
      · rename_i state
        exact idle (sendNotificationLocally_idle _ _ _)
          (waits ((waits_iff hf).mpr ⟨zero, by simp [state]⟩))
      · rename_i state
        exact idle .pure (waits ((waits_iff hf).mpr ⟨zero, by simp [state]⟩))
      · rename_i rePublish pausePublish stopPublish
        refine ⟨_, rfl, kills ?_ sendsNothing⟩
        rw [waits_iff hf]
        rintro ⟨-, state⟩
        simp only [mem_cons, not_mem_nil, or_false] at state
        rcases state with state | state | state
        · exact rePublish state
        · exact pausePublish state
        · exact stopPublish state
    · rename_i path
      have goes : ¬ Waits s host id := by
        rw [waits_iff hf]
        exact fun wait => path wait.1
      have isPath : ap.fidToSubscribers.zero = false := Bool.not_eq_true _ ▸ path
      have other : localSubscribers s (knownIDs s id ap) host = [] ↔ SendsOnly s host id := by
        rw [sendsOnly_iff hf, isPath]
        exact (and_iff_right rfl).symm
      change wp (if ((localSubscribers s (knownIDs s id ap) host).map fun host =>
        (host, id)).isEmpty then _ else _) _ _ _
      split
      · rename_i he
        have none : localSubscribers s (knownIDs s id ap) host = [] :=
          map_eq_nil_iff.mp (isEmpty_iff.mp he)
        exact sends goes (other.mp none) _ _ s
      · rename_i some
        have someone : localSubscribers s (knownIDs s id ap) host ≠ [] := fun he =>
          some (isEmpty_iff.mpr (map_eq_nil_iff.mpr he))
        refine copies goes (fun only => someone (other.mpr only)) _ _ _ ?_ s
        exact fun he => someone (map_eq_nil_iff.mp he)

/-- A publication of data: the packet is forgotten while the publisher waits. -/
theorem handleUserPublication_verdict {apiType : MessageType} (hg : p.handle = .given) :
    LogsFrom s (Verdict (¬ Waits s host id))
      (handleUserPublication id .publishData p host apiType) := by
  refine handleUserPublication_logs _ ?_ ?_ ?_ ?_
  · exact fun wait => bad (not_not_intro wait) rfl
  · intro goes _
    refine good goes ?_
    rw [hg]
    exact Settles.spend rfl rfl rfl
  · exact fun goes _ ids fid _ => verdict goes
      ((pushTypedDataToRemoteSubscribers_disposes ids fid p).settles hg)
  · exact fun goes _ ids fid subs some _ => verdict goes (clone_settles hg
      (pushTypedDataToRemoteSubscribers_disposes ids fid) (deliver_settles apiType hg some))

/-- An implicit subscription: the packet is kept for the caller, or spent on the way. -/
theorem handleUserPublication_implicit {apiType : MessageType} (hg : p.handle = .given) :
    LogsFrom s (fun _ log =>
      (Waits s host id ∨ SendsOnly s host id → ∀ use ∈ log, use = .look .given) ∧
        (¬ (Waits s host id ∨ SendsOnly s host id) → spentOnce .given (log.map Use.event) = true))
      (handleUserPublication id .publishDataISub p host apiType) := by
  refine handleUserPublication_logs _ ?_ ?_ ?_ ?_
  · refine fun wait => ⟨fun _ use hm => (nomatch hm), fun neither => ?_⟩
    exact absurd (Or.inl wait) neither
  · refine fun goes stored => ⟨fun either => absurd either (not_or.mpr ⟨goes, stored⟩), fun _ => ?_⟩
    simp [hg, spentOnce, Use.event]
  · intro _ only ids fid s1
    refine ⟨[.look p.handle], rfl, fun _ use hm => ?_, fun neither => ?_⟩
    · rw [mem_singleton.mp hm, hg]
    · exact absurd (Or.inr only) neither
  · intro goes stored ids fid subs some s1
    refine wp_post (deliver_settles apiType hg some _) ?_
    rintro _ s2 ⟨log, uses, hs⟩
    refine ⟨.clone p.handle (.copy s1.uses.length) :: .look (.copy s1.uses.length) :: log, ?_,
      fun either => absurd either (not_or.mpr ⟨goes, stored⟩), fun _ => ?_⟩
    · rw [uses]
      simp
    · rw [map_cons, map_cons, spentOnce_cons (by rintro ⟨-, ⟨⟩⟩)]
      exact hs.once

/-- The caller looks at the packet once more and gives it back. -/
theorem publishDataISub_verdict (hg : p.handle = .given) :
    LogsFrom s (Verdict ((readHeader p.data).strategy = Strategy.domainLocal ∧
      (Waits s host (readHeader p.data).id ∨ SendsOnly s host (readHeader p.data).id)))
      (publishDataISub p host) := by
  simp only [publishDataISub]
  split
  · rename_i domain
    rw [LogsFrom]
    refine wp_seq (handleUserPublication_implicit hg) ?_
    rintro _ s1 ⟨log, uses, keeps, spends⟩
    simp only [wp_bind, wp_read, wp_look]
    refine wp_post (handleLocalRequest_idle _) fun _ s2 same => ?_
    refine ⟨log ++ [.look .given, .kill .given], ?_, ?_, ?_⟩
    · change s2.uses ++ [.kill p.handle] = _
      rw [show s2.uses = s1.uses ++ [.look p.handle] from same, hg, uses]
      simp
    · rintro ⟨-, either⟩
      exact settled_of_looks (keeps either) (.look (.spend rfl rfl rfl) rfl rfl rfl)
    · intro not
      rw [map_append]
      exact spentOnce_append_twice (spends fun either => not ⟨domain, either⟩) rfl
  · rename_i other
    exact idle .pure (bad (fun both => other both.1) rfl)

/-- The identifiers of a publication under the known identifiers of its father. -/
def augmentedFor (s : LocalProxy) (id : ID) : List ID :=
  ((((s.activePublicationIndex.get (fatherID id)).map (·.allKnownIDs)).getD []).map
    (· ++ lastFragment id)).filter (· ≠ id) ++ [id]

/-- Without local subscribers the packet is given back before it is read and given back
again. -/
theorem handleUserTMPublication_verdict (fid : BABitvector) (hg : p.handle = .given) :
    LogsFrom s (Verdict (localSubscribers s (augmentedFor s id) host ≠ []))
      (handleUserTMPublication id .publishData fid p host) := by
  change wp (if ((localSubscribers s (augmentedFor s id) host).map fun host =>
    (host, id)).isEmpty then _ else _) _ _ _
  split
  · rename_i he
    have none : localSubscribers s (augmentedFor s id) host = [] :=
      map_eq_nil_iff.mp (isEmpty_iff.mp he)
    refine wp_seq (pushTypedDataToRemoteSubscribers_disposes _ fid p s) ?_
    rintro _ s1 ⟨first, uses, once, -⟩
    refine wp_post (processTMNotification_settles hg s1) ?_
    rintro _ s2 ⟨second, uses', hs⟩
    refine ⟨first ++ second, ?_, bad (not_not_intro none) ?_⟩
    · rw [uses', uses, append_assoc]
    · rw [hg] at once
      rw [map_append]
      exact spentOnce_append_twice once hs.once
  · rename_i some
    have someone : localSubscribers s (augmentedFor s id) host ≠ [] := fun he =>
      some (isEmpty_iff.mpr (map_eq_nil_iff.mpr he))
    exact verdict someone (pushCopy_settles fid hg
      (pushTypedDataToRemoteSubscribers_disposes _ fid) (processTMNotification_settles hg))

/-- Without a publication the packet is given back twice. -/
theorem handleUserMulticastRequest_verdict (nids : List NodeID) (hg : p.handle = .given) :
    LogsFrom s (Verdict (multicastTarget s.activePublicationIndex id ≠ none))
      (handleUserMulticastRequest id p nids) := by
  rw [LogsFrom, handleUserMulticastRequest, wp_bind, wp_read]
  split
  · rename_i ha
    refine ⟨[.kill .given, .kill .given], ?_, bad (not_not_intro ha) rfl⟩
    rw [hg]
    exact append_assoc _ _ _
  rename_i target hf
  have ht : multicastTarget s.activePublicationIndex id ≠ none := by
    rw [hf]
    exact Option.some_ne_none target
  have hs : Logs Settled (do
      assignPublication target fun ap => { ap with allKnownIDs := [id] }
      let nodes ← Program.read (·.activeNodeIndex)
      let fid ← multicastFid nodes (HashSet.insertAll ∅ nids).keys
      pushTypedDataToRemoteSubscribers [id] .publishData (some fid) p) :=
    afterIdle (.update fun _ => rfl) fun _ => afterIdle .read fun _ =>
      afterIdle (multicastFid_respects _ _) fun _ =>
        (pushTypedDataToRemoteSubscribers_disposes _ _ p).settles hg
  exact verdict ht hs

omit [IterationOrder] in
/-- A failure report is given back only when it is about a match. -/
theorem handleControlReliabilityNotification_verdict (hg : p.handle = .given) :
    LogsFrom s (Verdict ((readReport p.data).type = matchPubSubs.code))
      (handleControlReliabilityNotification p) := by
  rw [LogsFrom, handleControlReliabilityNotification, wp_bind, wp_look]
  dsimp only
  rw [wp_bind]
  split
  · rename_i hm
    refine ⟨[.look .given, .kill .given], ?_, good hm
      (Settles.look (.spend rfl rfl rfl) rfl rfl rfl)⟩
    rw [hg]
    exact append_assoc _ _ _
  rename_i other
  have reports : ∀ {m : LP Unit}, Respects Idle m →
      wlp m (fun _ s' => ∃ log, s'.uses = s.uses ++ log ∧
        Verdict ((readReport p.data).type = matchPubSubs.code) s.uses.length log)
        { s with uses := s.uses ++ [.look p.handle] } := by
    intro m idle
    refine wp_post (idle _) fun _ s' same => ?_
    refine ⟨[.look p.handle], same, bad other ?_⟩
    exact spentOnce_of_kept (by simp [Use.event])
  refine reports ?_
  split
  · exact .pure
  · exact .bind .read fun hosts => .forM fun host =>
      .bind deref_idle fun _ => .update fun _ => rfl

end

section

theorem reserved_ne {gc : GlobalConf} : gc.notificationIID ≠ pathMgmtIID ∧
    gc.nodeTMScope ≠ pathMgmtIID ∧ gc.nodeTMScopeUC ≠ pathMgmtIID := by
  have hd : ∀ {byte : UInt8} {rest rest' : ID}, byte ≠ 249 →
      reservedFragment byte :: rest ≠ reservedFragment 249 :: rest' := by
    intro byte rest rest' other same
    have last := congrArg (fun frag : Fragment => frag[7]) (List.cons.inj same).1
    exact other last
  exact ⟨hd (by decide), hd (by decide), hd (by decide)⟩

variable [IterationOrder] {p : Packet} {s : LocalProxy} {host : Ptr}

/-- A report on a failed link has to have local subscribers, and a publication with a rendezvous a
publisher that does not wait. -/
def PublicationSettled (s : LocalProxy) (host : Ptr) (header : Wire.Header) : Prop :=
  if header.strategy = Strategy.implicitRendezvous then
    header.id = GlobalConf.pathMgmtIID → localSubscribers s (augmentedFor s header.id) host ≠ []
  else if header.strategy = Strategy.linkLocal ∨ header.strategy = Strategy.broadcastIf then True
  else ¬ Waits s host header.id

theorem publishData_verdict (hg : p.handle = .given) :
    LogsFrom s (Verdict (PublicationSettled s host (readHeader p.data))) (publishData p host) := by
  have implicit : ∀ (id : ID) (fid : BABitvector) (n : Nat) {remote : List ID → Packet → LP Unit},
      (∀ ids copy, Disposes copy (remote ids copy)) →
      Logs Settled (handleImplicitPublication id fid (p.pull n) host .publishedData remote) :=
    fun id fid _ _ hd => handleImplicitPublication_settles id fid host _ hg hd
  rw [LogsFrom, publishData]
  rw [wp_bind, wp_read]
  unfold PublicationSettled
  split
  · split
    · rename_i isNotification
      refine verdict (fun isReport => ?_) (handleRVNotification_settles hg)
      exact absurd (isNotification.symm.trans isReport) reserved_ne.1
    split
    · rename_i isRequest
      refine verdict (fun isReport => ?_) (implicit _ _ _ fun _ copy =>
        handOn_disposes copy _)
      rcases isRequest with isRequest | isRequest
      · exact absurd (isRequest.symm.trans isReport) reserved_ne.2.1
      · exact absurd (isRequest.symm.trans isReport) reserved_ne.2.2
    split
    · rename_i isReport
      have same : (_ = pathMgmtIID → localSubscribers s
          (augmentedFor s (readHeader p.data).id) host ≠ []) ↔ _ := forall_prop_of_true isReport
      rw [same]
      exact handleUserTMPublication_verdict _ hg
    · rename_i other
      exact verdict (fun isReport => absurd isReport other) (implicit _ _ _ fun ids copy =>
        pushTypedDataToRemoteSubscribers_disposes ids _ copy)
  split
  · rename_i isLinkLocal
    rw [if_pos (Or.inl isLinkLocal)]
    exact verdict trivial (implicit _ _ _ fun ids copy =>
      pushTypedDataToRemoteSubscribers_disposes ids _ copy)
  split
  · rename_i isBroadcast
    rw [if_pos (Or.inr isBroadcast)]
    exact verdict trivial (implicit _ _ _ fun ids copy =>
      pushTypedDataToRemoteSubscribers_disposes ids _ copy)
  · rename_i linkLocal broadcast
    rw [if_neg (not_or.mpr ⟨linkLocal, broadcast⟩)]
    exact handleUserPublication_verdict hg

/-- The packets of hosts that are settled. -/
def HostSettled (s : LocalProxy) (host : Ptr) (data : View) : Prop :=
  let header := Wire.readHeader data
  if data 0 = MessageType.publishData.code then PublicationSettled s host header
  else if data 0 = MessageType.publishDataISub.code then
    header.strategy = Strategy.domainLocal ∧ (Waits s host header.id ∨ SendsOnly s host header.id)
  else if data 0 = MessageType.publishDataIMulticast.code then
    multicastTarget s.activePublicationIndex header.id ≠ none
  else True

/-- Of the packets from the network, only failure reports can get lost. -/
def NetworkSettled (data : View) : Prop :=
  let (ids, offset) := Wire.readNetworkIDs data
  ids = [GlobalConf.controlReliabilityScope] →
    (Wire.readReport fun i => data (offset + i)).type = MessageType.matchPubSubs.code

theorem HostSettled.congr {s' : LocalProxy} {data : View}
    (pubs : s'.activePublicationIndex = s.activePublicationIndex)
    (subs : s'.activeSubscriptionIndex = s.activeSubscriptionIndex) :
    HostSettled s' host data ↔ HostSettled s host data := by
  simp only [HostSettled, PublicationSettled, Waits, SendsOnly, publicationFor, knownIDs,
    localSubscribers, augmentedFor, pubs, subs]

theorem pushFromHost_verdict (hg : p.handle = .given) :
    LogsFrom s (Verdict (HostSettled s host p.data)) (pushFromHost p host) := by
  refine verdictAfterLook hg ?_
  unfold HostSettled
  by_cases leave : p.data 0 = MessageType.disconnect.code
  · rw [leave]
    exact verdict trivial (afterIdle disconnect_idle fun _ => kill_settles hg)
  rw [if_neg leave]
  by_cases publish : p.data 0 = MessageType.publishData.code
  · rw [if_pos publish, if_pos publish]
    exact publishData_verdict hg
  rw [if_neg publish, if_neg publish]
  by_cases implicit : p.data 0 = MessageType.publishDataISub.code
  · rw [if_pos implicit, if_pos implicit]
    exact publishDataISub_verdict hg
  rw [if_neg implicit, if_neg implicit]
  by_cases multicast : p.data 0 = MessageType.publishDataIMulticast.code
  · rw [if_pos multicast, if_pos multicast]
    exact handleUserMulticastRequest_verdict _ hg
  rw [if_neg multicast, if_neg multicast]
  refine verdict trivial (afterIdle .read fun gc =>
    afterIdle handleLocalRequest_idle fun forward => ite (fun _ => ?_) fun _ =>
      kill_settles hg)
  exact afterIdle (.bind .read fun _ => .pure) fun _ =>
    (handOn_disposes p _).settles hg

theorem handleMappRequest_settles (hg : p.handle = .given) :
    Logs Settled (handleMappRequest p host) := by
  refine afterLook hg (afterIdle .read fun gc => ?_)
  refine ite (fun _ => ?_) fun _ => ite (fun _ => ?_) fun _ => ite (fun _ => ?_)
    fun _ => ite (fun _ => ?_) fun _ => kill_settles hg
  · exact afterIdle deref_idle fun _ => afterIdle (.update fun _ => rfl) fun _ => kill_settles hg
  · exact afterIdle deref_idle fun _ => afterIdle (.update fun _ => rfl) fun _ => kill_settles hg
  · exact afterIdle (.update fun _ => rfl) fun _ =>
      afterIdle updateStates_idle fun _ => kill_settles hg
  · exact afterIdle disconnect_idle fun _ => kill_settles hg

theorem pushFromNetwork_verdict (hg : p.handle = .given) :
    LogsFrom s (Verdict (NetworkSettled p.data)) (pushFromNetwork p) := by
  refine verdictAfterLook hg ?_
  unfold NetworkSettled
  generalize readNetworkIDs p.data = res
  obtain ⟨ids, off⟩ := res
  rw [LogsFrom]
  dsimp only
  rw [wp_bind]
  split
  · rename_i isReport
    rw [forall_prop_of_true isReport]
    exact handleControlReliabilityNotification_verdict hg
  rename_i other
  refine verdict (fun is => absurd is other)
    (ite (fun _ => ?_) fun _ => ite (fun _ => ?_) fun _ => ?_)
  · refine ite (fun _ => ?_) fun _ => ite (fun _ => ?_) fun _ => ?_
    · exact handleRVNotification_settles hg
    · exact processTMNotification_settles hg
    · exact handleNetworkPublication_settles _ _ hg
  · refine afterIdle (storeActiveNode_respects (fun _ _ => rfl) _ _) fun forward => ?_
    split
    · exact afterIdle (.update fun _ => rfl) fun _ =>
        handleNetworkPublication_settles _ _ hg
    · exact handleNetworkPublication_settles _ _ hg
  · exact handleNetworkPublication_settles _ _ hg

/-- The packets that are consumed as they should be. -/
def ConsumesOnce [Allocator] (s : LocalProxy) (arrival : Arrival) : Prop :=
  if arrival.port = 2 then NetworkSettled arrival.data
  else if arrival.port = 3 then True
  else HostSettled s (s.hostOf arrival.sender.2) arrival.data

end

/-- The packet and its copies are consumed once exactly under the conditions of `ConsumesOnce`. -/
theorem packet_consumed_iff [IterationOrder] [Allocator] {s s' : LocalProxy} {arrival : Arrival}
    (returns : push arrival s = .ok ((), s')) : Consumed s'.uses ↔ ConsumesOnce s arrival := by
  have hg : arrival.packet.handle = .given := rfl
  have logs : wlp (push arrival) (fun _ s' => Consumed s'.uses ↔ ConsumesOnce s arrival) s := by
    unfold ConsumesOnce
    by_cases network : arrival.port = 2
    · rw [push, wlp, wp_bind, wp_update]
      rw [if_pos network, if_pos network]
      refine wp_post (pushFromNetwork_verdict hg) ?_
      rintro _ s' ⟨log, uses, verdict⟩
      rw [uses]
      exact verdict.consumed_iff
    · rw [wlp, wp_push_inner network]
      split
      · refine wp_post (handleMappRequest_settles hg _) ?_
        rintro _ s' ⟨log, uses, hs⟩
        rw [uses]
        exact iff_of_true hs.toLinear trivial
      · refine wp_post (pushFromHost_verdict hg) ?_
        rintro _ s' ⟨log, uses, verdict⟩
        rw [uses, ← HostSettled.congr received_tables.1 received_tables.2]
        exact verdict.consumed_iff
  have consumed := wp_ok logs returns
  exact consumed

/-- Data that an application publishes under an identifier. -/
def publishes (host : Nat) (id : ID) : Arrival :=
  .ofApplication host ([MessageType.publishData.code, UInt8.ofNat id.length] ++ Wire.bytes id ++
    [Strategy.nodeLocal, 1, 2, 3])

open Samples

/-- Data for two local subscribers and for others elsewhere: two copies are made. -/
theorem packet_consumed_with_copies : ∃ (_ : IterationOrder) (_ : Allocator) (s s' : LocalProxy),
    Run (fun _ _ => True) s ∧ push (publishes 7 (smallID [2, 3])) s = .ok ((), s') ∧
    s'.uses = [.look .given, .clone .given (.copy 1), .look (.copy 1), .kill (.copy 1),
      .clone .given (.copy 4), .handOn (.copy 4), .handOn .given] ∧ Consumed s'.uses := by
  let item := smallID [2, 3]
  obtain ⟨s, run, both⟩ := Run.reached
    (show after [requests .publishInfo 7 item, starts [item], requests .subscribeInfo 8 item,
        requests .subscribeInfo 9 item] (fun s =>
      ((publicationFor s item).any fun ap => ap.fidToSubscribers.zero = false,
        outcome (push (publishes 7 item)) (·.uses) s)) =
      .ok (true, .ok [.look .given, .clone .given (.copy 1), .look (.copy 1), .kill (.copy 1),
        .clone .given (.copy 4), .handOn (.copy 4), .handOn .given]) by decide +kernel)
  obtain ⟨seen, next⟩ := Prod.mk.inj both
  obtain ⟨s', hr, uses⟩ := of_outcome next
  obtain ⟨ap, hf, path⟩ := (Option.any_eq_true _ _).mp seen
  refine ⟨insertionOrder, firstFree, s, s', run, hr, uses, ?_⟩
  refine (packet_consumed_iff hr).mpr ?_
  change ¬ Waits s _ item
  rw [waits_iff hf, of_decide_eq_true path]
  rintro ⟨⟨⟩, -⟩

/-- Data for an item that has not been started is neither given back nor handed on. -/
theorem packet_of_waiting_publisher_lost : ∃ (_ : IterationOrder) (_ : Allocator)
    (s s' : LocalProxy), Run (fun _ _ => True) s ∧
    push (publishes 7 (smallID [2, 3])) s = .ok ((), s') ∧
    s'.uses = [.look .given] ∧ ¬ Consumed s'.uses := by
  let item := smallID [2, 3]
  obtain ⟨s, run, next⟩ := Run.reached
    (show after [requests .publishInfo 7 item] (outcome (push (publishes 7 item)) (·.uses)) =
      .ok (.ok [.look .given]) by decide +kernel)
  obtain ⟨s', hr, uses⟩ := of_outcome next
  refine ⟨insertionOrder, firstFree, s, s', run, hr, uses, ?_⟩
  rw [uses]
  intro consumed
  cases consumed.once

end Blackadder.Proxy
