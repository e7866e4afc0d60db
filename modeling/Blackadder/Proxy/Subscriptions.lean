import Blackadder.Proxy.Run

namespace Blackadder.Proxy

open Program HashTable

/-- The lists of the hosts and the publishers are one relation, and every publication has a
publisher. -/
structure PublicationsMirrored (s : LocalProxy) : Prop where
  mirrored : (publications s).Mirrored
  published : ∀ id ∈ s.activePublicationIndex, ∃ p, p ∈ (publications s).held id

namespace PublicationsMirrored

variable {s s' : LocalProxy} {p : Ptr} {id : ID}

section

variable (mirror : PublicationsMirrored s)

include mirror

theorem congr (hs : publications s' = publications s)
    (names : ∀ id, id ∈ s'.activePublicationIndex → id ∈ s.activePublicationIndex) :
    PublicationsMirrored s' := by
  constructor
  · rw [hs]
    exact mirror.mirrored
  · intro id ht
    rw [hs]
    exact mirror.published id (names id ht)

theorem tables (hs : s'.tables = s.tables) : PublicationsMirrored s' := by
  refine mirror.congr (publications_tables hs) fun id ht => ?_
  rwa [← show s'.activePublicationIndex = s.activePublicationIndex from
    congrArg Tables.activePublicationIndex hs]

theorem revise {change : ActivePublication → ActivePublication} (revision : Revision change) :
    PublicationsMirrored (s.revise id change) :=
  mirror.congr (publications_revise revision.keys) fun _ ht => mem_modify.mp ht

theorem leave : PublicationsMirrored (s.leavePublication p id) := by
  have left : publications (s.leavePublication p id) = _ := publications_leave
  constructor
  · rw [left]
    exact mirror.mirrored.leave
  · intro other ht
    obtain ⟨before, kept⟩ := (Sheds.leave.names other).mp ht
    rw [left]
    by_cases hs : other = id
    · have others : ¬ ∀ q ∈ (publications s).held other, q = p := by
        rw [← lastPublisher_iff]
        exact fun last => kept ⟨hs, last⟩
      simp only [not_forall] at others
      obtain ⟨q, hh, hd⟩ := others
      exact ⟨q, fun both => hd both.1, hh⟩
    · obtain ⟨q, hh⟩ := mirror.published other before
      exact ⟨q, fun both => hs both.2, hh⟩

end

variable [IterationOrder]

theorem join (mirror : PublicationsMirrored s) (hl : p ∈ s.heap)
    (ht : id ∈ s.activePublicationIndex) : PublicationsMirrored (s.joinPublication p id) := by
  have joined := publications_join hl ht
  constructor
  · rw [joined]
    exact mirror.mirrored.enter
  · intro other ht'
    obtain ⟨q, hh⟩ := mirror.published other (mem_modify.mp ht')
    rw [joined]
    exact ⟨q, .inr hh⟩

/-- A publication is stored before its publisher joins it. -/
theorem publish (mirror : PublicationsMirrored s) (hl : p ∈ s.heap) {ap : ActivePublication}
    (new : ap.fullID ∉ s.activePublicationIndex) (blank : ap.publishers = ∅) :
    PublicationsMirrored ((s.addPublication ap).joinPublication p ap.fullID) := by
  have added := publications_add new blank
  have ht : ap.fullID ∈ (s.addPublication ap).activePublicationIndex := mem_set.mpr (.inl rfl)
  have joined : publications ((s.addPublication ap).joinPublication p ap.fullID) = _ :=
    publications_join hl ht
  rw [added] at joined
  constructor
  · rw [joined]
    exact mirror.mirrored.enter
  · intro other ht'
    rw [joined]
    rcases mem_set.mp (mem_modify.mp ht') with rfl | before
    · exact ⟨p, .inl ⟨rfl, rfl⟩⟩
    · obtain ⟨q, hh⟩ := mirror.published other before
      exact ⟨q, .inr hh⟩

end PublicationsMirrored

variable {s : LocalProxy}

/-- The tables can come apart only where a host goes that is still on a list. -/
theorem Step.publicationsMirrored [IterationOrder] {pol : Policy} {actor : Ptr} {s' : LocalProxy}
    (step : Step pol actor s s') (clean : ¬ pol.ghostPublishers) (mirror : PublicationsMirrored s) :
    PublicationsMirrored s' := by
  cases step with
  | quiet quiet => exact mirror.tables quiet.tables
  | report _ tables => exact mirror.tables tables
  | connect type _ free new =>
    have renewed := publications_connect (s := s) (p := actor) type
    refine ⟨?_, fun id ht => ?_⟩
    · rw [renewed]
      refine mirror.mirrored.renew ?_
      rintro id ⟨host, hf, -⟩
      exact free (mem_of_get hf)
    · rw [renewed]
      exact mirror.published id ht
  | publish _ live new blank => exact mirror.publish live new blank
  | join _ live ht => exact mirror.join live ht
  | leave => exact mirror.leave
  | handOver => exact mirror.leave.revise (revision_setPublisher _ _)
  | start => exact mirror.revise (revision_setPublisher _ _)
  | learn fid => exact mirror.revise (revision_learn _ fid)
  | calm revision => exact mirror.revise revision
  | subscribe => exact mirror.congr publications_recordSubscription fun _ ht => ht
  | joinSubscription => exact mirror.congr publications_recordSubscription fun _ ht => ht
  | addSubscriber => exact mirror.congr rfl fun _ ht => ht
  | unsubscribe => exact mirror.congr publications_leaveSubscription fun _ ht => ht
  | depart _ hf left unlisted =>
    have renewed := publications_depart (s := s) (p := actor)
    refine ⟨?_, fun id ht => ?_⟩
    · rw [renewed]
      exact mirror.mirrored.renew (unlisted.resolve_left clean)
    · rw [renewed]
      exact mirror.published id ht

theorem initial_publicationsMirrored (gc : GlobalConf) : PublicationsMirrored { gc } := by
  constructor
  · intro q id
    exact iff_of_false (by rintro ⟨host, ⟨⟩, -⟩) (by rintro ⟨ap, ⟨⟩, -⟩)
  · intro id ht
    exact absurd ht (not_mem_empty id)

/-- A host that leaves does not publish the scope without any fragments. -/
def LeavesNamedScopes (s : LocalProxy) (arrival : Arrival) : Prop :=
  arrival.demand s.gc = .leave → ∀ p, s.localPubSubIndex.get arrival.sender.2 = some p →
    ¬ ([] ∈ (publications s).listed p ∧ isKind s true [] = true)

/-- The packets of such a run leave nobody behind as a publisher. -/
def Policy.noGhostPublishers : Policy := ⟨True, False, True, True, True, True, fun _ => True⟩

theorem permits_noGhostPublishers [IterationOrder] [Allocator] {arrival : Arrival}
    (ha : LeavesNamedScopes s arrival) :
    Policy.noGhostPublishers.Permits (s.received arrival) (s.hostOf arrival.sender.2)
      (arrival.demand s.gc) := by
  cases asks : arrival.demand s.gc with
  | nothing => trivial
  | leave =>
    refine ⟨trivial, .inl trivial, .inr ?_, .inl trivial⟩
    rintro ⟨hl, isScope⟩
    obtain ⟨p, hf, -, listed⟩ :=
      of_listed_received publications_connect (port_of_demand (.inl asks)) hl
    rw [received_isKind] at isScope
    exact ha asks p hf ⟨listed, isScope⟩
  | notification data => exact .inl trivial
  | request asked => exact ⟨.inl trivial, .inl trivial⟩
  | multicast id => exact .inl trivial

theorem Run.publicationsMirrored (run : Run LeavesNamedScopes s) :
    Sane s ∧ PublicationsMirrored s :=
  run.keeps PublicationsMirrored (fun _ _ => permits_noGhostPublishers) (fun _ => trivial)
    initial_publicationsMirrored fun _ mirror step => step.publicationsMirrored id mirror

/-- A node with its own rendezvous. -/
def sampleNode : GlobalConf where
  nodeID := smallFragment 1
  isRV := true
  defaultRV := none
  tmFid := none
  status := 0

/-- A request of an application about something that is for its node only. -/
def requests (type : MessageType) (host : Nat) (id : ID) : Arrival :=
  .ofApplication host (Wire.Request.bytes
    ⟨type.code, lastFragment id, fatherID id, Strategy.nodeLocal⟩)

def disconnects (host : Nat) : Arrival := .ofApplication host [MessageType.disconnect.code]

section

variable [IterationOrder] [Allocator] {β : Type}

/-- What can be seen after the packets of a list. -/
abbrev after (arrivals : List Arrival) (view : LocalProxy → β) : Except Fault β :=
  outcome (pushAll arrivals) view { gc := sampleNode }

theorem Run.reached {view : LocalProxy → β} {seen : β} {arrivals : List Arrival}
    (ends : after arrivals view = .ok seen)
    (allowed : LocalProxy → Arrival → Prop := fun _ _ => True)
    (isAllowed : ∀ arrival ∈ arrivals, ∀ s, allowed s arrival := by exact fun _ _ _ => trivial) :
    ∃ s, Run allowed s ∧ view s = seen := by
  obtain ⟨s, hr, hs⟩ := of_outcome ends
  exact ⟨s, Run.pushAll (.start sampleNode) isAllowed hr, hs⟩

end

/-- What a host lists as published and who is a publisher agree, and every publication has a
publisher, as long as no host goes that publishes the scope without any fragments. -/
theorem publication_tables_mirror {s : LocalProxy} (run : Run LeavesNamedScopes s) :
    (∀ p id, (∃ host, s.heap.get p = some host ∧ id ∈ host.activePublications) ↔
      ∃ ap, s.activePublicationIndex.get id = some ap ∧ p ∈ ap.publishers) ∧
    ∀ id ap, s.activePublicationIndex.get id = some ap →
      (∃ p, p ∈ ap.publishers) ∧ ap.fullID = id := by
  obtain ⟨sane, mirror⟩ := run.publicationsMirrored
  refine ⟨mirror.mirrored, fun id ap hf => ⟨?_, sane.named id ap hf⟩⟩
  obtain ⟨p, hh⟩ := mirror.published id (mem_of_get hf)
  exact ⟨p, (Registry.mem_held hf).mp hh⟩

open Samples

/-- Two applications publish a scope and one of them goes. -/
theorem publication_tables_mirror_shared : ∃ s, Run LeavesNamedScopes s ∧
    (s.heap.keys, s.activePublicationIndex.keys) = ([1], [smallID [2]]) ∧
    ∀ p id, (∃ host, s.heap.get p = some host ∧ id ∈ host.activePublications) ↔
      ∃ ap, s.activePublicationIndex.get id = some ap ∧ p ∈ ap.publishers := by
  let publish := [requests .publishScope 7 (smallID [2]), requests .publishScope 8 (smallID [2])]
  have stays : ∀ arrival ∈ publish, ∀ s, LeavesNamedScopes s arrival := by
    intro arrival hm s asks
    rcases List.mem_pair.mp hm with rfl | rfl <;> cases asks
  obtain ⟨s1, run1, seen⟩ := Run.reached (show after publish (fun s =>
    (isKind s true [], outcome (push (disconnects 7)) (fun s =>
      decide ((s.heap.keys, s.activePublicationIndex.keys) = ([1], [smallID [2]]))) s)) =
        .ok (false, .ok true) by decide +kernel) LeavesNamedScopes stays
  obtain ⟨hn, leave⟩ := Prod.mk.inj seen
  obtain ⟨s2, hr, shared⟩ := of_outcome leave
  have run2 : Run LeavesNamedScopes s2 := by
    refine .step _ _ (disconnects 7) run1 (fun _ p _ both => ?_) hr
    rw [hn] at both
    cases both.2
  exact ⟨s2, run2, of_decide_eq_true shared, (publication_tables_mirror run2).1⟩

/-- The scope without any fragments keeps its publisher when that goes. -/
theorem empty_scope_keeps_publisher : ∃ s, Run (fun _ _ => True) s ∧ ∃ host ap,
    s.heap.get 0 = some host ∧ [] ∉ host.activePublications ∧
    s.activePublicationIndex.get [] = some ap ∧ 0 ∈ ap.publishers := by
  let view (s : LocalProxy) : Option Bool × Option Bool :=
    ((s.heap.get 0).map fun host => decide ([] ∈ host.activePublications),
      (s.activePublicationIndex.get []).map fun ap => decide (0 ∈ ap.publishers))
  obtain ⟨s, run, seen⟩ := Run.reached
    (show after [requests .publishScope 7 [], disconnects 7,
      requests .publishScope 8 (smallID [2])] view = .ok (some false, some true) by decide +kernel)
  obtain ⟨hl, hh⟩ := Prod.mk.inj seen
  obtain ⟨host, hf, hu⟩ := Option.map_eq_some_iff.mp hl
  obtain ⟨ap, hs, hm⟩ := Option.map_eq_some_iff.mp hh
  exact ⟨s, run, host, ap, hf, of_decide_eq_false hu, hs, of_decide_eq_true hm⟩

open LocalProxy

section

variable [IterationOrder] {pol : Policy} {actor p : Ptr} {s s' : LocalProxy} {id : ID}

theorem subscriptions_addSubscriber (hm : p ∈ (subscriptions s).held id) :
    subscriptions (s.addSubscriber p id) = subscriptions s := by
  refine Registry.ext_mem (fun _ _ => Iff.rfl) fun q other => ?_
  change (s.addSubscriber p id).activeSubscriptionIndex.Has other (q ∈ ·.subscribers) ↔
    s.activeSubscriptionIndex.Has other (q ∈ ·.subscribers)
  simp only [LocalProxy.addSubscriber, has_modify]
  by_cases hs : other = id
  · subst hs
    obtain ⟨as, hf, hi⟩ := hm
    simp only [has_of_get hf, HashSet.mem_insert]
    exact ⟨fun either => either.elim (· ▸ hi) fun before => before, .inr⟩
  · simp [hs]

/-- The tables come apart only where a host goes that is still on a list, or subscriptions to the
HTTP namespace get in the way of each other. -/
theorem Step.subscriptions (step : Step pol actor s s') (clean : ¬ pol.ghostSubscribers)
    (tidy : ¬ pol.clobbers) (mirror : (subscriptions s).Mirrored) :
    (Proxy.subscriptions s).Change actor (Proxy.subscriptions s') := by
  cases step with
  | quiet quiet =>
    rw [subscriptions_tables quiet.tables]
    exact .same
  | report _ tables =>
    rw [subscriptions_tables tables]
    exact .same
  | connect _ _ free =>
    rw [subscriptions_connect]
    refine .renew ?_
    rintro id ⟨host, hf, -⟩
    exact free (mem_of_get hf)
  | publish | join =>
    rw [subscriptions_joinPublication]
    exact .same
  | leave =>
    rw [subscriptions_leavePublication]
    exact .same
  | @handOver id =>
    change (Proxy.subscriptions s).Change actor (Proxy.subscriptions (s.leavePublication actor id))
    rw [subscriptions_leavePublication]
    exact .same
  | start | learn | calm => exact .same
  | subscribe live blank alone =>
    rw [subscriptions_subscribe live blank (alone.resolve_left tidy)]
    exact .enter _
  | joinSubscription live there =>
    rw [subscriptions_join live there]
    exact .enter _
  | addSubscriber recorded =>
    rw [subscriptions_addSubscriber ((mirror _ _).mp (recorded.resolve_left tidy))]
    exact .same
  | unsubscribe =>
    rw [subscriptions_leave]
    exact .leave _
  | depart _ _ _ _ unsubscribed =>
    rw [subscriptions_depart]
    exact .renew (unsubscribed.resolve_left clean)

end

/-- A subscriber to the wildcard item of the HTTP namespace is alone with the root scope when the
item is new there, and is down for the root scope when it is not. A host that leaves does not
subscribe to the scope without any fragments. -/
structure SubscribesTidily (s : LocalProxy) (arrival : Arrival) : Prop where
  wildcard : ∀ asked, arrival.demand s.gc = .request asked → IsSubscription asked.type →
    fullID asked = httpDefaultIid →
    (httpDefaultIid ∉ s.activeSubscriptionIndex →
      ∀ q ∈ (subscriptions s).held httpRootScope,
        s.localPubSubIndex.get arrival.sender.2 = some q) ∧
    (s.activeSubscriptionIndex.Has httpDefaultIid (·.strategy = asked.strategy) →
      ∃ p, s.localPubSubIndex.get arrival.sender.2 = some p ∧
        httpRootScope ∈ (subscriptions s).listed p)
  leaves : arrival.demand s.gc = .leave → ∀ p,
    s.localPubSubIndex.get arrival.sender.2 = some p →
    ¬ ([] ∈ (subscriptions s).listed p ∧ isSubscriptionKind s true [] = true)

/-- The packets of such a run leave nobody behind as a subscriber, and nobody out. -/
def Policy.noLostSubscribers : Policy := ⟨True, True, False, False, True, True, fun _ => True⟩

section

variable {s s' : LocalProxy} {arrival : Arrival}

theorem permits_noLostSubscribers [IterationOrder] [Allocator] (ha : SubscribesTidily s arrival) :
    Policy.noLostSubscribers.Permits (s.received arrival) (s.hostOf arrival.sender.2)
      (arrival.demand s.gc) := by
  have isHost : ∀ {q}, s.localPubSubIndex.get arrival.sender.2 = some q →
      s.hostOf arrival.sender.2 = q := by
    intro q hf
    rw [hostOf, hf, Option.getD_some]
  cases asks : arrival.demand s.gc with
  | nothing => trivial
  | leave =>
    refine ⟨trivial, .inl trivial, .inl trivial, .inr ?_⟩
    rintro ⟨hl, isScope⟩
    obtain ⟨p, hf, -, listed⟩ :=
      of_listed_received subscriptions_connect (port_of_demand (.inl asks)) hl
    rw [received_isSubscriptionKind] at isScope
    exact ha.leaves asks p hf ⟨listed, isScope⟩
  | notification data => exact .inl trivial
  | request asked =>
    refine ⟨.inl trivial, .inr fun subscribes http => ?_⟩
    have inner := port_of_demand (.inr ⟨asked, asks⟩)
    have tidy := ha.wildcard asked asks subscribes http
    rw [received_tables.2, received_held, http]
    refine ⟨fun absent q hh => (isHost (tidy.1 absent q hh)).symm, fun hs => ?_⟩
    obtain ⟨p, hf, hl⟩ := tidy.2 hs
    have welcome : s.received arrival = s := by
      rw [received, if_neg inner, welcome, if_pos (mem_of_get hf)]
    rw [welcome, isHost hf]
    exact hl
  | multicast id => exact .inl trivial

theorem Run.subscriptionsMirrored (run : Run SubscribesTidily s) :
    Sane s ∧ (subscriptions s).Mirrored := by
  refine run.keeps (fun s => (subscriptions s).Mirrored) (fun _ _ => permits_noLostSubscribers)
    (fun _ => trivial)
    (fun gc q id => ?_) fun _ mirror step => (step.subscriptions id id mirror).mirrored mirror
  exact iff_of_false (by rintro ⟨host, ⟨⟩, -⟩) (by rintro ⟨as, ⟨⟩, -⟩)

/-- What a host lists as subscribed to and who is a subscriber agree, and a packet takes nobody out
but the host it is from, as long as the packets do no harm to the subscriptions. -/
theorem subscription_tables_mirror (run : Run SubscribesTidily s) :
    (∀ p id, (∃ host, s.heap.get p = some host ∧ id ∈ host.activeSubscriptions) ↔
      ∃ as, s.activeSubscriptionIndex.get id = some as ∧ p ∈ as.subscribers) ∧
    ∀ (_ : IterationOrder) (_ : Allocator) arrival s', SubscribesTidily s arrival →
      push arrival s = .ok ((), s') → ∀ q id,
      arrival.port = 2 ∨ s.localPubSubIndex.get arrival.sender.2 ≠ some q →
      (∃ as, s.activeSubscriptionIndex.get id = some as ∧ q ∈ as.subscribers) →
      ∃ as, s'.activeSubscriptionIndex.get id = some as ∧ q ∈ as.subscribers := by
  obtain ⟨sane, mirror⟩ := run.subscriptionsMirrored
  refine ⟨mirror, fun order addresses arrival s' ha hr q id other hh => ?_⟩
  obtain ⟨host, hf, -⟩ := (mirror q id).mpr hh
  obtain ⟨actor, hd, isActor, hp⟩ := exists_actor (mem_of_get hf) other
    (permits_noLostSubscribers ha)
  have steps := wp_ok (push_spec sane isActor (.inr trivial) hp) hr
  refine (steps.keeps (fun {s _} _ (both : (subscriptions s).Mirrored ∧
    q ∈ (subscriptions s).held id) step => ?_) sane ⟨mirror, hh⟩).2
  have change := step.subscriptions (fun ghosts => ghosts) (fun clobbers => clobbers) both.1
  exact ⟨change.mirrored both.1, change.others_stay hd both.2⟩

open Samples

/-- A subscription to the wildcard item in a node without subscriptions. -/
theorem subscription_tables_mirror_wildcard : ∃ s, Run SubscribesTidily s ∧
    (s.heap.get 0).map (·.activeSubscriptions.keys) = some [httpRootScope, httpDefaultIid] ∧
    ∀ p id, (∃ host, s.heap.get p = some host ∧ id ∈ host.activeSubscriptions) ↔
      ∃ as, s.activeSubscriptionIndex.get id = some as ∧ p ∈ as.subscribers := by
  have ends : outcome (push (requests .subscribeInfo 7 httpDefaultIid))
      (fun s => (s.heap.get 0).map (·.activeSubscriptions.keys)) { gc := sampleNode } =
        .ok (some [httpRootScope, httpDefaultIid]) := by
    decide +kernel
  obtain ⟨s, hr, seen⟩ := of_outcome ends
  have tidy : SubscribesTidily { gc := sampleNode } (requests .subscribeInfo 7 httpDefaultIid) := by
    refine ⟨fun asked _ _ _ => ⟨fun _ => ?_, ?_⟩, fun leaves => by cases leaves⟩
    · rintro q ⟨as, ⟨⟩, -⟩
    · rintro ⟨as, ⟨⟩, -⟩
  have run : Run SubscribesTidily s := .step _ _ _ (.start sampleNode) tidy hr
  exact ⟨s, run, seen, (subscription_tables_mirror run).1⟩

/-- A subscription to the wildcard item takes the subscribers of the root scope away from it. -/
theorem wildcard_takes_root_scope : ∃ s, Run (fun _ _ => True) s ∧ ∃ host as,
    s.localPubSubIndex.get 7 = some 0 ∧ s.heap.get 0 = some host ∧
    httpRootScope ∈ host.activeSubscriptions ∧
    s.activeSubscriptionIndex.get httpRootScope = some as ∧ 0 ∉ as.subscribers := by
  let view (s : LocalProxy) : Option Ptr × Option Bool × Option Bool :=
    (s.localPubSubIndex.get 7,
      (s.heap.get 0).map fun host => decide (httpRootScope ∈ host.activeSubscriptions),
      (s.activeSubscriptionIndex.get httpRootScope).map fun as => decide (0 ∈ as.subscribers))
  obtain ⟨s, run, seen⟩ := Run.reached
    (show after [requests .subscribeScope 7 httpRootScope,
      requests .subscribeInfo 8 httpDefaultIid] view =
        .ok (some 0, some true, some false) by decide +kernel)
  obtain ⟨registered, rest⟩ := Prod.mk.inj seen
  obtain ⟨hl, hh⟩ := Prod.mk.inj rest
  obtain ⟨host, hf, listed⟩ := Option.map_eq_some_iff.mp hl
  obtain ⟨as, hs, hg⟩ := Option.map_eq_some_iff.mp hh
  exact ⟨s, run, host, as, registered, hf, of_decide_eq_true listed, hs, of_decide_eq_false hg⟩

end

end Blackadder.Proxy
