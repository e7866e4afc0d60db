import Blackadder.Proxy.Subscriptions

namespace Blackadder.Proxy

open Program List HashTable LocalProxy Report Demand Itinerary Option

def Report.id : Report → ID
  | .published id | .withdrawn _ id => id

/-- What the rendezvous is told when the identifiers with a local publisher change from `before` to
`after`, and `again` are published once more: every change, once, items before scopes and scopes
before those that they are under. -/
structure Account (before after again : Set ID) (told : List Report) : Prop where
  published : ∀ id, .published id ∈ told ↔ (id ∉ before ∧ id ∈ after) ∨ id ∈ again
  withdrawn : ∀ id, (∃ isScope, .withdrawn isScope id ∈ told) ↔ id ∈ before ∧ id ∉ after
  once : (told.map Report.id).Nodup
  items_first : told.Pairwise fun earlier later =>
    ∀ id id', earlier = .withdrawn true id → later ≠ .withdrawn false id'
  longest_first : told.Pairwise fun earlier later =>
    ∀ id id', earlier = .withdrawn true id → later = .withdrawn true id' →
      ¬ (id <+: id' ∧ id ≠ id')

namespace Account

variable {before after again : Set ID} {id : ID}

theorem nothing (hs : after = before) (none : ∀ id, id ∉ again) : Account
    before after again [] := by
  subst hs
  constructor
  · intro id
    simp [none id]
  · intro id
    simp
  · exact nodup_nil
  · exact List.Pairwise.nil
  · exact List.Pairwise.nil

theorem begins (new : id ∉ before) (hs : after = insert id before) (none : ∀ id, id ∉ again) :
    Account before after again [.published id] := by
  subst hs
  constructor
  · intro other
    simp only [mem_singleton, published.injEq, none other, or_false]
    constructor
    · rintro rfl
      exact ⟨new, .inl rfl⟩
    · rintro ⟨ha, hs | ht⟩
      · exact hs
      · exact absurd ht ha
  · intro other
    simp only [mem_singleton, reduceCtorEq, exists_const, false_iff]
    exact fun both => both.2 (.inr both.1)
  · exact nodup_singleton _
  · exact pairwise_singleton _ _
  · exact pairwise_singleton _ _

theorem repeats (hs : after = before) (only : ∀ other, other ∈ again ↔ other = id) :
    Account before after again [.published id] := by
  subst hs
  constructor
  · intro other
    simp [only other]
  · intro other
    simp
  · exact nodup_singleton _
  · exact pairwise_singleton _ _
  · exact pairwise_singleton _ _

theorem ends (ht : id ∈ before) (hs : ∀ other, other ∈ after ↔ other ∈ before ∧ other ≠ id)
    (none : ∀ id, id ∉ again) (isScope : Bool) :
    Account before after again [.withdrawn isScope id] := by
  constructor
  · intro other
    simp only [mem_singleton, reduceCtorEq, none other, or_false, false_iff, hs other]
    exact fun both => both.1 both.2.1
  · intro other
    simp only [mem_singleton, withdrawn.injEq, exists_eq_left, hs other]
    constructor
    · rintro rfl
      exact ⟨ht, fun both => both.2 rfl⟩
    · rintro ⟨hi, hg⟩
      by_contra different
      exact hg ⟨hi, different⟩
  · exact nodup_singleton _
  · exact pairwise_singleton _ _
  · exact pairwise_singleton _ _

end Account

variable {report : Report}

section

variable {s : LocalProxy} {p : Ptr} {items scopes : List ID} {isScope : Bool} {id : ID}

theorem mem_withdrawals {visits : List ID} : report ∈ visits.filterMap (withdrawal s p isScope) ↔
      ∃ id ∈ visits, report = .withdrawn isScope id ∧ isKind s isScope id = true ∧
        lastPublisher s p id = true := by
  simp only [mem_filterMap, withdrawal, ite_none_right_eq_some, Bool.and_eq_true, some.injEq]
  constructor
  · rintro ⟨id, hi, ⟨kind, last⟩, rfl⟩
    exact ⟨id, hi, rfl, kind, last⟩
  · rintro ⟨id, hi, rfl, kind, last⟩
    exact ⟨id, hi, ⟨kind, last⟩, rfl⟩

theorem map_id_withdrawals (visits : List ID) :
    (visits.filterMap (withdrawal s p isScope)).map Report.id =
      visits.filter fun id => isKind s isScope id && lastPublisher s p id := by
  induction visits with
  | nil => rfl
  | cons id rest ih =>
    by_cases ht : isKind s isScope id && lastPublisher s p id
    · simp only [filterMap_cons, withdrawal, ht, filter_cons]
      exact congrArg _ ih
    · simp only [filterMap_cons, withdrawal, ht, filter_cons]
      exact ih

/-- What is told on the way of a host that leaves: who leaves as the last publisher. -/
theorem mem_of_isKind (kind : isKind s isScope id = true) : id ∈ s.activePublicationIndex := by
  obtain ⟨ap, hf, -⟩ := (any_eq_true _ _).mp kind
  exact mem_of_get hf

theorem Itinerary.mem_told (itinerary : Itinerary s p items scopes) :
    (∃ isScope, .withdrawn isScope id ∈ told s p items scopes) ↔
      id ∈ s.activePublicationIndex ∧ id ∈ shedPublications s p ∧ lastPublisher s p id = true := by
  simp only [told, mem_append, mem_withdrawals, withdrawn.injEq]
  constructor
  · rintro ⟨isScope, ⟨other, hi, ⟨rfl, rfl⟩, kind, last⟩ | ⟨other, hi, ⟨rfl, rfl⟩, kind, last⟩⟩
    · have hl := (itinerary.items_listed _ kind).mp hi
      refine ⟨mem_of_isKind kind, ⟨hl, fun he => ?_⟩, last⟩
      rw [not_isKind kind] at he
      cases he.2
    · obtain ⟨hl, hn⟩ := (itinerary.scopes_listed _ kind).mp hi
      exact ⟨mem_of_isKind kind, ⟨hl, fun he => hn he.1⟩, last⟩
  · rintro ⟨ht, ⟨hl, shed⟩, last⟩
    rcases isKind_or_isKind ht with kind | kind
    · exact ⟨false, .inl ⟨id, (itinerary.items_listed id kind).mpr hl, ⟨rfl, rfl⟩, kind, last⟩⟩
    · have hn : id ≠ [] := fun he => shed ⟨he, kind⟩
      exact ⟨true, .inr ⟨id, (itinerary.scopes_listed id kind).mpr ⟨hl, hn⟩, ⟨rfl, rfl⟩,
        kind, last⟩⟩

theorem not_published_told : .published id ∉ told s p items scopes := by
  intro hi
  rcases mem_append.mp hi with item | scope
  · obtain ⟨other, -, ⟨⟩, -⟩ := mem_withdrawals.mp item
  · obtain ⟨other, -, ⟨⟩, -⟩ := mem_withdrawals.mp scope

theorem Itinerary.once (itinerary : Itinerary s p items scopes) :
    ((told s p items scopes).map Report.id).Nodup := by
  rw [told, map_append, map_id_withdrawals, map_id_withdrawals, nodup_append]
  refine ⟨itinerary.items_nodup.filter _, itinerary.scopes_above.nodup.filter _, ?_⟩
  rintro id item other scope rfl
  simp only [mem_filter, Bool.and_eq_true] at item scope
  have kind := scope.2.1
  rw [not_isKind item.2.1] at kind
  cases kind

theorem Itinerary.items_first : (told s p items scopes).Pairwise fun earlier later =>
      ∀ id id', earlier = .withdrawn true id → later ≠ .withdrawn false id' := by
  refine pairwise_append.mpr ⟨?_, ?_, ?_⟩
  · refine pairwise_of_forall_mem_list fun earlier hi _ _ id _ isScope => ?_
    obtain ⟨other, -, rfl, -⟩ := mem_withdrawals.mp hi
    cases isScope
  · refine pairwise_of_forall_mem_list fun _ _ later hi _ id' _ item => ?_
    obtain ⟨other, -, rfl, -⟩ := mem_withdrawals.mp hi
    cases item
  · intro earlier hi _ _ id _ isScope
    obtain ⟨other, -, rfl, -⟩ := mem_withdrawals.mp hi
    cases isScope

/-- A scope is never longer than one that is swept before it. -/
theorem Itinerary.longest_first (itinerary : Itinerary s p items scopes) :
    (told s p items scopes).Pairwise fun earlier later =>
      ∀ id id', earlier = .withdrawn true id → later = .withdrawn true id' →
        ¬ (id <+: id' ∧ id ≠ id') := by
  refine pairwise_append.mpr ⟨?_, ?_, ?_⟩
  · refine pairwise_of_forall_mem_list fun earlier hi _ _ id _ isScope => ?_
    obtain ⟨other, -, rfl, -⟩ := mem_withdrawals.mp hi
    cases isScope
  · refine itinerary.scopes_above.descending.filterMap _ ?_
    intro first second hs earlier ht later ht' id id' isFirst isSecond under
    simp only [withdrawal, ite_none_right_eq_some, some.injEq] at ht ht'
    rw [isFirst] at ht
    rw [isSecond] at ht'
    obtain rfl := (withdrawn.inj ht.2).2
    obtain rfl := (withdrawn.inj ht'.2).2
    exact under.2 (under.1.eq_of_length_le hs)
  · intro earlier hi _ _ id _ isScope
    obtain ⟨other, -, rfl, -⟩ := mem_withdrawals.mp hi
    cases isScope

end

/-- The identifiers that a connected host publishes. -/
def publishedIDs (s : LocalProxy) : Set ID := { id | ∃ p, id ∈ (publications s).listed p }

variable {id : ID}

theorem PublicationsMirrored.mem_publishedIDs {s : LocalProxy} (mirror : PublicationsMirrored s) :
    id ∈ publishedIDs s ↔ id ∈ s.activePublicationIndex := by
  constructor
  · rintro ⟨p, hl⟩
    obtain ⟨ap, hf, -⟩ := (mirror.mirrored p id).mp hl
    exact mem_of_get hf
  · intro ht
    obtain ⟨p, held⟩ := mirror.published id ht
    exact ⟨p, (mirror.mirrored p id).mpr held⟩

/-- What a packet publishes again, as its sender has been told to. -/
def republishedIDs (s : LocalProxy) (arrival : Arrival) : Set ID :=
  { id | ∃ asked p, arrival.demand s.gc = .request asked ∧
    Report.ofType asked.type (fullID asked) = some (.published id) ∧
    s.localPubSubIndex.get arrival.sender.2 = some p ∧ Republishes s p id asked.strategy }

theorem fullID_of_report {type : UInt8} {name : ID}
    (is : ofType type name = some (.published id)) : name = id := by
  unfold ofType at is
  split at is
  · exact published.inj (some.inj is)
  split at is
  · cases is
  · split at is
    · cases is
    · cases is

/-- The policy of packets that are not about publications and that do not make a host leave. -/
def Policy.unregistering : Policy := ⟨False, True, True, True, True, True, fun _ => True⟩

section

variable [IterationOrder] {pol : Policy} {actor : Ptr} {s s' : LocalProxy}

/-- Without registrations the publications stay, and the rendezvous is told nothing. -/
theorem Step.unregistering (step : Step pol actor s s') (closed : ¬ pol.registers) :
    (∀ id, id ∈ s'.activePublicationIndex ↔ id ∈ s.activePublicationIndex) ∧
      reports s' = reports s := by
  cases step with
  | quiet quiet =>
    obtain ⟨sent, out, hh⟩ := quiet.out
    have idx : s'.activePublicationIndex = s.activePublicationIndex :=
      congrArg Tables.activePublicationIndex quiet.tables
    have hs : sent.filterMap Out.report = [] := filterMap_eq_nil_iff.mpr fun pkt hm => (hh pkt hm).1
    rw [reports, out, filterMap_append, hs, append_nil, idx]
    exact ⟨fun _ => Iff.rfl, rfl⟩
  | report registers | publish registers | join registers | leave registers
  | handOver registers | depart registers => exact absurd registers closed
  | start | learn | calm => exact ⟨fun _ => mem_modify, rfl⟩
  | connect | subscribe | joinSubscription | addSubscriber | unsubscribe =>
    exact ⟨fun _ => Iff.rfl, rfl⟩

theorem Steps.unregistering (steps : Steps pol actor s s') (closed : ¬ pol.registers) :
    (∀ id, id ∈ s'.activePublicationIndex ↔ id ∈ s.activePublicationIndex) ∧
      reports s' = reports s := by
  induction steps with
  | refl => exact ⟨fun _ => Iff.rfl, rfl⟩
  | tail _ step ih =>
    obtain ⟨names, ht⟩ := step.unregistering closed
    exact ⟨fun id => (names id).trans (ih.1 id), ht.trans ih.2⟩

end

section

variable {gc : GlobalConf} {data : View} {asked : Wire.Request}

theorem Demand.type_of_leave (asks : ofHost gc data = .leave) :
    data 0 = MessageType.disconnect.code := by
  unfold ofHost at asks
  dsimp only at asks
  split at asks
  · assumption
  split at asks
  · split at asks <;> cases asks
  split at asks
  · split at asks <;> cases asks
  split at asks
  · cases asks
  · cases asks

theorem Demand.type_of_request (asks : ofHost gc data = .request asked)
    (pub : IsPublication asked.type) :
    data 0 ≠ MessageType.disconnect.code ∧ data 0 ≠ MessageType.publishData.code ∧
      data 0 ≠ MessageType.publishDataISub.code ∧
      data 0 ≠ MessageType.publishDataIMulticast.code ∧ asked = Wire.readRequest data := by
  have other : ¬ IsPublication MessageType.publishDataISub.code := by
    unfold IsPublication
    decide
  unfold ofHost at asks
  dsimp only at asks
  split at asks
  · cases asks
  split at asks
  · split at asks <;> cases asks
  split at asks
  · split at asks
    · rw [← request.inj asks] at pub
      exact absurd pub other
    · cases asks
  split at asks
  · cases asks
  · exact ⟨‹_›, ‹_›, ‹_›, ‹_›, (request.inj asks).symm⟩

end

section

variable [IterationOrder] [Allocator] {s s' : LocalProxy} {arrival : Arrival} {asked : Wire.Request}
  {p : Ptr} {forward : Bool}

/-- The state in which the handler has looked at the packet. -/
def LocalProxy.looked (s : LocalProxy) (arrival : Arrival) : LocalProxy :=
  { s.received arrival with uses := [.look .given] }

variable {post : Unit → LocalProxy → Prop} {fault : Fault → Prop}

theorem wp_push_leave (asks : arrival.demand s.gc = .leave) : wp (push arrival) post fault s ↔
      wp (do disconnect (s.hostOf arrival.sender.2); kill arrival.packet) post fault
        (s.looked arrival) := by
  have inner := port_of_demand (.inl asks)
  rw [wp_push_inner inner]
  rw [Arrival.demand, if_neg inner] at asks
  split
  · rename_i mapi
    rw [if_pos mapi] at asks
    have type : arrival.packet.data 0 = MessageType.disconnect.code := by
      by_contra other
      rw [if_neg (by exact other)] at asks
      cases asks
    rw [handleMappRequest, wp_bind, wp_look, wp_bind, type]
    exact Iff.rfl
  · rename_i other
    rw [if_neg other] at asks
    have type : arrival.packet.data 0 = MessageType.disconnect.code := type_of_leave asks
    rw [pushFromHost, wp_bind]
    rw [if_pos type]
    exact Iff.rfl

theorem wp_push_request (asks : arrival.demand s.gc = .request asked)
    (pub : IsPublication asked.type) : wp (push arrival) post fault s ↔
      wp (do
        let forward ← handleLocalRequest (s.hostOf arrival.sender.2) asked
          (requestRoute s.gc asked.strategy)
        if forward then publishReqToRV arrival.packet asked (requestRoute s.gc asked.strategy)
        else kill arrival.packet) post fault (s.looked arrival) := by
  have inner := port_of_demand (.inr ⟨asked, asks⟩)
  rw [wp_push_inner inner]
  rw [Arrival.demand, if_neg inner] at asks
  split
  · rename_i mapi
    rw [if_pos mapi] at asks
    split at asks <;> cases asks
  rename_i other
  rw [if_neg other] at asks
  obtain ⟨leave, publish, iSub, multicast, rfl⟩ := type_of_request asks pub
  have hs : (s.looked arrival).gc = s.gc := received_gc
  rw [pushFromHost, wp_bind, wp_look]
  rw [if_neg (by exact leave), if_neg (by exact publish), if_neg (by exact iSub),
    if_neg (by exact multicast), wp_bind, ← hs]
  exact Iff.rfl

theorem looked_index : (s.looked arrival).activePublicationIndex = s.activePublicationIndex :=
  received_tables.1

theorem looked_reports : reports (s.looked arrival) = reports s := by
  unfold reports looked received welcome
  split
  · rfl
  · split
    · rfl
    · rfl

omit [Allocator] in
/-- The outcome of a request about publications, by what it reports. -/
theorem handleLocalRequest_registers (live : p ∈ s.heap) (pub : IsPublication asked.type)
    (rvFid : BABitvector) : wp (handleLocalRequest p asked rvFid) (fun forward s' =>
      (ofType asked.type (fullID asked) = some (.published (fullID asked)) ∧
        Stored s p (fullID asked) asked.strategy forward s') ∨
      ∃ isScope, ofType asked.type (fullID asked) = some (.withdrawn isScope (fullID asked)) ∧
        Removed s p (fullID asked) forward s') fault s := by
  simp only [IsPublication, mem_cons, not_mem_nil, or_false] at pub
  unfold handleLocalRequest
  rcases pub with type | type | type | type <;> rw [type]
  · exact wp_post (storeActivePublication_spec live _ _ true) fun _ _ hs => .inl ⟨rfl, hs⟩
  · exact wp_post (storeActivePublication_spec live _ _ false) fun _ _ hs =>
      .inl ⟨rfl, hs⟩
  · exact wp_post (removeActivePublication_spec live _) fun _ _ hr =>
      .inr ⟨true, rfl, hr⟩
  · exact wp_post (removeActivePublication_spec live _) fun _ _ hr =>
      .inr ⟨false, rfl, hr⟩

omit [IterationOrder] in
theorem mem_republishedIDs (mirror : PublicationsMirrored s)
    (asks : arrival.demand s.gc = .request asked)
    (isPublish : ofType asked.type (fullID asked) = some (.published (fullID asked)))
    (id : ID) : id ∈ republishedIDs s arrival ↔
      id = fullID asked ∧ Republishes s (s.hostOf arrival.sender.2) id asked.strategy := by
  constructor
  · rintro ⟨other, p, asks', ht, registered, again⟩
    obtain rfl := request.inj (asks.symm.trans asks')
    rw [hostOf, registered]
    exact ⟨(fullID_of_report ht).symm, again⟩
  · rintro ⟨rfl, again⟩
    refine ⟨asked, s.hostOf arrival.sender.2, asks, isPublish, ?_, again⟩
    obtain ⟨-, ap, hf, state⟩ := again
    have hm : s.hostOf arrival.sender.2 ∈ ap.publishers := by
      rcases state with state | state <;> exact mem_of_get state
    obtain ⟨host, live, -⟩ := (mirror.mirrored _ _).mpr ⟨ap, hf, hm⟩
    cases registered : s.localPubSubIndex.get arrival.sender.2 with
    | none =>
      exact absurd (mem_of_get live) (hostOf_free (get_eq_none.mp registered))
    | some p => rw [hostOf, registered, getD_some]

end

/-- The publications that the tables have. -/
def names (s : LocalProxy) : Set ID := { id | id ∈ s.activePublicationIndex }

section

variable {s s' : LocalProxy} {p : Ptr} {id : ID} {strat : Strategy} {forward : Bool}
  {again : Set ID}

open Account

theorem account_of_stored [IterationOrder] (stored : Stored s p id strat forward s')
    (repeats : ∀ other, other ∈ again ↔ other = id ∧ Republishes s p other strat) :
    reports s' = reports s ∧
      Account (names s) (names s') again (if forward then [.published id] else []) := by
  have none : ¬ Republishes s p id strat → ∀ other, other ∉ again := by
    intro first other hi
    obtain ⟨rfl, is⟩ := (repeats other).mp hi
    exact first is
  cases stored with
  | new named _ _ absent =>
    refine ⟨rfl, begins absent ?_ (none fun is => ?_)⟩
    · ext other
      simp [names, LocalProxy.joinPublication, LocalProxy.addPublication, named]
    · obtain ⟨-, ap, hf, -⟩ := is
      exact absent (mem_of_get hf)
  | again is =>
    refine ⟨rfl, Account.repeats rfl fun other => (repeats other).trans ?_⟩
    exact and_iff_left_of_imp fun hs => hs ▸ is
  | join _ first =>
    refine ⟨rfl, nothing ?_ (none first)⟩
    ext other
    exact mem_modify
  | ignored first => exact ⟨rfl, nothing rfl (none first)⟩

theorem account_of_removed (hr : Removed s p id forward s') (isScope : Bool)
    (none : ∀ id, id ∉ again) : reports s' = reports s ∧
      Account (names s) (names s') again (if forward then [.withdrawn isScope id] else []) := by
  cases hr with
  | left there =>
    have kept : ∀ other, other ∈ names (s.leavePublication p id) ↔
        other ∈ names s ∧ ¬ (other = id ∧ lastPublisher s p other = true) := Sheds.leave.names
    refine ⟨rfl, ?_⟩
    cases last : lastPublisher s p id with
    | true =>
      refine ends there (fun other => (kept other).trans ?_) none isScope
      refine and_congr_right fun _ => not_congr (and_iff_left_of_imp ?_)
      rintro rfl
      exact last
    | false =>
      refine nothing ?_ none
      ext other
      refine (kept other).trans (and_iff_left ?_)
      rintro ⟨rfl, isLast⟩
      rw [last] at isLast
      cases isLast
  | ignored => exact ⟨rfl, nothing rfl none⟩

theorem account_of_departed [IterationOrder] {pol : Policy} (hd : Departed pol p s s')
    (none : ∀ id, id ∉ again) :
    ∃ told, reports s' = reports s ++ told ∧ Account (names s) (names s') again told := by
  obtain ⟨items, scopes, itinerary, told⟩ := hd.reports
  refine ⟨_, told, ?_, ?_, itinerary.once, items_first, itinerary.longest_first⟩
  · intro id
    refine iff_of_false not_published_told ?_
    rintro (⟨ha, ht⟩ | repeats)
    · exact ha ((hd.names id).mp ht).1
    · exact none id repeats
  · intro id
    rw [itinerary.mem_told]
    simp only [names, Set.mem_ofPred_eq, hd.names]
    tauto

variable [IterationOrder] [Allocator] {arrival : Arrival} {asked : Wire.Request}

theorem republishes_looked : Republishes (s.looked arrival) p id strat ↔
    Republishes s p id strat := by
  rw [Republishes, looked_index, Republishes]

/-- The reports of a step account for what it does to the publications. -/
abbrev Told (again : Set ID) (s s' : LocalProxy) : Prop :=
  ∃ told, reports s' = reports s ++ told ∧ Account (names s) (names s') again told

theorem told_looked : Told again (s.looked arrival) = Told again s := by
  funext s'
  simp only [Told, names, looked_index, looked_reports]

omit [IterationOrder] [Allocator] in
/-- A request is handed on with its report, or given back. -/
theorem wp_forward {pkt : Packet} {rvFid : BABitvector}
    (is : ofType asked.type (fullID asked) = some report) (account : reports s' = reports s ∧
      Account (names s) (names s') again (if forward then [report] else [])) :
    wlp (if forward then publishReqToRV pkt asked rvFid else kill pkt)
      (fun _ => Told again s) s' := by
  obtain ⟨hs, account⟩ := account
  cases forward with
  | true =>
    refine ⟨[report], ?_, account⟩
    rw [← hs]
    simp [reports, Out.report, is]
  | false =>
    refine ⟨[], ?_, account⟩
    rw [← hs, append_nil]
    rfl

theorem request_account (sane : Sane s) (mirror : PublicationsMirrored s)
    (asks : arrival.demand s.gc = .request asked) (pub : IsPublication asked.type) :
    wlp (push arrival) (fun _ => Told (republishedIDs s arrival) s) s := by
  have inner := port_of_demand (.inr ⟨asked, asks⟩)
  have live : s.hostOf arrival.sender.2 ∈ (s.looked arrival).heap := received_live inner sane
  rw [wlp, wp_push_request asks pub, wp_bind, ← told_looked]
  refine wp_post (handleLocalRequest_registers live pub _) ?_
  rintro forward s1 (⟨is, hs⟩ | ⟨isScope, is, hr⟩)
  · refine wp_forward is (account_of_stored hs fun other => ?_)
    rw [mem_republishedIDs mirror asks is, republishes_looked]
  · refine wp_forward is (account_of_removed hr isScope ?_)
    rintro id ⟨other, p, asks', told, -⟩
    obtain rfl := request.inj (asks.symm.trans asks')
    rw [is] at told
    cases told

theorem leave_account (sane : Sane s) (asks : arrival.demand s.gc = .leave) :
    wlp (push arrival) (fun _ => Told (republishedIDs s arrival) s) s := by
  have inner := port_of_demand (.inl asks)
  have live : s.hostOf arrival.sender.2 ∈ (s.looked arrival).heap := received_live inner sane
  let pol := Policy.all fun _ => True
  have received : Steps pol (s.hostOf arrival.sender.2) s (s.looked arrival) :=
    (received_steps inner trivial).tail (.quiet (.ofSame rfl rfl))
  have hp : pol.PermitsLeave (s.looked arrival) (s.hostOf arrival.sender.2) :=
    ⟨trivial, .inl trivial, .inl trivial, .inl trivial⟩
  rw [wlp, wp_push_leave asks, wp_bind, ← told_looked]
  refine wp_mono (disconnect_spec (received.sane sane) live hp) ?_ fun _ _ => trivial
  intro _ s1 hd
  have none : ∀ id, id ∉ republishedIDs s arrival := by
    rintro id ⟨asked, p, asks', -⟩
    rw [asks] at asks'
    cases asks'
  have account := account_of_departed hd none
  exact account

theorem quiet_account (sane : Sane s)
    (hp : Policy.unregistering.Permits (s.received arrival) (s.hostOf arrival.sender.2)
      (arrival.demand s.gc)) (none : ∀ id, id ∉ republishedIDs s arrival) :
    wlp (push arrival) (fun _ => Told (republishedIDs s arrival) s) s := by
  refine wp_post (push_spec sane (.inr rfl) (.inr trivial) hp) fun _ s' steps => ?_
  obtain ⟨hs, told⟩ := Steps.unregistering steps id
  exact ⟨[], by rw [told, append_nil], .nothing (Set.ext hs) none⟩

/-- The rendezvous is told about every change of what the tables have. -/
theorem push_account (sane : Sane s) (mirror : PublicationsMirrored s) :
    wlp (push arrival) (fun _ => Told (republishedIDs s arrival) s) s := by
  have none : (∀ asked, arrival.demand s.gc = .request asked → ¬ IsPublication asked.type) →
      ∀ id, id ∉ republishedIDs s arrival := by
    rintro other id ⟨asked, p, asks, told, -⟩
    exact other asked asks (isPublication_of_report told)
  cases asks : arrival.demand s.gc with
  | nothing =>
    refine quiet_account sane (by rw [asks]; trivial) (none fun asked request => ?_)
    rw [asks] at request
    cases request
  | notification | multicast =>
    refine quiet_account sane (by rw [asks]; exact .inl trivial) (none fun asked request => ?_)
    rw [asks] at request
    cases request
  | leave => exact leave_account sane asks
  | request asked =>
    by_cases pub : IsPublication asked.type
    · exact request_account sane mirror asks pub
    refine quiet_account sane ?_ (none fun other request => ?_)
    · rw [asks]
      exact ⟨.inr pub, .inl trivial⟩
    · rw [asks] at request
      rwa [← Demand.request.inj request]

end

/-- The rendezvous is told exactly what has got its first local publisher, is published again, or
has lost its last one, unless a host leaves that publishes the scope without any fragments. -/
theorem rendezvous_told_of_publications [IterationOrder] [Allocator] {s s' : LocalProxy}
    {arrival : Arrival} (run : Run LeavesNamedScopes s) (allowed : LeavesNamedScopes s arrival)
    (returns : push arrival s = .ok ((), s')) : ∃ told, reports s' = reports s ++ told ∧
      Account (publishedIDs s) (publishedIDs s') (republishedIDs s arrival) told := by
  obtain ⟨sane, mirror⟩ := run.publicationsMirrored
  have after : Run LeavesNamedScopes s' := .step _ _ arrival run allowed returns
  obtain ⟨-, mirror'⟩ := after.publicationsMirrored
  have before : publishedIDs s = names s := Set.ext fun _ => mirror.mem_publishedIDs
  have later : publishedIDs s' = names s' := Set.ext fun _ => mirror'.mem_publishedIDs
  rw [before, later]
  exact wp_ok (push_account sane mirror) returns

open Samples

/-- The only publisher of an item leaves. -/
theorem rendezvous_told_of_departure : ∃ (_ : IterationOrder) (_ : Allocator) (s s' : LocalProxy),
    Run LeavesNamedScopes s ∧ push (disconnects 7) s = .ok ((), s') ∧
    reports s' = reports s ++ [.withdrawn false (smallID [2, 3])] ∧
    Account (publishedIDs s) (publishedIDs s') (republishedIDs s (disconnects 7))
      [.withdrawn false (smallID [2, 3])] := by
  let item := smallID [2, 3]
  have stays : ∀ arrival ∈ [requests .publishInfo 7 item], ∀ s, LeavesNamedScopes s arrival := by
    intro arrival hm s asks
    obtain rfl := mem_singleton.mp hm
    cases asks
  obtain ⟨s, run, seen⟩ := Run.reached
    (show after _
      (fun s => (isKind s true [], reports s, outcome (push (disconnects 7)) reports s)) =
      .ok (false, [.published item], .ok [.published item, .withdrawn false item]) by
      decide +kernel) LeavesNamedScopes stays
  simp only [Prod.mk.injEq] at seen
  obtain ⟨hn, ht, leaves⟩ := seen
  obtain ⟨s', hr, ht'⟩ := of_outcome leaves
  have ha : LeavesNamedScopes s (disconnects 7) := by
    rintro - p - ⟨-, isScope⟩
    rw [hn] at isScope
    cases isScope
  obtain ⟨more, hs, account⟩ := rendezvous_told_of_publications run ha hr
  have departure : more = [.withdrawn false item] := by
    rw [ht, ht'] at hs
    exact (List.cons.inj hs).2.symm
  rw [departure] at hs account
  exact ⟨insertionOrder, firstFree, s, s', run, hr, hs, account⟩

/-- The only publisher of the scope without any fragments leaves, and the rendezvous is not
told. -/
theorem empty_scope_not_withdrawn : ∃ (_ : IterationOrder) (_ : Allocator) (s s' : LocalProxy),
    Run (fun _ _ => True) s ∧ push (disconnects 7) s = .ok ((), s') ∧
    [] ∈ publishedIDs s ∧ [] ∉ publishedIDs s' ∧ reports s' = reports s := by
  obtain ⟨s, run, seen⟩ := Run.reached
    (show after [requests .publishScope 7 []] (fun s => ((s.heap.get 0).any fun host =>
        [] ∈ host.activePublications ∧ reports s = [.published []],
      outcome (push (disconnects 7)) (fun s => (s.heap.keys, reports s)) s)) =
      .ok (true, .ok ([], [.published []])) by decide +kernel)
  obtain ⟨published, leaves⟩ := Prod.mk.inj seen
  obtain ⟨s', hr, seen'⟩ := of_outcome leaves
  obtain ⟨host, hf, hh⟩ := (any_eq_true _ _).mp published
  obtain ⟨lists, ht⟩ := of_decide_eq_true hh
  obtain ⟨nobody, ht'⟩ := Prod.mk.inj seen'
  refine ⟨insertionOrder, firstFree, s, s', run, hr, ⟨0, host, hf, lists⟩, ?_, by rw [ht, ht']⟩
  rintro ⟨p, other, hs, -⟩
  have hi := mem_keys.mpr (mem_of_get hs)
  rw [nobody] at hi
  cases hi

end Blackadder.Proxy
