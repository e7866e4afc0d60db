import Blackadder.Proxy.Steps

namespace Blackadder.Proxy

open Program HashTable LocalProxy Option

variable {post : Unit → LocalProxy → Prop}

section

variable {s : LocalProxy} {fault : Fault → Prop} {p : Ptr}

theorem wp_deref {post : LocalHost → LocalProxy → Prop} {host : LocalHost}
    (hf : s.heap.get p = some host) : wp (deref p) post fault s ↔ post host s := by
  simp [deref, hf]

theorem wp_assign (hl : p ∈ s.heap) (change : LocalHost → LocalHost) :
    wp (assign p change) post fault s ↔ post () { s with heap := s.heap.modify p change } := by
  obtain ⟨host, hf⟩ := mem_iff_get.mp hl
  simp [assign, wp_deref hf]

variable {id : ID}

theorem wp_publicationAt {post : ActivePublication → LocalProxy → Prop} {ap : ActivePublication}
    (hf : s.activePublicationIndex.get id = some ap) :
    wp (publicationAt id) post fault s ↔ post ap s := by
  simp [publicationAt, hf]

theorem wp_subscriptionAt {post : ActiveSubscription → LocalProxy → Prop} {as : ActiveSubscription}
    (hf : s.activeSubscriptionIndex.get id = some as) :
    wp (subscriptionAt id) post fault s ↔ post as s := by
  simp [subscriptionAt, hf]

end

section

variable [IterationOrder] [Allocator]

/-- The host that a descriptor stands for, or would stand for once it is connected. -/
def LocalProxy.hostOf (s : LocalProxy) (id : Nat) : Ptr :=
  (s.localPubSubIndex.get id).getD (Allocator.address s.heap.keys)

/-- The state in which the host of a descriptor is connected. -/
def LocalProxy.welcome (s : LocalProxy) (type : ElementType) (id : Nat) : LocalProxy :=
  if id ∈ s.localPubSubIndex then s else s.connect (s.hostOf id) type id

variable {s : LocalProxy} {fault : Fault → Prop} {type : ElementType} {id : Nat}

theorem wp_getLocalHost {post : Ptr → LocalProxy → Prop} :
    wp (getLocalHost type id) post fault s ↔ post (s.hostOf id) (s.welcome type id) := by
  simp only [getLocalHost]
  cases hf : s.localPubSubIndex.get id with
  | some host =>
    have ht := mem_of_get hf
    simp [hostOf, welcome, hf, ht]
  | none =>
    have ha := get_eq_none.mp hf
    simp only [hostOf, welcome, hf, getD_none, ha, if_false,
      wp_bind, wp_read, wp_update, wp_pure, connect]

omit [IterationOrder] in
theorem hostOf_free (ha : id ∉ s.localPubSubIndex) : s.hostOf id ∉ s.heap := by
  rw [hostOf, get_eq_none.mpr ha]
  exact Allocator.address_free _

theorem welcome_step {pol : Policy} (hc : pol.connects id) :
    Steps pol (s.hostOf id) s (s.welcome type id) := by
  unfold welcome
  split
  · exact .refl
  · rename_i ha
    exact .single (.connect type hc (hostOf_free ha) ha)

theorem welcome_live (sane : Sane s) : s.hostOf id ∈ (s.welcome type id).heap := by
  unfold welcome
  split
  · rename_i ht
    obtain ⟨p, hf⟩ := mem_iff_get.mp ht
    obtain ⟨host, hs, -⟩ := (sane.hosts id p).mp hf
    rw [hostOf, hf]
    exact mem_of_get hs
  · exact mem_set.mpr (.inl rfl)

end

section

variable [IterationOrder] {s : LocalProxy} {fault : Fault → Prop} {p : Ptr} {id : ID}

theorem wp_joinPublication (hl : p ∈ s.heap) :
    wp (joinPublication p id) post fault s ↔ post () (s.joinPublication p id) := by
  exact wp_assign (by exact hl) _

/-- Nobody is left as a publisher when `p` goes. -/
def lastPublisher (s : LocalProxy) (p : Ptr) (id : ID) : Bool :=
  (s.activePublicationIndex.get id).all fun ap => (ap.publishers.erase p).size = 0

omit [IterationOrder] in
theorem lastPublisher_iff :
    lastPublisher s p id = true ↔ ∀ q ∈ (publications s).held id, q = p := by
  unfold lastPublisher
  cases hf : s.activePublicationIndex.get id with
  | none =>
    refine iff_of_true rfl ?_
    rintro q ⟨ap, hs, -⟩
    rw [hf] at hs
    cases hs
  | some ap =>
    rw [all_some, decide_eq_true_iff, size_eq_zero]
    constructor
    · intro none q hh
      have hm := (Registry.mem_held hf).mp hh
      by_contra hd
      exact none q (mem_erase.mpr ⟨hd, hm⟩)
    · intro last q hm
      obtain ⟨hd, hi⟩ := mem_erase.mp hm
      exact hd (last q ((Registry.mem_held hf).mpr hi))

omit [IterationOrder] in
theorem leavePublication_spec (hl : p ∈ s.heap) (ht : id ∈ s.activePublicationIndex) :
    wp (leavePublication p id id) (fun last s' => last = lastPublisher s p id ∧
      s' = s.leavePublication p id) fault s := by
  obtain ⟨ap, hf⟩ := mem_iff_get.mp ht
  have left := get_modify_of_get hf fun ap => { ap with publishers := ap.publishers.erase p }
  simp only [leavePublication, wp_bind, wp_assign hl, assignPublication, wp_update]
  rw [wp_publicationAt left]
  simp only [LocalProxy.leavePublication, HashTable.modifyOrErase, left, lastPublisher, hf,
    any_some]
  by_cases last : (ap.publishers.erase p).size = 0
  · rw [if_pos last, if_pos (decide_eq_true last)]
    exact ⟨(decide_eq_true last).symm, rfl⟩
  · rw [if_neg last, if_neg (by simpa using last)]
    exact ⟨(decide_eq_false last).symm, rfl⟩

/-- A publish request that the rendezvous is to hear of although the publication is there. -/
def Republishes (s : LocalProxy) (p : Ptr) (id : ID) (strategy : Strategy) : Prop :=
  (strategy = Strategy.nodeLocal ∨ strategy = Strategy.domainLocal) ∧
    s.activePublicationIndex.Has id fun ap =>
      ap.publishers.get p = some .rePublish ∨ ap.publishers.get p = some .resumePublish

/-- The outcomes of `storeActivePublication`: what it returns, and the state it leaves. -/
inductive Stored (s : LocalProxy) (p : Ptr) (id : ID) (strategy : Strategy) :
    Bool → LocalProxy → Prop where
  | new {ap : ActivePublication} (named : ap.fullID = id) (blank : ap.publishers = ∅)
      (unknown : ap.allKnownIDs = []) (absent : id ∉ s.activePublicationIndex) :
      Stored s p id strategy true ((s.addPublication ap).joinPublication p id)
  | again (again : Republishes s p id strategy) : Stored s p id strategy true s
  | join (there : id ∈ s.activePublicationIndex) (first : ¬ Republishes s p id strategy) :
      Stored s p id strategy false (s.joinPublication p id)
  | ignored (first : ¬ Republishes s p id strategy) : Stored s p id strategy false s

theorem storeActivePublication_spec (hl : p ∈ s.heap) (strategy : Strategy)
    (rvFid : BABitvector) (isScope : Bool) :
    wp (storeActivePublication p id strategy rvFid isScope) (Stored s p id strategy) fault s := by
  unfold storeActivePublication
  split
  · rename_i rendezvous
    simp only [wp_bind, wp_read]
    cases hf : s.activePublicationIndex.get id with
    | none =>
      simp only [wp_bind]
      refine (wp_joinPublication (by exact hl)).mpr ?_
      have hs : Stored s p id strategy true
          ((s.addPublication { fullID := id, strategy, isScope, rvFid }).joinPublication p id) :=
        .new rfl rfl rfl (get_eq_none.mp hf)
      exact hs
    | some ap =>
      have ht := mem_of_get hf
      by_cases ha : ap.publishers.get p = some .rePublish ∨
          ap.publishers.get p = some .resumePublish
      · simp only [ha]
        exact .again ⟨rendezvous, ap, hf, ha⟩
      have first : ¬ Republishes s p id strategy := by
        rintro ⟨-, is⟩
        exact ha ((has_of_get hf).mp is)
      simp only [ha, if_false, wp_ite, wp_bind]
      refine ⟨fun _ => ?_, fun _ => .ignored first⟩
      rw [wp_joinPublication hl]
      exact .join ht first
  · rename_i other
    exact .ignored fun ha => other ha.1

/-- The outcomes of `removeActivePublication`. -/
inductive Removed (s : LocalProxy) (p : Ptr) (id : ID) : Bool → LocalProxy → Prop where
  | left (there : id ∈ s.activePublicationIndex) :
      Removed s p id (lastPublisher s p id) (s.leavePublication p id)
  | ignored : Removed s p id false s

omit [IterationOrder] in
theorem removeActivePublication_spec (hl : p ∈ s.heap) (strategy : Strategy) :
    wp (removeActivePublication p id strategy) (Removed s p id) fault s := by
  unfold removeActivePublication
  split
  · simp only [wp_bind, wp_read]
    cases hf : s.activePublicationIndex.get id with
    | none => exact .ignored
    | some ap =>
      have ht := mem_of_get hf
      simp only [wp_ite]
      refine ⟨fun _ => ?_, fun _ => .ignored⟩
      refine wp_post (leavePublication_spec hl ht) ?_
      rintro last s' ⟨rfl, rfl⟩
      exact .left ht
  · exact .ignored

variable {pol : Policy} {strategy : Strategy} {forward : Bool} {s' : LocalProxy}

theorem Stored.steps (hr : pol.registers) (hl : p ∈ s.heap)
    (hs : Stored s p id strategy forward s') : Steps pol p s s' := by
  cases hs with
  | new named blank unknown absent =>
    subst named
    exact .single (.publish hr hl absent blank unknown)
  | again => exact .refl
  | join there => exact .single (.join hr hl there)
  | ignored => exact .refl

theorem Removed.steps (hr : pol.registers) (removed : Removed s p id forward s') :
    Steps pol p s s' := by
  cases removed with
  | left => exact .single (.leave hr id)
  | ignored => exact .refl

end

section

variable [IterationOrder] {s : LocalProxy} {fault : Fault → Prop} {p : Ptr} {id : ID}
variable {post : Unit → LocalProxy → Prop} {pol : Policy}

theorem wp_recordSubscription (hl : p ∈ s.heap) :
    wp (recordSubscription p id) post fault s ↔ post () (s.recordSubscription p id) :=
  wp_assign hl _

theorem wp_newSubscription (hl : p ∈ s.heap) (strategy : Strategy) (rvFid : BABitvector)
    (isScope : Bool) : wp (newSubscription p id strategy rvFid isScope) post fault s ↔
      post () ((s.addSubscription { fullID := id, strategy, isScope, rvFid }).joinSubscription
        p id) := by
  exact wp_recordSubscription (by exact hl)

omit [IterationOrder] in
theorem leaveSubscription_spec (hl : p ∈ s.heap) (ht : id ∈ s.activeSubscriptionIndex) :
    wp (leaveSubscription p id id) (fun _ s' => s' = s.leaveSubscription p id) fault s := by
  obtain ⟨as, hf⟩ := mem_iff_get.mp ht
  have left := get_modify_of_get hf fun as => { as with subscribers := as.subscribers.erase p }
  simp only [leaveSubscription, wp_bind, wp_assign hl, assignSubscription, wp_update]
  rw [wp_subscriptionAt left]
  simp only [LocalProxy.leaveSubscription, HashTable.modifyOrErase, left, any_some]
  by_cases last : (HashTable.erase as.subscribers p).size = 0
  · rw [if_pos last, if_pos (decide_eq_true last)]
    rfl
  · rw [if_neg last, if_neg (by simpa using last)]
    rfl

/-- A subscription to the wildcard item of the HTTP namespace that does no harm: nobody else
subscribes to the root scope when it is new there, and the subscriber does when it is not. -/
def Tidy (s : LocalProxy) (p : Ptr) (id : ID) (strategy : Strategy) : Prop :=
  id = httpDefaultIid →
    (id ∉ s.activeSubscriptionIndex → ∀ q ∈ (subscriptions s).held (fatherID id), q = p) ∧
    (s.activeSubscriptionIndex.Has id (·.strategy = strategy) →
      fatherID id ∈ (subscriptions s).listed p)

theorem storeActiveSubscription_spec (live : p ∈ s.heap) {strategy : Strategy}
    (tidy : pol.clobbers ∨ Tidy s p id strategy) (rvFid : BABitvector) (isScope : Bool) :
    wlp (storeActiveSubscription p id strategy rvFid isScope) (fun _ => Steps pol p s) s := by
  simp only [storeActiveSubscription, wp_bind, wp_read]
  cases hf : s.activeSubscriptionIndex.get id with
  | none =>
    have ha := get_eq_none.mp hf
    let as : ActiveSubscription := { fullID := id, strategy, isScope, rvFid }
    let s1 := (s.addSubscription as).joinSubscription p id
    have all : ∀ q ∈ (subscriptions s).held id, q = p := by
      rintro q ⟨entry, hs, -⟩
      exact absurd (mem_of_get hs) ha
    have first : Step pol p s s1 := .subscribe (s := s) live rfl (.inr all)
    have live1 : p ∈ s1.heap := mem_modify.mpr live
    have he : subscriptions s1 = (subscriptions s).enter p id :=
      subscriptions_subscribe live rfl all
    simp only [wp_bind, wp_newSubscription live, wp_ite]
    refine ⟨fun http => ?_, fun _ => .single first⟩
    rw [wp_newSubscription live1]
    refine .tail (.single first) (.subscribe (s := s1) live1 rfl ?_)
    refine tidy.imp_right fun tidy q hh => ?_
    rw [he] at hh
    rcases hh with ⟨same, -⟩ | before
    · exact same
    · exact (tidy http).1 ha q before
  | some as =>
    have ht := mem_of_get hf
    let s1 := s.joinSubscription p id
    have first : Step pol p s s1 := .joinSubscription live ht
    simp only [wp_ite, wp_bind, wp_pure]
    refine ⟨fun same => ?_, fun _ => .refl⟩
    refine (wp_recordSubscription (by exact live)).mpr ?_
    refine ⟨fun http => ?_, fun _ => .single first⟩
    simp only [subscriptionAt, wp_bind, wp_expect]
    refine ⟨fun _ _ => ?_, fun _ => trivial⟩
    refine .tail (.single first) (.addSubscriber (s := s1) ?_)
    refine tidy.imp_right fun tidy => ?_
    rw [subscriptions_join live ht]
    exact .inr ((tidy http).2 ⟨as, hf, same⟩)

theorem removeActiveSubscription_spec (hl : p ∈ s.heap) (strategy : Strategy) :
    wp (removeActiveSubscription p id strategy) (fun _ => Steps pol p s) fault s := by
  simp only [removeActiveSubscription, wp_bind, wp_read]
  cases hf : s.activeSubscriptionIndex.get id with
  | none => exact .refl
  | some as =>
    simp only [wp_ite, wp_bind]
    refine ⟨fun _ => ?_, fun _ => .refl⟩
    refine wp_post (leaveSubscription_spec hl (mem_of_get hf)) ?_
    rintro last s' rfl
    exact .single (.unsubscribe id)

end

section

open Wire (Request)

/-- The types of the requests about publications. -/
def IsPublication (type : UInt8) : Prop :=
  type ∈ [MessageType.publishScope.code, MessageType.publishInfo.code,
    MessageType.unpublishScope.code, MessageType.unpublishInfo.code]

/-- The types of the requests that subscribe to something. -/
def IsSubscription (type : UInt8) : Prop :=
  type ∈ [MessageType.subscribeScope.code, MessageType.subscribeInfo.code,
    MessageType.publishDataISub.code]

theorem isPublication_of_report {type : UInt8} {id : ID} {report : Report}
    (is : Report.ofType type id = some report) : IsPublication type := by
  unfold Report.ofType at is
  unfold IsPublication
  simp only [List.mem_cons]
  split at is
  · tauto
  split at is
  · tauto
  · split at is
    · tauto
    · cases is

structure Policy.PermitsRequest (pol : Policy) (s : LocalProxy) (p : Ptr) (request : Request) :
    Prop where
  registers : pol.registers ∨ ¬ IsPublication request.type
  tidy : pol.clobbers ∨
    (IsSubscription request.type → Tidy s p (fullID request) request.strategy)

variable [IterationOrder] {pol : Policy} {s : LocalProxy} {p : Ptr} {req : Request}

/-- All that a request changes are steps the policy permits. -/
theorem handleLocalRequest_spec (hl : p ∈ s.heap) (hp : pol.PermitsRequest s p req)
    (rvFid : BABitvector) :
    wlp (handleLocalRequest p req rvFid) (fun _ => Steps pol p s) s := by
  have hr : IsPublication req.type → pol.registers := by
    intro pub
    exact hp.registers.resolve_right (not_not_intro pub)
  have tidy : IsSubscription req.type → pol.clobbers ∨ Tidy s p (fullID req) req.strategy := by
    intro sub
    exact hp.tidy.imp_right fun tidy => tidy sub
  simp only [IsPublication, IsSubscription, List.mem_cons, List.not_mem_nil, or_false] at hr tidy
  have stores : ∀ isScope, pol.registers →
      wlp (storeActivePublication p (fullID req) req.strategy rvFid isScope)
        (fun _ => Steps pol p s) s := by
    intro isScope hr
    exact wp_post (storeActivePublication_spec hl _ _ _) fun _ _ hs =>
      hs.steps hr hl
  have removes : pol.registers → wlp (removeActivePublication p (fullID req) req.strategy)
        (fun _ => Steps pol p s) s := by
    intro hr
    exact wp_post (removeActivePublication_spec hl _) fun _ _ removed => removed.steps hr
  unfold handleLocalRequest
  split
  · rename_i type
    exact stores true (hr (.inl type))
  split
  · rename_i type
    exact stores false (hr (.inr (.inl type)))
  split
  · rename_i type
    exact removes (hr (.inr (.inr (.inl type))))
  split
  · rename_i type
    exact removes (hr (.inr (.inr (.inr type))))
  split
  · rename_i type
    exact storeActiveSubscription_spec hl (tidy (.inl type)) _ _
  split
  · rename_i type
    exact storeActiveSubscription_spec hl (tidy (.inr (.inl type))) _ _
  split
  · exact removeActiveSubscription_spec hl _
  split
  · exact removeActiveSubscription_spec hl _
  split
  · rename_i type
    exact storeActiveSubscription_spec hl (tidy (.inr (.inr type))) _ _
  · exact .refl

theorem publishReqToRV_spec {pkt : Packet}
    (hr : pol.registers ∨ ¬ IsPublication req.type) (rvFid : BABitvector) :
    wlp (publishReqToRV pkt req rvFid) (fun _ => Steps pol p s) s := by
  simp only [publishReqToRV, routeToRV, wp_bind, wp_read, wp_pure]
  cases report : Report.ofType req.type (fullID req) with
  | none =>
    exact wp_post (handOn_quiet (harmless_outwards report rfl)) fun _ _ hq =>
      .single (.quiet hq)
  | some told =>
    have pub := isPublication_of_report report
    exact .single (.report (hr.resolve_right (not_not_intro pub)) rfl rfl rfl)

end

end Blackadder.Proxy
