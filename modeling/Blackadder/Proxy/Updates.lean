import Blackadder.Library.Registry
import Blackadder.Proxy.Handlers

namespace Blackadder.Proxy

open HashTable Registry

namespace LocalProxy

variable [IterationOrder] (s : LocalProxy) (p : Ptr)

def connect (type : ElementType) (id : Nat) : LocalProxy :=
  { s with
    heap := s.heap.set p { type, id }
    localPubSubIndex := s.localPubSubIndex.set id p }

def depart (id : Nat) : LocalProxy :=
  { s with
    heap := s.heap.erase p
    localPubSubIndex := s.localPubSubIndex.erase id }

def addPublication (ap : ActivePublication) : LocalProxy :=
  { s with activePublicationIndex := s.activePublicationIndex.set ap.fullID ap }

variable (id : ID)

def joinPublication : LocalProxy :=
  { s with
    heap := s.heap.modify p fun host =>
      { host with activePublications := host.activePublications.insert id }
    activePublicationIndex := s.activePublicationIndex.modify id fun ap =>
      { ap with publishers := ap.publishers.findInsert p .stopPublish } }

/-- A publication without publishers is erased. -/
def leavePublication : LocalProxy :=
  { s with
    heap := s.heap.modify p fun host =>
      { host with activePublications := host.activePublications.erase id }
    activePublicationIndex := s.activePublicationIndex.modifyOrErase id
      (fun ap => { ap with publishers := ap.publishers.erase p }) (·.publishers.size = 0) }

def revise (change : ActivePublication → ActivePublication) :
    LocalProxy :=
  { s with activePublicationIndex := s.activePublicationIndex.modify id change }

def setPublisher (p : Ptr) (state : MessageType) : LocalProxy :=
  s.revise id fun ap => { ap with publishers := setState ap.publishers p state }

def addSubscription (as : ActiveSubscription) : LocalProxy :=
  { s with activeSubscriptionIndex := s.activeSubscriptionIndex.set as.fullID as }

def addSubscriber : LocalProxy :=
  { s with
    activeSubscriptionIndex := s.activeSubscriptionIndex.modify id fun as =>
      { as with subscribers := as.subscribers.insert p } }

def recordSubscription : LocalProxy :=
  { s with
    heap := s.heap.modify p fun host =>
      { host with activeSubscriptions := host.activeSubscriptions.insert id } }

def joinSubscription : LocalProxy :=
  (s.addSubscriber p id).recordSubscription p id

/-- A subscription without subscribers is erased. -/
def leaveSubscription : LocalProxy :=
  { s with
    heap := s.heap.modify p fun host =>
      { host with activeSubscriptions := host.activeSubscriptions.erase id }
    activeSubscriptionIndex := s.activeSubscriptionIndex.modifyOrErase id
      (fun as => { as with subscribers := as.subscribers.erase p }) (·.subscribers.size = 0) }

end LocalProxy

variable (s : LocalProxy)

/-- The hosts and what they publish. -/
def publications : Registry Ptr ID :=
  .ofTables s.heap (·.activePublications) s.activePublicationIndex (·.publishers)

/-- The hosts and what they subscribe to. -/
def subscriptions : Registry Ptr ID :=
  .ofTables s.heap (·.activeSubscriptions) s.activeSubscriptionIndex (·.subscribers)

section

variable {s : LocalProxy} {p : Ptr} {id : ID}

theorem publications_depart (num : Nat) :
    publications (s.depart p num) = (publications s).renew p :=
  ofTables_erase

theorem publications_leave : publications (s.leavePublication p id) = (publications s).leave p id :=
  ofTables_leave (fun _ => rfl) (fun _ => rfl) fun _ => decide_eq_true_iff

theorem publications_revise {change : ActivePublication → ActivePublication}
    (hs : ∀ ap, (change ap).publishers.keys = ap.publishers.keys) :
    publications (s.revise id change) = publications s :=
  ofTables_modify hs

theorem publications_leaveSubscription : publications (s.leaveSubscription p id) = publications s :=
  ofTables_owner fun _ => rfl

theorem subscriptions_depart (num : Nat) :
    subscriptions (s.depart p num) = (subscriptions s).renew p :=
  ofTables_erase

theorem subscriptions_leavePublication :
    subscriptions (s.leavePublication p id) = subscriptions s :=
  ofTables_owner fun _ => rfl

theorem subscriptions_leave :
    subscriptions (s.leaveSubscription p id) = (subscriptions s).leave p id :=
  ofTables_leave (fun _ => rfl) (fun _ => rfl) fun _ => decide_eq_true_iff

variable [IterationOrder]

theorem publications_connect (type : ElementType) (num : Nat) :
    publications (s.connect p type num) = (publications s).renew p :=
  ofTables_set (not_mem_empty ·)

theorem publications_add {ap : ActivePublication} (new : ap.fullID ∉ s.activePublicationIndex)
    (blank : ap.publishers = ∅) : publications (s.addPublication ap) = publications s := by
  refine ext_mem (fun _ _ => Iff.rfl) fun q other => ?_
  have he : ∀ q, q ∉ ap.publishers := by
    rw [blank]
    exact not_mem_empty
  change q ∈ held (.ofTables s.heap _ (s.activePublicationIndex.set ap.fullID ap) _) other ↔ _
  rw [held_set he]
  refine ⟨And.right, fun held => ⟨?_, held⟩⟩
  rintro rfl
  obtain ⟨stored, hf, -⟩ := held
  exact new (mem_of_get hf)

theorem publications_join (hl : p ∈ s.heap) (ht : id ∈ s.activePublicationIndex) :
    publications (s.joinPublication p id) = (publications s).enter p id :=
  ofTables_enter (fun _ => rfl) (fun _ => rfl) hl ht

theorem publications_recordSubscription :
    publications (s.recordSubscription p id) = publications s :=
  ofTables_owner fun _ => rfl

theorem subscriptions_connect (type : ElementType) (num : Nat) :
    subscriptions (s.connect p type num) = (subscriptions s).renew p :=
  ofTables_set (not_mem_empty ·)

theorem subscriptions_joinPublication : subscriptions (s.joinPublication p id) = subscriptions s :=
  ofTables_owner fun _ => rfl

/-- Whoever subscribed before is gone, unless it is the new subscriber itself. -/
theorem subscriptions_subscribe {as : ActiveSubscription} (hl : p ∈ s.heap)
    (blank : as.subscribers = ∅) (ha : ∀ q ∈ (subscriptions s).held as.fullID, q = p) :
    subscriptions ((s.addSubscription as).joinSubscription p as.fullID) =
      (subscriptions s).enter p as.fullID := by
  have ht : as.fullID ∈ (s.addSubscription as).activeSubscriptionIndex := mem_set.mpr (Or.inl rfl)
  have enough : subscriptions ((s.addSubscription as).joinSubscription p as.fullID) =
      (subscriptions (s.addSubscription as)).enter p as.fullID :=
    ofTables_enter (fun _ => rfl) (fun _ => rfl) hl ht
  have he : ∀ q, q ∉ as.subscribers := by
    rw [blank]
    exact not_mem_empty
  have held : ∀ q other, q ∈ (subscriptions (s.addSubscription as)).held other ↔
      other ≠ as.fullID ∧ q ∈ (subscriptions s).held other := by
    intro q other
    change q ∈ held (.ofTables s.heap _ (s.activeSubscriptionIndex.set as.fullID as) _) other ↔ _
    rw [held_set he]
    rfl
  rw [enough]
  refine ext_mem (fun _ _ => Iff.rfl) fun q other => ?_
  change (q = p ∧ other = as.fullID) ∨ q ∈ (subscriptions (s.addSubscription as)).held other ↔
    (q = p ∧ other = as.fullID) ∨ q ∈ (subscriptions s).held other
  rw [held]
  constructor
  · exact Or.imp_right And.right
  · rintro (hs | before)
    · exact Or.inl hs
    · by_cases hs : other = as.fullID
      · exact Or.inl ⟨ha q (hs ▸ before), hs⟩
      · exact Or.inr ⟨hs, before⟩

theorem subscriptions_join (hl : p ∈ s.heap) (ht : id ∈ s.activeSubscriptionIndex) :
    subscriptions (s.joinSubscription p id) = (subscriptions s).enter p id :=
  ofTables_enter (fun _ => rfl) (fun _ => rfl) hl ht

end

open Program List

/-- What the rendezvous is told about the publications of the node. -/
inductive Report where
  | published (id : ID)
  | withdrawn (isScope : Bool) (id : ID)
  deriving DecidableEq, Repr

def Report.ofType (type : UInt8) (id : ID) : Option Report :=
  if type = MessageType.publishScope.code ∨ type = MessageType.publishInfo.code then
    some (.published id)
  else if type = MessageType.unpublishScope.code then some (.withdrawn true id)
  else if type = MessageType.unpublishInfo.code then some (.withdrawn false id)
  else none

namespace Out

def report : Out → Option Report
  | .request _ asked => Report.ofType asked.type (fullID asked)
  | .withdrawal _ type _ id _ prefixID _ => Report.ofType type.code (prefixID ++ id)
  | _ => none

/-- The host that a packet is for. -/
def addressee : Out → Option Nat
  | .event _ id _ _ _ | .controlFailure id _ _ _ | .nodeIDIs id _ | .rvTmFidIs id _ => some id
  | _ => none

end Out

/-- The tables that link hosts with publications and subscriptions. -/
structure Tables where
  heap : HashTable Ptr LocalHost
  localPubSubIndex : HashTable Nat Ptr
  activePublicationIndex : HashTable ID ActivePublication
  activeSubscriptionIndex : HashTable ID ActiveSubscription

def LocalProxy.tables : Tables where
  heap := s.heap
  localPubSubIndex := s.localPubSubIndex
  activePublicationIndex := s.activePublicationIndex
  activeSubscriptionIndex := s.activeSubscriptionIndex

/-- A packet that is no report, and that goes to a live host if to any. -/
def Out.Harmless (packet : Out) : Prop :=
  packet.report = none ∧
    ∀ id, packet.addressee = some id → ∃ p, s.heap.Has p (·.id = id)

/-- The tables stay as they are, and the rendezvous is told nothing about publications. -/
structure Quiet (s s' : LocalProxy) : Prop where
  tables : s'.tables = s.tables
  out : ∃ sent, s'.out = s.out ++ sent ∧ ∀ packet ∈ sent, packet.Harmless s

namespace Quiet

variable {s s' s'' : LocalProxy}

theorem ofSame (tables : s'.tables = s.tables) (out : s'.out = s.out) : Quiet s s' :=
  ⟨tables, [], by rw [out, append_nil], fun _ hm => absurd hm not_mem_nil⟩

theorem refl (s : LocalProxy) : Quiet s s := ofSame rfl rfl

theorem heap (hq : Quiet s s') : s'.heap = s.heap := congrArg Tables.heap hq.tables

theorem trans (first : Quiet s s') (second : Quiet s' s'') : Quiet s s'' := by
  obtain ⟨sent, before, hh⟩ := first.out
  obtain ⟨more, after, hh'⟩ := second.out
  refine ⟨second.tables.trans first.tables, sent ++ more, ?_, ?_⟩
  · rw [after, before, append_assoc]
  intro pkt hm
  rcases mem_append.mp hm with hi | hi
  · exact hh pkt hi
  · have safe := hh' pkt hi
    rw [Out.Harmless, first.heap] at safe
    exact safe

instance : Std.Refl Quiet := ⟨refl⟩

instance : Trans Quiet Quiet Quiet := ⟨trans⟩

end Quiet

section

variable {s : LocalProxy}

theorem note_quiet {use : Use} : Respects Quiet (note use) := fun _ => .ofSame rfl rfl

theorem look_quiet {p : Packet} : Respects Quiet (look p) := note_quiet

theorem kill_quiet {p : Packet} : Respects Quiet (kill p) := note_quiet

theorem clone_quiet {p : Packet} : Respects Quiet (clone p) := fun _ => .ofSame rfl rfl

theorem assignNode_quiet (nid : NodeID) (change : ActiveNode → ActiveNode) :
    Respects Quiet (assignNode nid change) := fun _ => .ofSame rfl rfl

variable {pkt : Out}

theorem emit_quiet (hh : pkt.Harmless s) : wlp (emit pkt) (fun _ => Quiet s) s := by
  refine ⟨rfl, [pkt], rfl, ?_⟩
  intro other hm
  rw [mem_singleton.mp hm]
  exact hh

theorem handOn_quiet {p : Packet} (hh : pkt.Harmless s) :
    wlp (handOn p pkt) (fun _ => Quiet s) s := by
  simp only [handOn]
  refine wp_seq (note_quiet s) fun _ s1 hq => ?_
  rw [Out.Harmless, ← hq.heap] at hh
  exact wp_post (emit_quiet hh) fun _ s' sent => hq.trans sent

theorem harmless_outwards (report : pkt.report = none) (addressee : pkt.addressee = none) :
    pkt.Harmless s := by
  refine ⟨report, ?_⟩
  intro id hf
  rw [addressee] at hf
  cases hf

theorem emit_outwards (report : pkt.report = none) (addressee : pkt.addressee = none) :
    Respects Quiet (emit pkt) :=
  fun _ => emit_quiet (harmless_outwards report addressee)

theorem deref_send_quiet {host : Ptr} {pkt : LocalHost → Out} {send : LocalHost → LP Unit}
    (report : ∀ target, (pkt target).report = none)
    (addressee : ∀ target, (pkt target).addressee = some target.id)
    (sends : ∀ s target, (pkt target).Harmless s →
      wlp (send target) (fun _ => Quiet s) s) :
    Respects Quiet (deref host >>= send) := by
  intro s
  simp only [deref, wp_bind, wp_read]
  rw [wp_expect]
  refine ⟨fun target found => sends s target ⟨report target, ?_⟩, fun _ => trivial⟩
  intro id hf
  rw [addressee] at hf
  exact ⟨host, target, found, Option.some.inj hf⟩

theorem sendNotificationLocally_quiet (type : MessageType) (host : Ptr) (id : ID) :
    Respects Quiet (sendNotificationLocally type host id) :=
  deref_send_quiet (fun _ => rfl) (fun _ => rfl) fun _ _ => emit_quiet

theorem pushDataToLocalSubscriber_quiet {host : Ptr} {id : ID} {p : Packet}
    {apiType : MessageType} : Respects Quiet (pushDataToLocalSubscriber host id p apiType) :=
  deref_send_quiet (fun _ => rfl) (fun _ => rfl) fun _ _ => handOn_quiet

end

theorem publishiReqToRV_quiet {nids : HashSet NodeID} : Respects Quiet (publishiReqToRV nids) :=
  emit_outwards rfl rfl

section

variable {rel : LocalProxy → LocalProxy → Prop} [Std.Refl rel] [Trans rel rel rel]

theorem augmentedIDs_respects (id : ID) : Respects rel (augmentedIDs id) :=
  .bind .read fun _ => .pure

theorem multicastFid_respects (nodes : HashTable NodeID ActiveNode) (nids : List NodeID) :
    Respects rel (multicastFid nodes nids) := by
  refine .foldlM fun fid nid => ?_
  split
  · exact .bind .expect fun _ => .pure
  · exact .pure

variable [IterationOrder]

theorem affectedNodes_respects (lid : Wire.Fid) (nodes : List ActiveNode) :
    Respects rel (affectedNodes lid nodes) :=
  .foldlM fun _ _ => .bind .expect fun _ => .pure

theorem otherSubscribers_respects (ids : List ID) (pub : Ptr) (id : ID) :
    Respects rel (otherSubscribers ids pub id) :=
  .bind .read fun _ => .pure

theorem storeActiveNode_respects (stores : ∀ s nodes, rel s { s with activeNodeIndex := nodes })
    (nid : NodeID) (ids : List ID) : Respects rel (storeActiveNode nid ids) := by
  refine .bind .read fun subs => .bind .read fun found => ?_
  split
  · exact .bind (.update fun s => stores s _) fun _ => .pure
  · exact .pure

variable (sends : ∀ type host id, Respects rel (sendNotificationLocally type host id))

include sends

theorem notifyScopeSubscribers_respects (type : MessageType) (ids : List ID) :
    Respects rel (notifyScopeSubscribers type ids) :=
  .forM fun id => .bind .read fun _ => .forM fun host => sends type host id

omit [IterationOrder]

theorem updateFirst_respects (id : ID) : Respects rel (updateFirst id) := by
  refine .bind .read fun found => ?_
  split
  · exact sends _ _ _
  · exact .pure

theorem updateNode_respects (assigns : ∀ nid change, Respects rel (assignNode nid change))
    (nid : NodeID) (fid : Wire.Fid) : Respects rel (updateNode nid fid) := by
  refine .bind .read fun found => ?_
  cases found with
  | none => exact .pure
  | some an =>
    refine .bind (assigns _ _) fun _ => ?_
    cases an.publishers.first? with
    | none => exact .pure
    | some first => exact .bind (assigns _ _) fun _ => sends _ _ _

end

section

variable {ids : List ID} {id : ID} {type : MessageType} {fid : BABitvector} {p : Packet}
  {host : Ptr} {apiType : MessageType}

theorem pushTypedDataToRemoteSubscribers_quiet :
    Respects Quiet (pushTypedDataToRemoteSubscribers ids type fid p) := by
  refine .bind look_quiet fun _ => ?_
  split
  · exact .bind kill_quiet fun _ => emit_outwards rfl rfl
  · exact emit_outwards rfl rfl
  · exact .fail

theorem deliver_quiet {subs : List (Ptr × ID)} : Respects Quiet (deliver p apiType subs) := by
  fun_induction deliver p apiType subs with
  | case1 => exact .pure
  | case2 host id => exact pushDataToLocalSubscriber_quiet
  | case3 host id next rest ih =>
    exact .bind clone_quiet fun copy =>
      .bind pushDataToLocalSubscriber_quiet fun _ => ih

theorem pushCopy_quiet {remote : Packet → LP Unit} (sends : ∀ p, Respects Quiet (remote p)) :
    Respects Quiet (pushCopy fid p remote) :=
  .bind .read fun _ => .ite .pure (.bind clone_quiet sends)

theorem handleControlReliabilityNotification_quiet :
    Respects Quiet (handleControlReliabilityNotification p) := by
  refine .bind look_quiet fun _ => .bind .read fun gc => .ite kill_quiet ?_
  split
  · exact .pure
  · refine .bind .read fun hosts => .forM fun host => ?_
    exact deref_send_quiet (fun _ => rfl) (fun _ => rfl) fun _ _ => emit_quiet

variable [IterationOrder]

theorem handleNetworkPublication_quiet : Respects Quiet (handleNetworkPublication ids p apiType) :=
  .bind .read fun _ => .ite deliver_quiet kill_quiet

theorem handleUserPublication_quiet :
    Respects Quiet (handleUserPublication id type p host apiType) := by
  refine .bind .read fun pubs => ?_
  dsimp only
  split
  · exact kill_quiet
  refine .ite ?_ (.bind (otherSubscribers_respects _ _ _) fun subs => .ite ?_ ?_)
  · split
    · exact sendNotificationLocally_quiet _ _ _
    · exact sendNotificationLocally_quiet _ _ _
    · exact .pure
    · exact kill_quiet
  · exact pushTypedDataToRemoteSubscribers_quiet
  · exact .bind clone_quiet fun copy =>
      .bind pushTypedDataToRemoteSubscribers_quiet fun _ => deliver_quiet

theorem handleImplicitPublication_quiet {remote : List ID → Packet → LP Unit}
    (sends : ∀ ids p, Respects Quiet (remote ids p)) :
    Respects Quiet (handleImplicitPublication id fid p host apiType remote) :=
  .bind (augmentedIDs_respects id) fun ids =>
    .bind (otherSubscribers_respects ids host id) fun _ =>
      .ite (sends ids p) (.bind (pushCopy_quiet (sends ids)) fun _ => deliver_quiet)

end

end Blackadder.Proxy
