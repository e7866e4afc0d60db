import Blackadder.Proxy.Updates

namespace Blackadder.Proxy

open HashTable LocalProxy All

/-- What a run may bring about: publications that come and go, hosts that go while still listed,
subscriptions to the HTTP namespace that get in each other's way, a second publisher that is
started, identifiers of something else, and hosts that connect. -/
structure Policy where
  registers : Prop
  ghostPublishers : Prop
  ghostSubscribers : Prop
  clobbers : Prop
  crowds : Prop
  adopts : Prop
  connects : Nat → Prop

/-- Nobody but `p` has been told to start. -/
def Alone (publishers : HashTable Ptr MessageType) (p : Ptr) : Prop :=
  ∀ q, publishers.get q = some .startPublish → q = p

/-- A change of states in which no publisher is started, or brought out of `STOP_PUBLISH`. -/
def Calms (before after : HashTable Ptr MessageType) : Prop :=
  ∀ q state, after.get q = some state → ∃ old, before.get q = some old ∧
    (state = .startPublish → old = .startPublish) ∧ (state ≠ .stopPublish → old ≠ .stopPublish)

/-- A change of an active publication that leaves its name and its publishers in place. -/
structure Revision (change : ActivePublication → ActivePublication) : Prop where
  fullID : ∀ ap, (change ap).fullID = ap.fullID
  isScope : ∀ ap, (change ap).isScope = ap.isScope
  keys : ∀ ap, (change ap).publishers.keys = ap.publishers.keys

section

variable {s s' : LocalProxy}

theorem publications_tables (same : s'.tables = s.tables) : publications s' = publications s := by
  simp only [tables, Tables.mk.injEq] at same
  simp only [publications, same]

theorem subscriptions_tables (same : s'.tables = s.tables) :
    subscriptions s' = subscriptions s := by
  simp only [tables, Tables.mk.injEq] at same
  simp only [subscriptions, same]

end

theorem revision_setPublisher (p : Ptr) (state : MessageType) :
    Revision fun ap => { ap with publishers := setState ap.publishers p state } :=
  ⟨fun _ => rfl, fun _ => rfl, fun _ => keys_modify _ _ _⟩

theorem revision_learn (ids : List ID) (fid : Option BABitvector) : Revision fun ap =>
      { ap with allKnownIDs := ids, fidToSubscribers := fid.getD ap.fidToSubscribers } :=
  ⟨fun _ => rfl, fun _ => rfl, fun _ => rfl⟩

/-- Entries are stored under their own names, hosts under their descriptors, and what a host lists
as published has it as a publisher. For information items the converse holds as well. -/
structure Sane (s : LocalProxy) : Prop where
  named : ∀ id ap, s.activePublicationIndex.get id = some ap → ap.fullID = id
  namedSub : ∀ id as, s.activeSubscriptionIndex.get id = some as → as.fullID = id
  listed : ∀ p id, id ∈ (publications s).listed p → p ∈ (publications s).held id
  items : ∀ p id, s.activePublicationIndex.Has id (·.isScope = false) →
    p ∈ (publications s).held id → id ∈ (publications s).listed p
  hosts : ∀ id p, s.localPubSubIndex.get id = some p ↔ s.heap.Has p (·.id = id)

theorem has_id_modify {heap : HashTable Ptr LocalHost} {p q : Ptr} {id : Nat}
    {change : LocalHost → LocalHost} (same : ∀ host, (change host).id = host.id) :
    (heap.modify p change).Has q (·.id = id) ↔ heap.Has q (·.id = id) := by
  simp [has_modify, same]

namespace Sane

variable {s s' : LocalProxy} {p : Ptr} {id : ID}

section

variable (sane : Sane s)

include sane

theorem quiet (same : s'.tables = s.tables) : Sane s' := by
  have pubs := publications_tables same
  simp only [tables, Tables.mk.injEq] at same
  obtain ⟨heap, idx, publications, subs⟩ := same
  constructor
  · rw [publications]
    exact sane.named
  · rw [subs]
    exact sane.namedSub
  · rw [pubs]
    exact sane.listed
  · rw [pubs, publications]
    exact sane.items
  · rw [heap, idx]
    exact sane.hosts

theorem depart {host : LocalHost} (hf : s.heap.get p = some host)
    (left : ∀ id ∈ (publications s).listed p, s.activePublicationIndex.Has id (·.isScope = true)) :
    Sane (s.depart p host.id) := by
  constructor
  · exact sane.named
  · exact sane.namedSub
  · intro q id hl
    rw [publications_depart] at hl ⊢
    exact sane.listed q id hl.2
  · intro q id item hh
    rw [publications_depart] at hh ⊢
    have before := sane.items q id item hh
    refine ⟨?_, before⟩
    rintro rfl
    obtain ⟨ap, hs, hi⟩ := item
    have isScope := (has_of_get hs).mp (left id before)
    rw [hi] at isScope
    cases isScope
  · intro other q
    have before := sane.hosts other q
    have own := sane.hosts host.id p
    simp only [LocalProxy.depart, has_erase] at before ⊢
    simp only [HashTable.Has] at before own ⊢
    grind

theorem revise {change : ActivePublication → ActivePublication} (revision : Revision change) :
    Sane (s.revise id change) := by
  have pubs : publications (s.revise id change) = publications s :=
    publications_revise revision.keys
  constructor
  · exact modify sane.named fun ap _ hn => (revision.fullID ap).trans hn
  · exact sane.namedSub
  · rw [pubs]
    exact sane.listed
  · intro q other item hh
    rw [pubs] at hh ⊢
    simp only [LocalProxy.revise, has_modify, revision.isScope, ite_self] at item
    exact sane.items q other item hh
  · exact sane.hosts

theorem leave : Sane (s.leavePublication p id) := by
  have pubs : publications (s.leavePublication p id) = _ := publications_leave
  constructor
  · exact modifyOrErase sane.named fun _ hn => hn
  · exact sane.namedSub
  · rw [pubs]
    intro q other hl
    exact ⟨hl.1, sane.listed q other hl.2⟩
  · intro q other item hh
    rw [pubs] at hh ⊢
    simp only [LocalProxy.leavePublication, has_modifyOrErase] at item
    obtain ⟨ap, hs, hi⟩ := item
    refine ⟨hh.1, sane.items q other ⟨ap, hs, ?_⟩ hh.2⟩
    split at hi
    · exact hi.2
    · exact hi
  · intro num q
    refine (sane.hosts num q).trans (Iff.symm ?_)
    exact has_id_modify fun _ => rfl

theorem subscription (pubs : publications s' = publications s)
    (publications : s'.activePublicationIndex = s.activePublicationIndex)
    (idx : s'.localPubSubIndex = s.localPubSubIndex)
    (heap : ∀ p id, s'.heap.Has p (·.id = id) ↔ s.heap.Has p (·.id = id))
    (hn : ∀ id as, s'.activeSubscriptionIndex.get id = some as → as.fullID = id) : Sane s' := by
  constructor
  · rw [publications]
    exact sane.named
  · exact hn
  · rw [pubs]
    exact sane.listed
  · rw [pubs, publications]
    exact sane.items
  · intro id p
    rw [idx, heap]
    exact sane.hosts id p

theorem unsubscribe : Sane (s.leaveSubscription p id) := by
  exact sane.subscription publications_leaveSubscription rfl rfl
    (fun _ _ => has_id_modify fun _ => rfl) (modifyOrErase sane.namedSub fun _ hn => hn)

end

variable [IterationOrder] (sane : Sane s)

include sane

theorem connect (type : ElementType) {num : Nat} (free : p ∉ s.heap)
    (new : num ∉ s.localPubSubIndex) : Sane (s.connect p type num) := by
  have ha : ∀ id, id ∉ (publications s).listed p := by
    rintro id ⟨host, hf, -⟩
    exact free (mem_of_get hf)
  constructor
  · exact sane.named
  · exact sane.namedSub
  · intro q id hl
    rw [publications_connect] at hl ⊢
    exact sane.listed q id hl.2
  · intro q id item hh
    rw [publications_connect] at hh ⊢
    have before := sane.items q id item hh
    refine ⟨?_, before⟩
    rintro rfl
    exact ha id before
  · intro other q
    have fresh := get_eq_none.mpr free
    have hu := get_eq_none.mpr new
    have before := sane.hosts other q
    simp only [LocalProxy.connect, has_set] at before ⊢
    simp only [HashTable.Has] at before ⊢
    grind

theorem join (live : p ∈ s.heap) (ht : id ∈ s.activePublicationIndex) :
    Sane (s.joinPublication p id) := by
  have pubs := publications_join live ht
  constructor
  · exact modify sane.named fun _ _ hn => hn
  · exact sane.namedSub
  · rw [pubs]
    intro q other hl
    exact hl.imp_right (sane.listed q other)
  · intro q other item hh
    rw [pubs] at hh ⊢
    simp only [LocalProxy.joinPublication, has_modify, ite_self] at item
    exact hh.imp_right (sane.items q other item)
  · intro num q
    refine (sane.hosts num q).trans (Iff.symm ?_)
    exact has_id_modify fun _ => rfl

theorem add {ap : ActivePublication} (new : ap.fullID ∉ s.activePublicationIndex)
    (blank : ap.publishers = ∅) :
    Sane (s.addPublication ap) := by
  have pubs := publications_add new blank
  constructor
  · exact set sane.named rfl
  · exact sane.namedSub
  · rw [pubs]
    exact sane.listed
  · intro q other item hh
    rw [pubs] at hh ⊢
    simp only [addPublication, has_set] at item
    rcases item with ⟨rfl, -⟩ | ⟨-, item⟩
    · obtain ⟨entry, hs, -⟩ := hh
      exact absurd (mem_of_get hs) new
    · exact sane.items q other item hh
  · exact sane.hosts

theorem addSubscription {as : ActiveSubscription} : Sane (s.addSubscription as) :=
  sane.subscription rfl rfl rfl (fun _ _ => Iff.rfl) (set sane.namedSub rfl)

theorem addSubscriber : Sane (s.addSubscriber p id) :=
  sane.subscription rfl rfl rfl (fun _ _ => Iff.rfl) (modify sane.namedSub fun _ _ hn => hn)

theorem recordSubscription : Sane (s.recordSubscription p id) :=
  sane.subscription publications_recordSubscription rfl rfl
    (fun _ _ => has_id_modify fun _ => rfl) sane.namedSub

end Sane

variable [IterationOrder]

/-- What a handler can do to the tables on behalf of a host, if there is one. -/
inductive Step (pol : Policy) (actor : Ptr) : LocalProxy → LocalProxy → Prop where
  | quiet {s s' : LocalProxy} (quiet : Quiet s s') : Step pol actor s s'
  | report {s s' : LocalProxy} {packet : Out} (registers : pol.registers)
      (tables : s'.tables = s.tables) (out : s'.out = s.out ++ [packet])
      (outwards : packet.addressee = none) : Step pol actor s s'
  | connect {s : LocalProxy} (type : ElementType) {id : Nat} (connects : pol.connects id)
      (free : actor ∉ s.heap) (new : id ∉ s.localPubSubIndex) :
      Step pol actor s (s.connect actor type id)
  | publish {s : LocalProxy} {ap : ActivePublication} (registers : pol.registers)
      (live : actor ∈ s.heap) (new : ap.fullID ∉ s.activePublicationIndex)
      (blank : ap.publishers = ∅) (unknown : ap.allKnownIDs = []) :
      Step pol actor s ((s.addPublication ap).joinPublication actor ap.fullID)
  | join {s : LocalProxy} {id : ID} (registers : pol.registers) (live : actor ∈ s.heap)
      (there : id ∈ s.activePublicationIndex) : Step pol actor s (s.joinPublication actor id)
  | leave {s : LocalProxy} (registers : pol.registers) (id : ID) :
      Step pol actor s (s.leavePublication actor id)
  | handOver {s : LocalProxy} {id : ID} {ap : ActivePublication} {next : Ptr}
      (registers : pol.registers) (found : s.activePublicationIndex.get id = some ap)
      (member : actor ∈ ap.publishers) (state : ap.publishers.get actor ≠ some .stopPublish)
      (alone : pol.crowds ∨ Alone (ap.publishers.erase actor) next) :
      Step pol actor s ((s.leavePublication actor id).setPublisher id next .startPublish)
  | start {s : LocalProxy} {id : ID} {ap : ActivePublication} {first : Ptr}
      (found : s.activePublicationIndex.get id = some ap) (known : ap.allKnownIDs ≠ [])
      (alone : pol.crowds ∨ Alone ap.publishers first) :
      Step pol actor s (s.setPublisher id first .startPublish)
  | learn {s : LocalProxy} {id : ID} {ids : List ID} (fid : Option BABitvector)
      (nonempty : ids ≠ []) (own : pol.adopts ∨ id ∈ ids ∨
        s.activePublicationIndex.Has id (·.isScope = true)) :
      Step pol actor s (s.revise id fun ap =>
        { ap with allKnownIDs := ids, fidToSubscribers := fid.getD ap.fidToSubscribers })
  | calm {s : LocalProxy} {id : ID} {change : ActivePublication → ActivePublication}
      (revision : Revision change) (known : ∀ ap, (change ap).allKnownIDs = ap.allKnownIDs)
      (calms : ∀ ap, s.activePublicationIndex.get id = some ap →
        Calms ap.publishers (change ap).publishers) : Step pol actor s (s.revise id change)
  | subscribe {s : LocalProxy} {as : ActiveSubscription} (live : actor ∈ s.heap)
      (blank : as.subscribers = ∅)
      (alone : pol.clobbers ∨ ∀ q ∈ (subscriptions s).held as.fullID, q = actor) :
      Step pol actor s ((s.addSubscription as).joinSubscription actor as.fullID)
  | joinSubscription {s : LocalProxy} {id : ID} (live : actor ∈ s.heap)
      (there : id ∈ s.activeSubscriptionIndex) : Step pol actor s (s.joinSubscription actor id)
  | addSubscriber {s : LocalProxy} {id : ID}
      (recorded : pol.clobbers ∨ id ∈ (subscriptions s).listed actor) :
      Step pol actor s (s.addSubscriber actor id)
  | unsubscribe {s : LocalProxy} (id : ID) : Step pol actor s (s.leaveSubscription actor id)
  | depart {s : LocalProxy} {host : LocalHost} (registers : pol.registers)
      (found : s.heap.get actor = some host)
      (left : ∀ id ∈ (publications s).listed actor,
        s.activePublicationIndex.Has id (·.isScope = true))
      (unlisted : pol.ghostPublishers ∨ ∀ id, id ∉ (publications s).listed actor)
      (unsubscribed : pol.ghostSubscribers ∨ ∀ id, id ∉ (subscriptions s).listed actor) :
      Step pol actor s (s.depart actor host.id)

/-- A handler takes any number of steps for one host. -/
abbrev Steps (pol : Policy) (actor : Ptr) : LocalProxy → LocalProxy → Prop :=
  Relation.ReflTransGen (Step pol actor)

variable {pol : Policy} {actor : Ptr} {s s' : LocalProxy}

/-- Every step keeps the tables sane. -/
theorem Step.sane (step : Step pol actor s s') (sane : Sane s) : Sane s' := by
  cases step with
  | quiet quiet => exact sane.quiet quiet.tables
  | report _ tables => exact sane.quiet tables
  | connect type _ free new => exact sane.connect type free new
  | publish _ live new blank =>
    exact (sane.add new blank).join live (mem_set.mpr (Or.inl rfl))
  | join _ live there => exact sane.join live there
  | leave => exact sane.leave
  | handOver => exact sane.leave.revise (revision_setPublisher _ _)
  | start => exact sane.revise (revision_setPublisher _ _)
  | learn fid => exact sane.revise (revision_learn _ fid)
  | calm revision => exact sane.revise revision
  | subscribe => exact sane.addSubscription.addSubscriber.recordSubscription
  | joinSubscription => exact sane.addSubscriber.recordSubscription
  | addSubscriber => exact sane.addSubscriber
  | unsubscribe => exact sane.unsubscribe
  | depart _ found left => exact sane.depart found left

theorem Steps.sane (steps : Steps pol actor s s') (sane : Sane s) : Sane s' := by
  induction steps with
  | refl => exact sane
  | tail _ step ih => exact step.sane ih

end Blackadder.Proxy
