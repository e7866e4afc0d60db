import Blackadder.Proxy.Subscriptions

namespace Blackadder.Proxy

open Program HashTable Option

/-- A property of the entries holds for all active publications. -/
def AllPublications (property : ActivePublication → Prop) (s : LocalProxy) : Prop :=
  ∀ id ap, s.activePublicationIndex.get id = some ap → property ap

/-- A publication without publishers, publishers that come and go, are started or change to other
states, and new known identifiers keep the property. -/
structure Stable [IterationOrder] (pol : Policy) (actor : Ptr)
    (property : ActivePublication → Prop) : Prop where
  fresh : ∀ ap, ap.publishers = ∅ → ap.allKnownIDs = [] → property ap
  joined : ∀ ap, property ap →
    property { ap with publishers := ap.publishers.findInsert actor .stopPublish }
  left : ∀ ap, property ap → property { ap with publishers := ap.publishers.erase actor }
  handed : ∀ ap next, property ap → actor ∈ ap.publishers →
    ap.publishers.get actor ≠ some .stopPublish →
    pol.crowds ∨ Alone (ap.publishers.erase actor) next →
    property { ap with publishers := setState (ap.publishers.erase actor) next .startPublish }
  started : ∀ ap first, property ap → ap.allKnownIDs ≠ [] →
    pol.crowds ∨ Alone ap.publishers first →
    property { ap with publishers := setState ap.publishers first .startPublish }
  learned : ∀ ap ids fid, property ap → ids ≠ [] →
    pol.adopts ∨ ap.fullID ∈ ids ∨ ap.isScope = true →
    property { ap with allKnownIDs := ids, fidToSubscribers := fid }
  calmed : ∀ ap ap', property ap → ap'.fullID = ap.fullID → ap'.isScope = ap.isScope →
    ap'.allKnownIDs = ap.allKnownIDs → Calms ap.publishers ap'.publishers → property ap'

variable {ap : ActivePublication} {p : Ptr}

namespace AllPublications

variable {property : ActivePublication → Prop} {s s' : LocalProxy} {id : ID}

section

variable (all : AllPublications property s)

include all

theorem same (idx : s'.activePublicationIndex = s.activePublicationIndex) :
    AllPublications property s' := by
  rw [AllPublications, idx]
  exact all

theorem tables (same : s'.tables = s.tables) : AllPublications property s' :=
  all.same (congrArg Tables.activePublicationIndex same)

theorem revise {change : ActivePublication → ActivePublication}
    (hc : ∀ ap, s.activePublicationIndex.get id = some ap → property ap → property (change ap)) :
    AllPublications property (s.revise id change) :=
  All.modify all hc

theorem leave (left : ∀ ap, property ap → property { ap with publishers := ap.publishers.erase p })
    : AllPublications property (s.leavePublication p id) :=
  All.modifyOrErase all left

end

variable [IterationOrder]

theorem join (all : AllPublications property s) (joined : ∀ ap, property ap →
      property { ap with publishers := ap.publishers.findInsert p .stopPublish }) :
    AllPublications property (s.joinPublication p id) :=
  All.modify all fun ap _ hh => joined ap hh

theorem add (all : AllPublications property s) (hf : property ap) :
    AllPublications property (s.addPublication ap) :=
  All.set all hf

/-- A property that the changes of states and of known identifiers keep holds after every step. -/
theorem step {pol : Policy} {actor : Ptr} (stable : Stable pol actor property) (sane : Sane s)
    (all : AllPublications property s) (step : Step pol actor s s') :
    AllPublications property s' := by
  cases step with
  | quiet quiet => exact all.tables quiet.tables
  | report _ tables => exact all.tables tables
  | publish _ _ _ blank unknown => exact (all.add (stable.fresh _ blank unknown)).join stable.joined
  | join => exact all.join stable.joined
  | leave => exact all.leave stable.left
  | @handOver id ap next _ hf member state alone =>
    intro other entry hs
    simp only [LocalProxy.setPublisher, LocalProxy.revise, LocalProxy.leavePublication,
      get_modify, get_modifyOrErase] at hs
    split at hs
    · rw [hf] at hs
      obtain ⟨old, hc, rfl⟩ := map_eq_some_iff.mp hs
      obtain ⟨same, -⟩ := filter_eq_some_iff.mp hc
      obtain rfl := Option.some.inj same
      exact stable.handed ap next (all id ap hf) member state alone
    · exact all other entry hs
  | start hf known alone =>
    refine all.revise fun ap hs hh => ?_
    obtain rfl := Option.some.inj (hs.symm.trans hf)
    exact stable.started ap _ hh known alone
  | @learn id ids fid hn own =>
    refine all.revise fun ap hs hh => stable.learned ap ids _ hh hn ?_
    rw [sane.named id ap hs]
    exact own.imp_right (Or.imp_right (has_of_get hs).mp)
  | calm revision known calms =>
    exact all.revise fun ap hs hh => stable.calmed ap _ hh (revision.fullID ap)
      (revision.isScope ap) (known ap) (calms ap hs)
  | connect | subscribe | joinSubscription | addSubscriber | unsubscribe | depart =>
    exact all.same rfl

end AllPublications

open Samples

/-- At most one publisher has been told to start. -/
def OneStarted (ap : ActivePublication) : Prop :=
  ∀ p q, ap.publishers.get p = some .startPublish → ap.publishers.get q = some .startPublish → p = q

theorem Alone.oneStarted (ha : Alone ap.publishers p) : OneStarted ap :=
  fun q q' hs hs' => (ha q hs).trans (ha q' hs').symm

variable {pol : Policy}

theorem OneStarted.stable [IterationOrder] (ho : ¬ pol.crowds) (actor : Ptr) :
    Stable pol actor OneStarted where
  fresh ap blank _ p q started := by
    rw [blank] at started
    cases started
  joined ap one p q started started' := by
    simp only [get_findInsert] at started started'
    split at started
    · cases started
    · split at started'
      · cases started'
      · exact one p q started started'
  left ap one p q started started' := by
    simp only [get_erase] at started started'
    split at started
    · cases started
    · split at started'
      · cases started'
      · exact one p q started started'
  handed ap next _ _ _ ha := (ha.resolve_left ho).setState.oneStarted
  started ap first _ _ ha := (ha.resolve_left ho).setState.oneStarted
  learned ap ids fid one _ _ := one
  calmed ap ap' one _ _ _ calms p q started started' := by
    obtain ⟨old, before, same, -⟩ := calms p _ started
    obtain ⟨old', before', same', -⟩ := calms q _ started'
    rw [same rfl] at before
    rw [same' rfl] at before'
    exact one p q before before'

/-- When `START_PUBLISH` comes, nobody has been started but the publishers that come first. When a
host goes that has been told about an item, nobody but the one that comes first after it. -/
structure StartsAlone (s : LocalProxy) (arrival : Arrival) : Prop where
  starts : ∀ data, arrival.demand s.gc = .notification data →
    (Wire.readNotification data).type = MessageType.startPublish.code →
    StartsOrderly s (Wire.readNotification data).ids
  leaves : arrival.demand s.gc = .leave → ∀ p,
    s.localPubSubIndex.get arrival.sender.2 = some p →
    ∀ id ∈ (publications s).listed p, Orderly s p id

def Policy.noCrowds : Policy := ⟨True, True, True, True, False, True, fun _ => True⟩

variable {s : LocalProxy} {arrival : Arrival}

theorem permits_noCrowds [IterationOrder] [Allocator] (ha : StartsAlone s arrival) :
    Policy.noCrowds.Permits (s.received arrival) (s.hostOf arrival.sender.2)
      (arrival.demand s.gc) := by
  cases asks : arrival.demand s.gc with
  | nothing => trivial
  | leave =>
    refine ⟨trivial, .inr fun id listed => ?_, .inl trivial, .inl trivial⟩
    obtain ⟨p, hf, isHost, hl⟩ :=
      of_listed_received publications_connect (port_of_demand (.inl asks)) listed
    rw [Orderly, received_tables.1, isHost]
    exact ha.leaves asks p hf id hl
  | notification data =>
    refine .inr fun type => ?_
    rw [StartsOrderly, received_tables.1]
    exact ha.starts data asks type
  | request asked => exact ⟨.inl trivial, .inl trivial⟩
  | multicast id => exact .inl trivial

/-- At most one publisher of a publication is told to start, as long as no packet starts a second
one. -/
theorem at_most_one_started {s : LocalProxy} (run : Run StartsAlone s) :
    ∀ id ap, s.activePublicationIndex.get id = some ap → ∀ p q,
      ap.publishers.get p = some .startPublish → ap.publishers.get q = some .startPublish →
      p = q :=
  (run.keeps (AllPublications OneStarted) (fun _ _ => permits_noCrowds) (fun _ => trivial)
    (by rintro gc id ap ⟨⟩)
    fun sane all step => all.step (OneStarted.stable (fun crowds => crowds) _) sane step).2

/-- `START_PUBLISH` from the network, about some identifiers. -/
def starts (ids : List ID) : Arrival :=
  { Wire.Buffer.ofBytes ([1, 2] ++ Wire.bytes sampleNode.notificationIID ++
      [MessageType.publishData.code, MessageType.startPublish.code, UInt8.ofNat ids.length] ++
      ids.flatMap (fun id => UInt8.ofNat id.length :: Wire.bytes id) ++ List.replicate 32 1) with
    port := 2, anno := 0 }

/-- An item that two applications publish is started for the first time. -/
theorem at_most_one_started_of_two : ∃ s ap, Run StartsAlone s ∧
    s.activePublicationIndex.get (smallID [2, 3]) = some ap ∧
    (ap.publishers.get 0, ap.publishers.get 1) = (some .stopPublish, some .startPublish) ∧
    ∀ p q, ap.publishers.get p = some .startPublish → ap.publishers.get q = some .startPublish →
      p = q := by
  let item := smallID [2, 3]
  let publish := [requests .publishInfo 7 item, requests .publishInfo 8 item]
  have nothing : ∀ arrival ∈ publish, ∀ s, StartsAlone s arrival := by
    refine fun arrival hm s => ⟨fun data asks => ?_, fun asks => ?_⟩
    · rcases List.mem_pair.mp hm with rfl | rfl <;> cases asks
    · rcases List.mem_pair.mp hm with rfl | rfl <;> cases asks
  obtain ⟨s1, run1, both⟩ := Run.reached (show after publish (fun s =>
    (s.activePublicationIndex.values.all fun ap => ap.publishers.values.all (· ≠ .startPublish),
      outcome (push (starts [item])) (fun s => (s.activePublicationIndex.get item).map fun ap =>
        (ap.publishers.get 0, ap.publishers.get 1)) s)) =
      .ok (true, .ok (some (some .stopPublish, some .startPublish))) by decide +kernel)
    StartsAlone nothing
  obtain ⟨idle, started⟩ := Prod.mk.inj both
  obtain ⟨s2, hr, seen⟩ := of_outcome started
  obtain ⟨ap, hf, states⟩ := map_eq_some_iff.mp seen
  have ha : StartsAlone s1 (starts [item]) := by
    refine ⟨fun _ _ _ id _ ap stored first _ q hs => ?_, fun asks => ?_⟩
    · have hi := List.all_eq_true.mp idle ap (mem_values.mpr ⟨id, stored⟩)
      have state := List.all_eq_true.mp hi _ (mem_values.mpr ⟨q, hs⟩)
      simp at state
    · exact absurd rfl (port_of_demand (.inl asks))
  have run2 : Run StartsAlone s2 := .step _ _ _ run1 ha hr
  exact ⟨s2, ap, run2, hf, states, at_most_one_started run2 _ ap hf⟩

/-- An application that joins an item comes first, and is started besides the one before. -/
theorem second_publisher_started : ∃ s ap, Run (fun _ _ => True) s ∧
    s.activePublicationIndex.get (smallID [2, 3]) = some ap ∧
    ap.publishers.get 0 = some .startPublish ∧ ap.publishers.get 1 = some .startPublish := by
  let item := smallID [2, 3]
  obtain ⟨s, run, seen⟩ := Run.reached
    (show after [requests .publishInfo 7 item, starts [item], requests .publishInfo 8 item,
      starts [item]] (fun s => (s.activePublicationIndex.get item).map fun ap =>
        (ap.publishers.get 0, ap.publishers.get 1)) =
      .ok (some (some .startPublish, some .startPublish)) by decide +kernel)
  obtain ⟨ap, hf, states⟩ := map_eq_some_iff.mp seen
  obtain ⟨first, second⟩ := Prod.mk.inj states
  exact ⟨s, ap, run, hf, first, second⟩

/-- The known identifiers are its own, and there are some once a publisher was told not to stop. -/
structure KnownOwn (ap : ActivePublication) : Prop where
  own : ap.isScope = false → ap.allKnownIDs = [] ∨ ap.fullID ∈ ap.allKnownIDs
  some : ∀ p state, ap.publishers.get p = .some state → state ≠ .stopPublish →
    ap.allKnownIDs ≠ []

theorem KnownOwn.stable [IterationOrder] (own : ¬ pol.adopts) (actor : Ptr) :
    Stable pol actor KnownOwn where
  fresh ap blank unknown := by
    refine ⟨fun _ => .inl unknown, fun p state hf => ?_⟩
    rw [blank] at hf
    cases hf
  joined ap hk := by
    refine ⟨hk.own, fun p state hf running => ?_⟩
    simp only [get_findInsert] at hf
    split at hf
    · exact absurd (Option.some.inj hf).symm running
    · exact hk.some p state hf running
  left ap hk := by
    refine ⟨hk.own, fun p state hf running => ?_⟩
    simp only [get_erase] at hf
    split at hf
    · cases hf
    · exact hk.some p state hf running
  handed ap next hk hm running _ := by
    obtain ⟨state, hf⟩ := mem_iff_get.mp hm
    refine ⟨hk.own, fun _ _ _ _ => hk.some actor state hf ?_⟩
    rintro rfl
    exact running hf
  started ap first hk hn _ := ⟨hk.own, fun _ _ _ _ => hn⟩
  learned ap ids fid hk hn isOwn := by
    refine ⟨fun item => .inr ?_, fun _ _ _ _ => hn⟩
    refine (isOwn.resolve_left own).resolve_right fun isScope => ?_
    rw [isScope] at item
    cases item
  calmed ap ap' hk name kind ids calms := by
    refine ⟨?_, fun p state hf running => ?_⟩
    · rw [name, kind, ids]
      exact hk.own
    · obtain ⟨old, before, -, running'⟩ := calms p state hf
      rw [ids]
      exact hk.some p old before (running' running)

/-- An implicit multicast is for a publication of its own, or for something under a scope. -/
def MulticastsOwn (s : LocalProxy) (arrival : Arrival) : Prop :=
  ∀ id, arrival.demand s.gc = .multicast id → ∀ target,
    multicastTarget s.activePublicationIndex id = some target →
    target = id ∨ s.activePublicationIndex.Has target (·.isScope = true)

def Policy.noAdoptions : Policy := ⟨True, True, True, True, True, False, fun _ => True⟩

theorem permits_noAdoptions [IterationOrder] [Allocator] (ha : MulticastsOwn s arrival) :
    Policy.noAdoptions.Permits (s.received arrival) (s.hostOf arrival.sender.2)
      (arrival.demand s.gc) := by
  cases asks : arrival.demand s.gc with
  | nothing => trivial
  | leave => exact ⟨trivial, .inl trivial, .inl trivial, .inl trivial⟩
  | notification data => exact .inl trivial
  | request asked => exact ⟨.inl trivial, .inl trivial⟩
  | multicast id =>
    refine .inr ?_
    rw [received_tables.1]
    exact ha id asks

/-- The known identifiers of an item are its own, and there are some once a publisher was told not
to stop, as long as no multicast sets those of an item it is under. -/
theorem known_ids_are_own {s : LocalProxy} (run : Run MulticastsOwn s) :
    ∀ id ap, s.activePublicationIndex.get id = some ap → ap.isScope = false →
      (ap.allKnownIDs = [] ∨ ap.fullID ∈ ap.allKnownIDs) ∧
      ((∃ p state, ap.publishers.get p = some state ∧ state ≠ .stopPublish) →
        ap.allKnownIDs ≠ []) := by
  intro id ap hf item
  have hk := (run.keeps (AllPublications KnownOwn)
    (fun _ _ => permits_noAdoptions) (fun _ => trivial)
    (by rintro gc id ap ⟨⟩)
    fun sane all step => all.step (KnownOwn.stable (fun adopts => adopts) _) sane step).2 id ap hf
  refine ⟨hk.own item, ?_⟩
  rintro ⟨p, state, isState, running⟩
  exact hk.some p state isState running

/-- An implicit multicast of an application to no node at all. -/
def multicasts (host : Nat) (id : ID) : Arrival :=
  .ofApplication host ([MessageType.publishDataIMulticast.code, UInt8.ofNat id.length] ++
    Wire.bytes id ++ [Strategy.implicitRendezvous, 0])

/-- An item that is started knows its own identifier. -/
theorem known_ids_are_own_started : ∃ s ap, Run MulticastsOwn s ∧
    s.activePublicationIndex.get (smallID [2, 3]) = some ap ∧
    ap.publishers.get 0 = some .startPublish ∧ ap.isScope = false ∧
    (ap.allKnownIDs = [] ∨ ap.fullID ∈ ap.allKnownIDs) ∧ ap.allKnownIDs ≠ [] := by
  let item := smallID [2, 3]
  let arrivals := [requests .publishInfo 7 item, starts [item]]
  have own : ∀ arrival ∈ arrivals, ∀ s, MulticastsOwn s arrival := by
    intro arrival hm s id asks
    rcases List.mem_pair.mp hm with rfl | rfl
    · cases asks
    have network : (starts [item]).port = 2 := rfl
    rcases demand_of_network network s.gc with nothing | ⟨data, notifies⟩
    · rw [nothing] at asks
      cases asks
    · rw [notifies] at asks
      cases asks
  obtain ⟨s, run, seen⟩ := Run.reached
    (show after arrivals (fun s => (s.activePublicationIndex.get item).map fun ap =>
        (ap.publishers.get 0, ap.isScope)) = .ok (some (some .startPublish, false)) by
      decide +kernel) MulticastsOwn own
  obtain ⟨ap, hf, states⟩ := map_eq_some_iff.mp seen
  obtain ⟨hs, hi⟩ := Prod.mk.inj states
  obtain ⟨own, some⟩ := known_ids_are_own run _ ap hf hi
  exact ⟨s, ap, run, hf, hs, hi, own, some ⟨0, _, hs, by decide⟩⟩

/-- A multicast under an item that has been started takes the identifiers of the item away. -/
theorem multicast_renames_item : ∃ s ap, Run (fun _ _ => True) s ∧
    s.activePublicationIndex.get (smallID [2, 3]) = some ap ∧
    ap.isScope = false ∧ ap.allKnownIDs = [smallID [2, 3, 4]] ∧ ap.fullID = smallID [2, 3] := by
  let item := smallID [2, 3]
  obtain ⟨s, run, seen⟩ := Run.reached
    (show after [requests .publishInfo 7 item, starts [item], multicasts 8 (smallID [2, 3, 4])]
      (fun s => (s.activePublicationIndex.get item).map fun ap => (ap.isScope, ap.allKnownIDs)) =
      .ok (some (false, [smallID [2, 3, 4]])) by decide +kernel)
  obtain ⟨ap, hf, states⟩ := map_eq_some_iff.mp seen
  obtain ⟨hi, hk⟩ := Prod.mk.inj states
  exact ⟨s, ap, run, hf, hi, hk, (run_sane run).named _ ap hf⟩

end Blackadder.Proxy
