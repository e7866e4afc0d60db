import Blackadder.Proxy.Subscriptions

namespace Blackadder.Proxy

open Program HashTable

section

/-- Nobody is connected as `id` afterwards, and none of the packets sent on the way is for
`id`. -/
structure Silent (id : Nat) (s s' : LocalProxy) : Prop where
  absent : id ∉ s'.localPubSubIndex
  out : ∃ sent, s'.out = s.out ++ sent ∧ ∀ packet ∈ sent, packet.addressee ≠ some id

variable {s s' s'' : LocalProxy} {id : Nat}

theorem Silent.trans (first : Silent id s s') (second : Silent id s' s'') : Silent id s s'' := by
  obtain ⟨sent, before, others⟩ := first.out
  obtain ⟨more, after, others'⟩ := second.out
  refine ⟨second.absent, sent ++ more, ?_, ?_⟩
  · rw [after, before, List.append_assoc]
  intro pkt hm
  rcases List.mem_append.mp hm with hi | hi
  · exact others pkt hi
  · exact others' pkt hi

theorem Silent.refl (absent : id ∉ s.localPubSubIndex) : Silent id s s :=
  ⟨absent, [], (List.append_nil _).symm, fun _ hm => nomatch hm⟩

variable [IterationOrder] {pol : Policy} {actor : Ptr}

theorem Step.registered (step : Step pol actor s s') {num : Nat} {p : Ptr}
    (after : s'.localPubSubIndex.get num = some p) :
    s.localPubSubIndex.get num = some p ∨ pol.connects num := by
  cases step with
  | quiet quiet =>
    have idx : s'.localPubSubIndex = s.localPubSubIndex :=
      congrArg Tables.localPubSubIndex quiet.tables
    exact .inl (idx ▸ after)
  | report _ tables =>
    have idx : s'.localPubSubIndex = s.localPubSubIndex := congrArg Tables.localPubSubIndex tables
    exact .inl (idx ▸ after)
  | connect type connects =>
    simp only [LocalProxy.connect, get_set] at after
    split at after
    · rename_i same
      exact .inr (same ▸ connects)
    · exact .inl after
  | publish | join | leave | handOver | start | learn | calm | subscribe | joinSubscription
  | addSubscriber | unsubscribe => exact .inl after
  | depart =>
    simp only [LocalProxy.depart, get_erase] at after
    split at after
    · cases after
    · exact .inl after

theorem Step.sent (step : Step pol actor s s') (sane : Sane s) : ∃ sent, s'.out = s.out ++ sent ∧
      ∀ pkt ∈ sent, ∀ id, pkt.addressee = some id → id ∈ s.localPubSubIndex := by
  cases step with
  | quiet quiet =>
    obtain ⟨sent, out, hh⟩ := quiet.out
    refine ⟨sent, out, fun pkt hm id hf => ?_⟩
    obtain ⟨p, hl⟩ := (hh pkt hm).2 id hf
    exact mem_of_get ((sane.hosts id p).mpr hl)
  | report _ _ out outwards =>
    refine ⟨_, out, fun pkt hm id hf => ?_⟩
    rw [List.mem_singleton.mp hm, outwards] at hf
    cases hf
  | connect | publish | join | leave | handOver | start | learn | calm | subscribe
  | joinSubscription | addSubscriber | unsubscribe | depart =>
    exact ⟨[], (List.append_nil _).symm, fun _ hm => nomatch hm⟩

theorem Step.silent (step : Step pol actor s s') (sane : Sane s) (hr : ¬ pol.connects id)
    (absent : id ∉ s.localPubSubIndex) : Silent id s s' := by
  obtain ⟨sent, out, counted⟩ := step.sent sane
  refine ⟨fun hi => ?_, sent, out, fun pkt hm hf => ?_⟩
  · obtain ⟨p, after⟩ := mem_iff_get.mp hi
    rcases step.registered after with before | hc
    · exact absent (mem_of_get before)
    · exact hr hc
  · exact absent (counted pkt hm id hf)

theorem push_silent [Allocator] {arrival : Arrival} (sane : Sane s)
    (absent : id ∉ s.localPubSubIndex) (other : arrival.port = 2 ∨ arrival.sender.2 ≠ id)
    (hr : push arrival s = .ok ((), s')) : Sane s' ∧ Silent id s s' := by
  have hp : (Policy.all (· ≠ id)).Permits (s.received arrival) (s.hostOf arrival.sender.2)
      (arrival.demand s.gc) := Policy.all_permits _
  have steps := wp_ok (push_spec sane (.inr rfl) other hp) hr
  refine ⟨steps.sane sane, ?_⟩
  refine steps.keeps (fun sane silent step => ?_) sane (Silent.refl absent)
  exact silent.trans (step.silent sane (fun hd => hd rfl) silent.absent)

/-- What can follow as long as no packet is from `id`. -/
inductive Without (id : Nat) (s : LocalProxy) : LocalProxy → Prop
  | refl : Without id s s
  | step {s₁ s₂ : LocalProxy} (order : IterationOrder) (addresses : Allocator)
      (arrival : Arrival) (before : Without id s s₁)
      (other : arrival.port = 2 ∨ arrival.sender.2 ≠ id)
      (returns : push arrival s₁ = .ok ((), s₂)) : Without id s s₂

omit [IterationOrder] in
theorem Without.silent (sane : Sane s) (absent : id ∉ s.localPubSubIndex)
    (without : Without id s s') : Sane s' ∧ Silent id s s' := by
  induction without with
  | refl => exact ⟨sane, .refl absent⟩
  | step _ _ _ _ other hr ih =>
    obtain ⟨sane2, silent2⟩ := push_silent ih.1 ih.2.absent other hr
    exact ⟨sane2, ih.2.trans silent2⟩

end

/-- The host is in no table, and nothing is sent to it until it connects again. -/
structure Traceless (p : Ptr) (id : Nat) (s : LocalProxy) : Prop where
  publishers : ∀ name ap, s.activePublicationIndex.get name = some ap → p ∉ ap.publishers
  nodes : ∀ nodeID an, s.activeNodeIndex.get nodeID = some an → p ∉ an.publishers
  subscribers : ∀ name as, s.activeSubscriptionIndex.get name = some as → p ∉ as.subscribers
  unregistered : ∀ number, s.localPubSubIndex.get number ≠ some p
  silent : ∀ s', Without id s s' →
    ∃ sent, s'.out = s.out ++ sent ∧ ∀ packet ∈ sent, packet.addressee ≠ some id

/-- The host publishes and subscribes to nothing but what the sweeps of `disconnect` take it out of,
it waits for no node, and what it lists is there. -/
structure LeavesCleanly (s : LocalProxy) (p : Ptr) : Prop where
  publishes : ∀ name, p ∈ (publications s).held name → name ∈ shedPublications s p
  subscribes : ∀ name, p ∈ (subscriptions s).held name → name ∈ shedSubscriptions s p
  nodes : ∀ nodeID an, s.activeNodeIndex.get nodeID = some an → p ∉ an.publishers
  there : ¬ Dangling s p

section

variable [IterationOrder] {s s' : LocalProxy} {p : Ptr} {host : LocalHost}

theorem disconnect_departs (sane : Sane s) (hf : s.heap.get p = some host) :
    wp (disconnect p) (fun _ s' => Departed (.all fun _ => False) p s s') (fun _ => Dangling s p)
      s :=
  disconnect_spec sane (mem_of_get hf) ⟨trivial, .inl trivial, .inl trivial, .inl trivial⟩

namespace Departed

theorem unregistered {pol : Policy} (hd : Departed pol p s s') (sane : Sane s) :
    ∀ num, s'.localPubSubIndex.get num ≠ some p := by
  intro num registered
  obtain ⟨other, hs, -⟩ := ((hd.steps.sane sane).hosts num p).mp registered
  exact hd.gone (mem_of_get hs)

theorem absent (hd : Departed (.all fun _ => False) p s s') (sane : Sane s)
    (hf : s.heap.get p = some host) : host.id ∉ s'.localPubSubIndex := by
  intro hi
  obtain ⟨q, registered⟩ := mem_iff_get.mp hi
  have kept : ∀ num q, s'.localPubSubIndex.get num = some q →
      s.localPubSubIndex.get num = some q := by
    intro num q
    have one : ∀ {s₁ s₂}, Sane s₁ → (s₁.localPubSubIndex.get num = some q →
        s.localPubSubIndex.get num = some q) → Step (.all fun _ => False) p s₁ s₂ →
        s₂.localPubSubIndex.get num = some q → s.localPubSubIndex.get num = some q :=
      fun _ kept step after => kept ((step.registered after).resolve_right id)
    exact hd.steps.keeps one sane id
  have own := (sane.hosts host.id p).mpr ⟨host, hf, rfl⟩
  have same : q = p := Option.some.inj ((kept host.id q registered).symm.trans own)
  exact hd.unregistered sane host.id (same ▸ registered)

end Departed

/-- A host that disconnects leaves no trace exactly when it leaves cleanly. -/
theorem disconnect_leaves_no_trace {allowed : LocalProxy → Arrival → Prop} (run : Run allowed s)
    (found : s.heap.get p = some host) :
    (∃ s', disconnect p s = .ok ((), s') ∧ Traceless p host.id s') ↔ LeavesCleanly s p := by
  have sane := run_sane run
  have departs := disconnect_departs sane found
  constructor
  · rintro ⟨s', hr, traceless⟩
    have hd := wp_ok departs hr
    constructor
    · intro name hh
      by_contra kept
      obtain ⟨ap, hs, hm⟩ := (hd.publishers p name).mpr ⟨hh, fun hg => kept hg.2⟩
      exact traceless.publishers name ap hs hm
    · intro name hh
      by_contra kept
      obtain ⟨as, hs, hm⟩ := (hd.subscribers p name).mpr ⟨hh, fun hg => kept hg.2⟩
      exact traceless.subscribers name as hs hm
    · rw [← hd.nodes]
      exact traceless.nodes
    · exact hd.there
  · intro cleanly
    obtain ⟨⟨⟩, s', hr, hd⟩ := wp_returns departs fun _ => cleanly.there
    refine ⟨s', hr, ?_, ?_, ?_, hd.unregistered sane, ?_⟩
    · intro name ap hs hm
      have hh := (hd.publishers p name).mp ⟨ap, hs, hm⟩
      exact hh.2 ⟨rfl, cleanly.publishes name hh.1⟩
    · rw [hd.nodes]
      exact cleanly.nodes
    · intro name as hs hm
      have hh := (hd.subscribers p name).mp ⟨as, hs, hm⟩
      exact hh.2 ⟨rfl, cleanly.subscribes name hh.1⟩
    · intro s'' without
      exact (without.silent (hd.steps.sane sane) (hd.absent sane found)).2.out

end

/-- An implicit subscription of another node to something. -/
def subscribesImplicitly (nodeID : NodeID) (id : ID) : Arrival :=
  { Wire.Buffer.ofBytes ([1, UInt8.ofNat id.length] ++ Wire.bytes id ++
      [MessageType.publishDataISub.code] ++ Wire.bytes nodeID) with
    port := 2, anno := 0 }

open Samples

/-- A publisher of an item leaves no trace. -/
theorem publisher_leaves_no_trace : ∃ (_ : IterationOrder) (s s' : LocalProxy),
    Run (fun _ _ => True) s ∧ smallID [2, 3] ∈ s.activePublicationIndex ∧
    disconnect 0 s = .ok ((), s') ∧ Traceless 0 7 s' := by
  let item := smallID [2, 3]
  obtain ⟨s, run, seen⟩ := Run.reached
    (show after [requests .publishInfo 7 item] (fun s => (s.heap.get 0).any fun host =>
        host.id = 7 ∧ item ∈ host.activePublications ∧ host.activeSubscriptions.keys = [] ∧
          s.activePublicationIndex.keys = [item] ∧ s.activeSubscriptionIndex.keys = [] ∧
          s.activeNodeIndex.keys = []) = .ok true by decide +kernel)
  obtain ⟨host, hf, hh⟩ := Option.any_eq_true _ _ |>.mp seen
  obtain ⟨isSeven, lists, subscribes, published, subscribed, nodes⟩ := of_decide_eq_true hh
  have cleanly : LeavesCleanly s 0 := by
    constructor
    · rintro name ⟨ap, hs, -⟩
      have hi := mem_keys.mpr (mem_of_get hs)
      rw [published] at hi
      obtain rfl := List.mem_singleton.mp hi
      exact ⟨⟨host, hf, lists⟩, fun he => List.cons_ne_nil _ _ he.1⟩
    · rintro name ⟨as, hs, -⟩
      have hi := mem_keys.mpr (mem_of_get hs)
      rw [subscribed] at hi
      cases hi
    · intro nodeID an hs
      have hi := mem_keys.mpr (mem_of_get hs)
      rw [nodes] at hi
      cases hi
    · rintro ⟨name, hl, -⟩
      have hi := mem_keys.mpr ((Registry.mem_listed hf).mp hl)
      rw [subscribes] at hi
      cases hi
  obtain ⟨s', disconnects, traceless⟩ := (disconnect_leaves_no_trace run hf).mpr cleanly
  rw [isSeven] at traceless
  refine ⟨insertionOrder, s, s', run, ?_, disconnects, traceless⟩
  rw [← mem_keys, published]
  exact List.mem_singleton_self item

/-- A subscriber that waits for a path is still listed as waiting after it has gone. -/
theorem waiting_subscriber_leaves_trace : ∃ (_ : IterationOrder) (s s' : LocalProxy)
    (an : ActiveNode), Run (fun _ _ => True) s ∧ 0 ∈ s.heap ∧ disconnect 0 s = .ok ((), s') ∧
    s'.activeNodeIndex.get (smallID [9]) = some an ∧ 0 ∈ an.publishers := by
  let item := smallID [2, 3]
  obtain ⟨s, run, both⟩ := Run.reached
    (show after [requests .subscribeInfo 7 item, subscribesImplicitly (smallID [9]) item]
      (fun s => (decide (0 ∈ s.heap), outcome (disconnect 0) (fun s =>
        (s.activeNodeIndex.get (smallID [9])).map fun an => decide (0 ∈ an.publishers)) s)) =
      .ok (true, .ok (some true)) by decide +kernel)
  obtain ⟨hl, leaves⟩ := Prod.mk.inj both
  obtain ⟨s', hr, seen⟩ := of_outcome leaves
  obtain ⟨an, hs, hm⟩ := Option.map_eq_some_iff.mp seen
  exact ⟨insertionOrder, s, s', an, run, of_decide_eq_true hl, hr, hs, of_decide_eq_true hm⟩

open ActivePublication Option
open Wire (Fid vectorAt)

/-- An item whose path goes over a link. -/
def ActivePublication.crosses (lid : Fid) (ap : ActivePublication) : Bool :=
  !ap.isScope && ap.fidToSubscribers.any (onPath lid)

def ActivePublication.invalidated (ap : ActivePublication) : ActivePublication :=
  { ap with
    fidToSubscribers := none
    publishers := ap.publishers.mapValues fun state =>
      if state = .startPublish then .rePublish else state }

/-- What the loop makes of a publication: a path of zeros counts as none. -/
def ActivePublication.revised (lid : Fid) (ap : ActivePublication) : ActivePublication :=
  if ap.crosses lid ∧ ap.fidToSubscribers.zero = false then ap.invalidated else ap

variable {lid : Fid} {s s1 : LocalProxy} {seen : List ID} {id : ID} {ap : ActivePublication}

/-- What the loop has done after some publications. -/
structure Revised (lid : Fid) (s : LocalProxy) (visited : List ID) (s' : LocalProxy) : Prop where
  nodes : s'.activeNodeIndex = s.activeNodeIndex
  out : s'.out = s.out
  publications : ∀ id, s'.activePublicationIndex.get id =
    (s.activePublicationIndex.get id).map fun ap => if id ∈ visited then ap.revised lid else ap

theorem Revised.next (revised : Revised lid s seen s1)
    (hf : s.activePublicationIndex.get id = some ap) (fresh : id ∉ seen) :
    wp (invalidate lid id) (fun _ => Revised lid s (seen ++ [id])) (fun _ => False) s1 := by
  have now : s1.activePublicationIndex.get id = some ap := by
    rw [revised.publications id, hf, map_some, if_neg fresh]
  have extend : ∀ table : HashTable ID ActivePublication, (∀ other, table.get other =
      if other = id then some (ap.revised lid) else s1.activePublicationIndex.get other) →
      Revised lid s (seen ++ [id]) { s1 with activePublicationIndex := table } := by
    refine fun table hl => ⟨revised.nodes, revised.out, fun other => ?_⟩
    rw [hl other, revised.publications other]
    by_cases cur : other = id
    · simp [cur, hf]
    · simp [cur]
  have skip : ap.revised lid = ap → Revised lid s (seen ++ [id]) s1 := by
    refine fun same => extend s1.activePublicationIndex fun other => ?_
    split
    · rename_i cur
      rw [cur, now, same]
    · rfl
  simp only [invalidate, publicationAt, wp_bind, wp_read, now, wp_expect_some]
  split
  · rename_i fid hi path
    have crosses : ap.crosses lid = onPath lid fid := by
      rw [crosses, hi, path]
      rfl
    rw [wp_ite]
    refine ⟨fun both => extend _ fun other => ?_,
      fun neither => skip (if_neg fun both => neither ?_)⟩
    · rw [get_modify]
      split
      · rename_i cur
        rw [cur, now, ActivePublication.revised, crosses, path, if_pos (by simpa using both.symm)]
        rfl
      · rfl
    · rw [crosses, path] at both
      simpa using both.symm
  · rename_i other
    refine skip (if_neg fun both => ?_)
    have item := both.1
    rw [crosses, Bool.and_eq_true, any_eq_true] at item
    obtain ⟨hi, fid, path, -⟩ := item
    exact other fid (by simpa using hi) path

variable [IterationOrder]

end Blackadder.Proxy
