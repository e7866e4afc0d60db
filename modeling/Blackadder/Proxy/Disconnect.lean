import Blackadder.Proxy.Sweeps

namespace Blackadder.Proxy

open Program HashTable Set Registry

/-- All publications that a host lists, but for a scope without any fragments. -/
def shedPublications (s : LocalProxy) (p : Ptr) : Set ID :=
  { id | id ∈ (publications s).listed p ∧ ¬ (id = [] ∧ isKind s true id = true) }

/-- The subscriptions that the sweeps take a host out of. -/
def shedSubscriptions (s : LocalProxy) (p : Ptr) : Set ID :=
  { id | id ∈ (subscriptions s).listed p ∧ ¬ (id = [] ∧ isSubscriptionKind s true id = true) }

/-- A host is taken out of the items first, and then of the scopes, longest identifiers first. -/
structure Itinerary (s : LocalProxy) (p : Ptr) (items scopes : List ID) : Prop where
  items_nodup : items.Nodup
  items_listed : ∀ id, isKind s false id = true → (id ∈ items ↔ id ∈ (publications s).listed p)
  scopes_above : Above 0 scopes
  scopes_listed : ∀ id, isKind s true id = true →
    (id ∈ scopes ↔ id ∈ (publications s).listed p ∧ id ≠ [])

/-- What the rendezvous is told on the way. -/
def Itinerary.told (s : LocalProxy) (p : Ptr) (items scopes : List ID) : List Report :=
  items.filterMap (withdrawal s p false) ++ scopes.filterMap (withdrawal s p true)

/-- What the four sweeps of `disconnect` do. -/
structure Withdraws [IterationOrder] (pol : Policy) (p : Ptr) (s s' : LocalProxy) : Prop where
  steps : Steps pol p s s'
  sheds : ∃ items scopes, Itinerary s p items scopes ∧
    Sheds p (shedPublications s p) (shedSubscriptions s p) (Itinerary.told s p items scopes) s s'
  there : ¬ Dangling s p

variable {s : LocalProxy} {id : ID}

theorem isKind_or_isKind (ht : id ∈ s.activePublicationIndex) :
    isKind s false id = true ∨ isKind s true id = true := by
  obtain ⟨ap, hf⟩ := mem_iff_get.mp ht
  simp only [isKind, hf]
  cases ap.isScope <;> simp

theorem not_isKind (item : isKind s false id = true) : isKind s true id = false := by
  unfold isKind at item ⊢
  cases hf : s.activePublicationIndex.get id with
  | none => rfl
  | some ap =>
    rw [hf] at item
    cases kind : ap.isScope with
    | false => simp [kind]
    | true => simp [kind] at item

theorem not_isSubscriptionKind (item : isSubscriptionKind s false id = true) :
    isSubscriptionKind s true id = false := by
  unfold isSubscriptionKind at item ⊢
  cases hf : s.activeSubscriptionIndex.get id with
  | none => rfl
  | some as =>
    rw [hf] at item
    cases kind : as.isScope with
    | false => simp [kind]
    | true => simp [kind] at item

theorem isSubscriptionKind_or (ht : id ∈ s.activeSubscriptionIndex) :
    isSubscriptionKind s false id = true ∨ isSubscriptionKind s true id = true := by
  obtain ⟨as, hf⟩ := mem_iff_get.mp ht
  simp only [isSubscriptionKind, hf]
  cases as.isScope <;> simp

variable {s s1 : LocalProxy} {p : Ptr} {id : ID}
variable {pubs subs : Set ID} {told : List Report} {scopes : List ID}

theorem Sheds.withdrawal_eq (sheds : Sheds p pubs subs told s s1) (kept : id ∉ pubs)
    (isScope : Bool) : isKind s1 isScope id = isKind s isScope id ∧
      withdrawal s1 p isScope id = withdrawal s p isScope id := by
  have hs := sheds.publication id kept
  have kind : isKind s1 isScope id = isKind s isScope id := by simp only [isKind, hs]
  have last : lastPublisher s1 p id = lastPublisher s p id := by simp only [lastPublisher, hs]
  refine ⟨kind, ?_⟩
  rw [withdrawal, kind, last, withdrawal]

theorem Sheds.subscriptionKind_eq (sheds : Sheds p pubs subs told s s1) (kept : id ∉ subs)
    (isScope : Bool) : isSubscriptionKind s1 isScope id = isSubscriptionKind s isScope id := by
  simp only [isSubscriptionKind, sheds.subscription id kept]

theorem Sheds.subscriptions_eq (sheds : Sheds p pubs ∅ told s s1) :
    Proxy.subscriptions s1 = Proxy.subscriptions s := by
  rw [sheds.subscriptions, withdraw_empty]

theorem Sheds.shedSubscriptions_eq (sheds : Sheds p pubs ∅ told s s1) :
    shedSubscriptions s1 p = shedSubscriptions s p := by
  ext id
  simp [shedSubscriptions, sheds.subscriptions_eq, sheds.subscriptionKind_eq (notMem_empty id)]

/-- What is missing after a part of the sweeps was missing before. -/
theorem Sheds.dangling (sheds : Sheds p pubs subs told s s1) (dangling : Dangling s1 p) :
    Dangling s p := by
  obtain ⟨id, hl, ha⟩ := dangling
  rw [sheds.subscriptions] at hl
  have kept : id ∉ subs := fun hg => hl.1 ⟨rfl, hg⟩
  refine ⟨id, hl.2, ?_⟩
  rw [← get_eq_none] at ha ⊢
  rw [← ha, sheds.subscription id kept]

/-- The two sweeps over the publications, with only subscriptions given up in between. -/
theorem Itinerary.ofSweeps {items : List ID} {s2 : LocalProxy} (sane : Sane s) (nodup : items.Nodup)
    (ha : Above 0 scopes) (items_listed : ∀ id, id ∈ items ↔ id ∈ (publications s).listed p)
    (scopes_listed : ∀ id ∈ scopes, id ∈ (publications s2).listed p)
    (hc : ∀ id ∈ (publications s2).listed p, isKind s2 true id = true → id ≠ [] → id ∈ scopes)
    (between : Sheds p { id | id ∈ items ∧ isKind s false id = true } subs (items.filterMap
      (withdrawal s p false)) s s2) : Itinerary s p items scopes ∧
      { id | id ∈ items ∧ isKind s false id = true } ∪
        { id | id ∈ scopes ∧ isKind s2 true id = true } = shedPublications s p ∧
      items.filterMap (withdrawal s p false) ++ scopes.filterMap (withdrawal s2 p true) =
        Itinerary.told s p items scopes := by
  have hl2 : ∀ id, id ∈ (publications s2).listed p ↔
      ¬ (id ∈ items ∧ isKind s false id = true) ∧ id ∈ (publications s).listed p := by
    rw [between.publications]
    simp [withdraw]
  have kept : ∀ id ∈ scopes, ¬ (id ∈ items ∧ isKind s false id = true) :=
    fun id hi => ((hl2 id).mp (scopes_listed id hi)).1
  have scope : ∀ id, isKind s true id = true → ¬ (id ∈ items ∧ isKind s false id = true) := by
    rintro id isScope ⟨-, item⟩
    rw [not_isKind item] at isScope
    cases isScope
  have scopes_iff : ∀ id, isKind s true id = true →
      (id ∈ scopes ↔ id ∈ (publications s).listed p ∧ id ≠ []) := by
    intro id isScope
    constructor
    · intro hi
      have longer := ha.above id hi
      exact ⟨((hl2 id).mp (scopes_listed id hi)).2, List.length_pos_iff.mp longer⟩
    · rintro ⟨hl, hn⟩
      refine hc id ((hl2 id).mpr ⟨scope id isScope, hl⟩) ?_ hn
      rw [(between.withdrawal_eq (scope id isScope) true).1]
      exact isScope
  refine ⟨⟨nodup, fun id _ => items_listed id, ha, scopes_iff⟩, ?_, ?_⟩
  · ext id
    simp only [items_listed]
    constructor
    · rintro (⟨hl, item⟩ | ⟨hi, -⟩)
      · refine ⟨hl, fun he => ?_⟩
        rw [not_isKind item] at he
        cases he.2
      · have longer := ha.above id hi
        exact ⟨((hl2 id).mp (scopes_listed id hi)).2, fun he =>
          List.length_pos_iff.mp longer he.1⟩
    · rintro ⟨hl, shed⟩
      obtain ⟨ap, hf, -⟩ := sane.listed p id hl
      rcases isKind_or_isKind (mem_of_get hf) with item | isScope
      · exact Or.inl ⟨hl, item⟩
      have hi := (scopes_iff id isScope).mpr ⟨hl, fun he => shed ⟨he, isScope⟩⟩
      refine Or.inr ⟨hi, ?_⟩
      rw [(between.withdrawal_eq (scope id isScope) true).1]
      exact isScope
  · refine congrArg _ (List.filterMap_congr fun id hi => ?_)
    exact (between.withdrawal_eq (kept id hi) true).2

/-- The two sweeps over the subscriptions, with only publications given up in between. -/
theorem shedSubscriptions_ofSweeps {visits : List ID} {s3 : LocalProxy}
    (hl : ∀ id, id ∈ visits ↔ id ∈ (subscriptions s).listed p)
    (ht : ∀ id ∈ visits, id ∈ s.activeSubscriptionIndex)
    (scopes_listed : ∀ id ∈ scopes, id ∈ (subscriptions s3).listed p ∧ id ≠ [])
    (hc : ∀ id ∈ (subscriptions s3).listed p, isSubscriptionKind s3 true id = true → id ≠ [] →
      id ∈ scopes)
    (between : Sheds p pubs { id | id ∈ visits ∧ isSubscriptionKind s false id = true } told s s3) :
    { id | id ∈ visits ∧ isSubscriptionKind s false id = true } ∪
      { id | id ∈ scopes ∧ isSubscriptionKind s3 true id = true } = shedSubscriptions s p := by
  have hl3 : ∀ id, id ∈ (subscriptions s3).listed p ↔
      ¬ (id ∈ visits ∧ isSubscriptionKind s false id = true) ∧ id ∈ (subscriptions s).listed p := by
    rw [between.subscriptions]
    simp [withdraw]
  ext id
  constructor
  · rintro (⟨hi, item⟩ | ⟨hi, -⟩)
    · refine ⟨(hl id).mp hi, fun he => ?_⟩
      rw [not_isSubscriptionKind item] at he
      cases he.2
    · obtain ⟨linked, hn⟩ := scopes_listed id hi
      exact ⟨((hl3 id).mp linked).2, fun he => hn he.1⟩
  · rintro ⟨linked, shed⟩
    have hi := (hl id).mpr linked
    by_cases item : isSubscriptionKind s false id = true
    · exact Or.inl ⟨hi, item⟩
    have isScope := (isSubscriptionKind_or (ht id hi)).resolve_left item
    have kept : ¬ (id ∈ visits ∧ isSubscriptionKind s false id = true) := fun hg => item hg.2
    have isScope3 : isSubscriptionKind s3 true id = true := by
      rw [between.subscriptionKind_eq kept]
      exact isScope
    refine Or.inr ⟨hc id ((hl3 id).mpr ⟨kept, linked⟩) isScope3 ?_, isScope3⟩
    exact fun he => shed ⟨he, isScope⟩

variable [IterationOrder] {pol : Policy}

theorem disconnect_sweeps (sane : Sane s) (hr : pol.registers) (live : p ∈ s.heap)
    (ho : pol.crowds ∨ ∀ id ∈ (publications s).listed p, Orderly s p id) : wp (do
      deleteAllActiveInformationItemPublications p
      deleteAllActiveInformationItemSubscriptions p
      deleteAllActiveScopePublications p
      deleteAllActiveScopeSubscriptions p)
      (fun _ => Withdraws pol p s) (fun _ => Dangling s p) s := by
  simp only [wp_bind]
  refine wp_mono (deleteAllActiveInformationItemPublications_spec sane hr live ho) ?_
    fun _ => False.elim
  rintro _ s1 ⟨items, nodup, items_listed, first⟩
  have sane1 := first.steps.sane sane
  have live1 := first.sheds.live.mpr live
  refine wp_mono (deleteAllActiveInformationItemSubscriptions_spec pol sane1 live1) ?_
    fun _ => first.sheds.dangling
  rintro _ s2 ⟨subs, subs_listed, second⟩
  have sane2 := second.steps.sane sane1
  have live2 := second.sheds.live.mpr live1
  refine wp_mono (deleteAllActiveScopePublications_spec sane2 hr live2) ?_ fun _ => False.elim
  rintro _ s3 ⟨scopes, absent, scopes_listed, hc, third⟩
  have sane3 := third.steps.sane sane2
  have live3 := third.sheds.live.mpr live2
  have three := (first.sheds.trans second.sheds).trans third.sheds
  refine wp_mono (deleteAllActiveScopeSubscriptions_spec pol sane3 live3) ?_ fun _ => three.dangling
  rintro _ s' ⟨scopeSubs, scopeSubs_listed, scopeSubs_complete, fourth⟩
  have between : Sheds p { id | id ∈ items ∧ isKind s false id = true } _
      (items.filterMap (withdrawal s p false)) s s2 :=
    (first.sheds.trans second.sheds).congr (union_empty _) rfl (List.append_nil _)
  obtain ⟨itinerary, samePubs, sameTold⟩ :=
    Itinerary.ofSweeps sane nodup absent items_listed scopes_listed hc between
  have between' := (second.sheds.trans third.sheds).congr rfl (union_empty _) rfl
  have sameSubs := shedSubscriptions_ofSweeps subs_listed second.there scopeSubs_listed
    scopeSubs_complete between'
  refine ⟨?_, ⟨items, scopes, itinerary, (three.trans fourth.sheds).congr ?_ ?_ ?_⟩, ?_⟩
  · exact ((first.steps.trans second.steps).trans third.steps).trans fourth.steps
  · rw [union_empty, union_empty, samePubs]
  · rw [empty_union, union_empty, sameSubs, first.sheds.shedSubscriptions_eq]
  · rw [List.append_nil, List.append_nil, sameTold]
  · rintro ⟨id, hl, ha⟩
    rw [← first.sheds.subscriptions_eq] at hl
    have ht := second.there id ((subs_listed id).mpr hl)
    rw [mem_iff_get, first.sheds.subscription id (notMem_empty id)] at ht
    exact ha (mem_iff_get.mpr ht)

/-- The host has left, and the rendezvous has been told what has become of its publications. -/
structure Departed (pol : Policy) (p : Ptr) (s s' : LocalProxy) : Prop where
  steps : Steps pol p s s'
  there : ¬ Dangling s p
  gone : p ∉ s'.heap
  names : ∀ id, id ∈ s'.activePublicationIndex ↔
    id ∈ s.activePublicationIndex ∧ ¬ (id ∈ shedPublications s p ∧ lastPublisher s p id = true)
  publishers : ∀ q id, q ∈ (publications s').held id ↔
    q ∈ (publications s).held id ∧ ¬ (q = p ∧ id ∈ shedPublications s p)
  subscribers : ∀ q id, q ∈ (subscriptions s').held id ↔
    q ∈ (subscriptions s).held id ∧ ¬ (q = p ∧ id ∈ shedSubscriptions s p)
  nodes : s'.activeNodeIndex = s.activeNodeIndex
  reports : ∃ items scopes, Itinerary s p items scopes ∧
    reports s' = reports s ++ Itinerary.told s p items scopes

structure Policy.PermitsLeave (pol : Policy) (s : LocalProxy) (p : Ptr) : Prop where
  registers : pol.registers
  orderly : pol.crowds ∨ ∀ id ∈ (publications s).listed p, Orderly s p id
  publishes : pol.ghostPublishers ∨
    ¬ ([] ∈ (publications s).listed p ∧ isKind s true [] = true)
  subscribes : pol.ghostSubscribers ∨
    ¬ ([] ∈ (subscriptions s).listed p ∧ isSubscriptionKind s true [] = true)

/-- A host leaves with all it lists, unless a subscription it lists is not there. -/
theorem disconnect_spec (sane : Sane s) (live : p ∈ s.heap) (hp : pol.PermitsLeave s p) :
    wp (disconnect p) (fun _ => Departed pol p s) (fun _ => Dangling s p) s := by
  have parts : disconnect p = (do
      deleteAllActiveInformationItemPublications p
      deleteAllActiveInformationItemSubscriptions p
      deleteAllActiveScopePublications p
      deleteAllActiveScopeSubscriptions p) >>= fun _ => forgetHost p := by
    simp [disconnect]
  rw [parts]
  refine wp_seq (disconnect_sweeps sane hp.registers live hp.orderly) ?_
  rintro _ s1 ⟨steps, ⟨items, scopes, itinerary, sheds⟩, ht⟩
  obtain ⟨host, hf⟩ := mem_iff_get.mp (sheds.live.mpr live)
  -- what is left on the lists is the scope without fragments
  have leftover : ∀ id ∈ (publications s1).listed p, id ∈ (publications s).listed p ∧
      id = [] ∧ isKind s true id = true := by
    intro id hl
    rw [sheds.publications] at hl
    refine ⟨hl.2, ?_⟩
    by_contra other
    exact hl.1 ⟨rfl, hl.2, other⟩
  have leftover' : ∀ id ∈ (subscriptions s1).listed p, id ∈ (subscriptions s).listed p ∧
      id = [] ∧ isSubscriptionKind s true id = true := by
    intro id hl
    rw [sheds.subscriptions] at hl
    refine ⟨hl.2, ?_⟩
    by_contra other
    exact hl.1 ⟨rfl, hl.2, other⟩
  have departs : Step pol p s1 (s1.depart p host.id) := by
    refine .depart hp.registers hf (fun id hl => ?_) (hp.publishes.imp_right fun none id hl => ?_)
      (hp.subscribes.imp_right fun none id hl => ?_)
    · obtain ⟨-, rfl, isScope⟩ := leftover id hl
      have kept : [] ∉ shedPublications s p := fun shed => shed.2 ⟨rfl, isScope⟩
      rw [← (sheds.withdrawal_eq kept true).1] at isScope
      simpa [isKind, HashTable.Has, Option.any_eq_true] using isScope
    · obtain ⟨linked, rfl, isScope⟩ := leftover id hl
      exact none ⟨linked, isScope⟩
    · obtain ⟨linked, rfl, isScope⟩ := leftover' id hl
      exact none ⟨linked, isScope⟩
  simp only [forgetHost, wp_bind, wp_deref hf]
  refine ⟨steps.tail departs, ht, ?_, sheds.names, ?_, ?_, sheds.nodes, items, scopes, itinerary,
    sheds.reports⟩
  · exact fun hi => (mem_erase.mp hi).1 rfl
  · intro q id
    change q ∈ (publications s1).held id ↔ _
    rw [sheds.publications]
    exact and_comm
  · intro q id
    change q ∈ (subscriptions s1).held id ↔ _
    rw [sheds.subscriptions]
    exact and_comm

end Blackadder.Proxy
