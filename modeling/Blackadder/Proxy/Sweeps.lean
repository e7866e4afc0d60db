import Mathlib.Data.Set.Insert
import Blackadder.Proxy.Requests

namespace Blackadder.Proxy

open Program HashTable Registry

variable (s : LocalProxy)

/-- What the rendezvous has been told about publications so far. -/
def reports : List Report := s.out.filterMap Out.report

/-- A host gives up some publications and subscriptions, and nothing else changes for the hosts. -/
structure Sheds (p : Ptr) (pubs subs : Set ID) (told : List Report) (s s' : LocalProxy) :
    Prop where
  publications : publications s' = (publications s).withdraw p pubs
  subscriptions : subscriptions s' = (subscriptions s).withdraw p subs
  publication : ∀ id ∉ pubs, s'.activePublicationIndex.get id = s.activePublicationIndex.get id
  subscription : ∀ id ∉ subs,
    s'.activeSubscriptionIndex.get id = s.activeSubscriptionIndex.get id
  names : ∀ id, id ∈ s'.activePublicationIndex ↔
    id ∈ s.activePublicationIndex ∧ ¬ (id ∈ pubs ∧ lastPublisher s p id = true)
  live : p ∈ s'.heap ↔ p ∈ s.heap
  nodes : s'.activeNodeIndex = s.activeNodeIndex
  reports : reports s' = reports s ++ told

namespace Sheds

variable {p : Ptr} {pubs subs pubs' subs' : Set ID} {told told' : List Report}
  {s s' s'' : LocalProxy} {id : ID}

theorem refl (p : Ptr) (s : LocalProxy) : Sheds p ∅ ∅ [] s s where
  publications := withdraw_empty.symm
  subscriptions := withdraw_empty.symm
  publication _ _ := rfl
  subscription _ _ := rfl
  names _ := by simp
  live := Iff.rfl
  nodes := rfl
  reports := (List.append_nil _).symm

theorem trans (first : Sheds p pubs subs told s s') (second : Sheds p pubs' subs' told' s' s'') :
    Sheds p (pubs ∪ pubs') (subs ∪ subs') (told ++ told') s s'' where
  publications := by
    rw [second.publications, first.publications, withdraw_withdraw]
  subscriptions := by
    rw [second.subscriptions, first.subscriptions, withdraw_withdraw]
  publication id kept := by
    rw [second.publication id fun hg => kept (Or.inr hg),
      first.publication id fun hg => kept (Or.inl hg)]
  subscription id kept := by
    rw [second.subscription id fun hg => kept (Or.inr hg),
      first.subscription id fun hg => kept (Or.inl hg)]
  names id := by
    have last : lastPublisher s' p id = true ↔ lastPublisher s p id = true := by
      rw [lastPublisher_iff, lastPublisher_iff, first.publications]
      constructor
      · intro only q hh
        by_contra hd
        exact hd (only q ⟨fun hs => hd hs.1, hh⟩)
      · exact fun only q hh => only q hh.2
    rw [second.names, first.names, Set.mem_union]
    tauto
  live := second.live.trans first.live
  nodes := second.nodes.trans first.nodes
  reports := by rw [second.reports, first.reports, List.append_assoc]

theorem congr (sheds : Sheds p pubs subs told s s') (samePubs : pubs = pubs')
    (sameSubs : subs = subs') (sameTold : told = told') : Sheds p pubs' subs' told' s s' := by
  subst samePubs sameSubs sameTold
  exact sheds

theorem andTells (first : Sheds p pubs subs told s s') (second : Sheds p ∅ ∅ told' s' s'') :
    Sheds p pubs subs (told ++ told') s s'' :=
  (first.trans second).congr (Set.union_empty _) (Set.union_empty _) rfl

theorem ofTables (tables : s'.tables = s.tables) (nodes : s'.activeNodeIndex = s.activeNodeIndex)
    (told : Proxy.reports s' = Proxy.reports s ++ told') : Sheds p ∅ ∅ told' s s' := by
  have pubs := publications_tables tables
  have subs := subscriptions_tables tables
  simp only [LocalProxy.tables, Tables.mk.injEq] at tables
  obtain ⟨heap, -, publications, subscriptions⟩ := tables
  constructor
  · rw [pubs, withdraw_empty]
  · rw [subs, withdraw_empty]
  · exact fun id _ => by rw [publications]
  · exact fun id _ => by rw [subscriptions]
  · exact fun id => by simp [publications]
  · rw [heap]
  · exact nodes
  · exact told

theorem leave : Sheds p {id} ∅ [] s (s.leavePublication p id) where
  publications := publications_leave
  subscriptions := by rw [subscriptions_leavePublication, withdraw_empty]
  publication other hd := by
    simp only [LocalProxy.leavePublication, get_modifyOrErase]
    exact if_neg hd
  subscription _ _ := rfl
  names other := by
    simp only [LocalProxy.leavePublication, mem_iff_get, get_modifyOrErase]
    by_cases hs : other = id
    · subst hs
      cases hf : s.activePublicationIndex.get other with
      | none => simp
      | some ap => simp [lastPublisher, hf]
    · simp [hs]
  live := mem_modify
  nodes := rfl
  reports := (List.append_nil _).symm

theorem revise {change : ActivePublication → ActivePublication} (revision : Revision change) :
    Sheds p {id} ∅ [] s s' → Sheds p {id} ∅ [] s (s'.revise id change) := by
  intro sheds
  constructor
  · rw [← sheds.publications]
    exact publications_revise revision.keys
  · exact sheds.subscriptions
  · intro other hd
    rw [← sheds.publication other hd]
    simp only [LocalProxy.revise, get_modify]
    exact if_neg hd
  · exact sheds.subscription
  · intro other
    rw [← sheds.names]
    exact mem_modify
  · exact sheds.live
  · exact sheds.nodes
  · exact sheds.reports

theorem unsubscribe : Sheds p ∅ {id} [] s (s.leaveSubscription p id) where
  publications := by rw [publications_leaveSubscription, withdraw_empty]
  subscriptions := subscriptions_leave
  publication _ _ := rfl
  subscription other hd := by
    simp only [LocalProxy.leaveSubscription, get_modifyOrErase]
    exact if_neg hd
  names other := by simp [LocalProxy.leaveSubscription]
  live := mem_modify
  nodes := rfl
  reports := (List.append_nil _).symm

end Sheds

theorem fatherID_append_lastFragment (id : ID) : fatherID id ++ lastFragment id = id := by
  rw [fatherID, List.dropLast_eq_take]
  exact List.take_append_drop _ _

section

variable {s : LocalProxy} {p : Ptr} {id : ID} {host : LocalHost} {type : MessageType}

def LocalProxy.notified (s : LocalProxy) (host : LocalHost) (type : MessageType) (id : ID) :
    LocalProxy :=
  { s with out := s.out ++ [.event host.type host.id type id []] }

variable {post : Unit → LocalProxy → Prop} {fault : Fault → Prop} {rvFid : BABitvector}
  {strategy : Strategy}

theorem wp_sendNotificationLocally (hf : s.heap.get p = some host) :
    wp (sendNotificationLocally type p id) post fault s ↔ post () (s.notified host type id) := by
  simp only [sendNotificationLocally, wp_bind, wp_deref hf]
  rfl

theorem notified_quiet (hf : s.heap.get p = some host) : Quiet s (s.notified host type id) := by
  refine ⟨rfl, [_], rfl, ?_⟩
  intro pkt hm
  rw [List.mem_singleton.mp hm]
  exact ⟨rfl, fun num found => ⟨p, host, hf, Option.some.inj found⟩⟩

theorem notified_sheds : Sheds p ∅ ∅ [] s (s.notified host type id) := by
  refine .ofTables rfl rfl ?_
  simp [LocalProxy.notified, reports, Out.report]

def LocalProxy.withdrawn (s : LocalProxy) (type : MessageType) (id : ID) (rvFid : BABitvector)
    (strategy : Strategy) : LocalProxy :=
  { s with
    out := s.out ++ [.withdrawal (if rvFid.zero ∨ s.gc.isRV then none else some rvFid) type 1
      (lastFragment id) (UInt8.ofNat id.length - 1) (fatherID id) strategy] }

theorem withdrawn_sheds {told : Option Report} (report : Report.ofType type.code id = told) :
    Sheds p ∅ ∅ told.toList s (s.withdrawn type id rvFid strategy) := by
  refine .ofTables rfl rfl ?_
  have hs : Out.report (.withdrawal (if rvFid.zero ∨ s.gc.isRV then none else some rvFid) type
      1 (lastFragment id) (UInt8.ofNat id.length - 1) (fatherID id) strategy) = told := by
    rw [Out.report, fatherID_append_lastFragment, report]
  simp only [LocalProxy.withdrawn, reports, List.filterMap_append]
  rw [List.filterMap_cons, hs]
  cases told <;> rfl

end

open List Sheds Nat

/-- Whether the publication stored under the identifier is a scope, or an item. -/
def isKind (isScope : Bool) (id : ID) : Bool :=
  (s.activePublicationIndex.get id).any (·.isScope == isScope)

/-- What the rendezvous is told when a publisher leaves a publication. -/
def withdrawal (p : Ptr) (isScope : Bool) (id : ID) : Option Report :=
  if isKind s isScope id && lastPublisher s p id then some (.withdrawn isScope id) else none

/-- Of the publishers that are left, only the one that comes first may have been started. -/
def Orderly (p : Ptr) (id : ID) : Prop :=
  ∀ ap, s.activePublicationIndex.get id = some ap → ap.isScope = false →
    ap.publishers.get p ≠ some .stopPublish →
    ∀ next, (ap.publishers.erase p).first? = some next → Alone (ap.publishers.erase p) next

section

variable {fault : Fault → Prop}

/-- Longest identifiers first. -/
def Descending (visits : List ID) : Prop :=
  visits.Pairwise fun earlier later => later.length ≤ earlier.length

variable {ids : List ID} {level : Nat} {visit : ID → LP Unit}
variable {isScope : ID → LP Bool} {s : LocalProxy}

theorem maxLevel_spec (kind : ID → Bool)
    (reads : ∀ id ∈ ids, wp (isScope id) (fun scope s' => scope = kind id ∧ s' = s) fault s) :
    wp (maxLevel isScope ids) (fun level s' => s' = s ∧
      ∀ id ∈ ids, kind id = true → id.length ≤ level) fault s := by
  refine wp_post (wp_foldlM_visited ids _ (fun visited level s' => s' = s ∧
    ∀ id ∈ visited, kind id = true → id.length ≤ level) ?_ 0 s
    ⟨rfl, fun _ hm => absurd hm not_mem_nil⟩) fun _ _ done => done
  rintro visited id rest level s1 split ⟨rfl, hb⟩
  refine wp_seq (reads id (by simp [split])) ?_
  rintro scope s' ⟨rfl, rfl⟩
  refine ⟨rfl, fun other hm isScope => ?_⟩
  rcases mem_append.mp hm with before | last
  · have old := hb other before isScope
    split <;> omega
  obtain rfl := mem_singleton.mp last
  split
  · exact le_refl _
  · rename_i low
    simpa [isScope] using low

/-- The identifiers of one level. -/
def atLevel (level : Nat) (ids : List ID) : List ID := ids.filter fun id => id.length = level

theorem mem_atLevel {id : ID} : id ∈ atLevel level ids ↔ id ∈ ids ∧ id.length = level := by
  simp [atLevel]

theorem atLevel_concat (level : Nat) (ids : List ID) (id : ID) : atLevel level (ids ++ [id]) =
      if id.length = level then atLevel level ids ++ [id] else atLevel level ids := by
  by_cases here : id.length = level <;> simp [atLevel, here]

/-- A sweep has come down to a level. -/
structure Above (level : Nat) (visited : List ID) : Prop where
  above : ∀ id ∈ visited, level < id.length
  nodup : visited.Nodup
  descending : Descending visited

theorem Above.next {level : Nat} {visited ids : List ID} (sofar : Above (level + 1) visited)
    (hu : ids.Nodup) : Above level (visited ++ atLevel (level + 1) ids) := by
  have hl : ∀ id ∈ visited, ∀ later ∈ atLevel (level + 1) ids, later.length < id.length := by
    intro id before later hi
    have longer := sofar.above id before
    have same := (mem_atLevel.mp hi).2
    omega
  constructor
  · intro id hi
    rcases mem_append.mp hi with before | now
    · exact lt_of_succ_lt (sofar.above id before)
    · have same := (mem_atLevel.mp now).2
      omega
  · refine nodup_append.mpr ⟨sofar.nodup, hu.filter _, ?_⟩
    rintro id before other now rfl
    exact lt_irrefl _ (hl id before id now)
  · refine pairwise_append.mpr ⟨sofar.descending, ?_, fun id before later now =>
      le_of_lt (hl id before later now)⟩
    refine pairwise_of_forall_mem_list fun id hi later hi' => ?_
    have same := (mem_atLevel.mp hi).2
    have same' := (mem_atLevel.mp hi').2
    omega

/-- One level: the identifiers of the level are visited in turn. -/
theorem wp_level {inv : List ID → LocalProxy → Prop} {visited : List ID} (hu : ids.Nodup)
    (sofar : Above level visited)
    (visits : ∀ visited, ∀ id ∈ ids, ∀ s, inv visited s → id ∉ visited → wp (visit id) (fun _ => inv
      (visited ++ [id])) fault s) (s : LocalProxy) (start : inv visited s) :
    wp (forM ids fun id => if id.length = level then visit id else pure ())
      (fun _ => inv (visited ++ atLevel level ids)) fault s := by
  refine wp_forM_visited ids _ (fun seen => inv (visited ++ atLevel level seen)) ?_ s ?_
  · intro seen id rest s1 split hh
    rw [split] at hu
    have unseen : id ∉ seen := fun hi =>
      (nodup_append.mp hu).2.2 id hi id mem_cons_self rfl
    simp only [atLevel_concat, wp_ite]
    refine ⟨fun here => ?_, fun here => ?_⟩
    · have new : id ∉ visited ++ atLevel level seen := by
        simp only [mem_append, mem_atLevel, not_or]
        refine ⟨fun before => ?_, fun hi => unseen hi.1⟩
        have longer := sofar.above id before
        omega
      rw [if_pos here, ← append_assoc]
      exact visits _ id (by simp [split]) s1 hh new
    · rw [if_neg here]
      exact hh
  · simpa [atLevel] using start

/-- The rule for the loop over the levels, with an invariant indexed by what has been visited. -/
theorem wp_sweepLevels {listed : LP (List ID)} (all : Set ID) (inv : List ID → LocalProxy → Prop)
    (lists : ∀ visited s, inv visited s → wp listed (fun ids s' => s' = s ∧ ids.Nodup ∧ (∀ id ∈ ids,
      id ∈ all) ∧ ∀ id ∈ all, id ∉ visited → id ∈ ids) fault s)
    (visits : ∀ visited, ∀ id ∈ all, ∀ s, inv visited s → id ∉ visited → wp (visit id) (fun _ => inv
      (visited ++ [id])) fault s) (level : Nat) (visited : List ID) (s : LocalProxy)
    (start : inv visited s) (sofar : Above level visited) :
    wp (sweepLevels listed visit level) (fun _ s' => ∃ more, inv (visited ++ more) s' ∧
      Above 0 (visited ++ more) ∧
      ∀ id, id ∈ more ↔ id ∈ all ∧ 0 < id.length ∧ id.length ≤ level) fault s := by
  induction level generalizing visited s with
  | zero =>
    refine ⟨[], by rwa [append_nil], by rwa [append_nil], fun id => ?_⟩
    simp only [not_mem_nil, false_iff]
    omega
  | succ level ih =>
    simp only [sweepLevels, wp_bind]
    refine wp_post (lists visited s start) ?_
    rintro ids s1 ⟨rfl, hu, inside, hc⟩
    refine wp_post (wp_level hu sofar (fun seen id hi => visits seen id (inside id hi))
      s1 start) fun _ s2 hh => ?_
    refine wp_post (ih (visited ++ atLevel (level + 1) ids) s2 hh (sofar.next hu)) ?_
    rintro _ s' ⟨more, hh', sofar', exact'⟩
    rw [append_assoc] at hh' sofar'
    refine ⟨atLevel (level + 1) ids ++ more, hh', sofar', fun id => ?_⟩
    rw [mem_append, mem_atLevel, exact']
    constructor
    · rintro (⟨hi, same⟩ | ⟨hi, hp, hs⟩)
      · exact ⟨inside id hi, by omega, by omega⟩
      · exact ⟨hi, hp, by omega⟩
    · rintro ⟨hi, hp, hs⟩
      by_cases same : id.length = level + 1
      · refine Or.inl ⟨hc id hi fun before => ?_, same⟩
        have longer := sofar.above id before
        omega
      · exact Or.inr ⟨hi, hp, by omega⟩

/-- A sweep over what a host lists, where the list keeps what has not been taken. -/
theorem wp_sweepListed [IterationOrder] {list : LocalHost → HashSet ID} {p : Ptr} (kind : ID → Bool)
    (all : Set ID) (inv : List ID → LocalProxy → Prop)
    (left : ∀ visited s, inv visited s → p ∈ s.heap ∧ ∀ host, s.heap.get p = some host → ∀ id,
      id ∈ list host ↔ ¬ (id ∈ visited ∧ kind id = true) ∧ id ∈ all)
    (reads : ∀ id ∈ all, wp (isScope id) (fun scope s' => scope = kind id ∧ s' = s) fault s)
    (visits : ∀ visited, ∀ id ∈ all, ∀ s, inv visited s → id ∉ visited →
      wp (visit id) (fun _ => inv (visited ++ [id])) fault s) (start : inv [] s) : wp (do
      let host ← deref p
      let level ← maxLevel isScope (list host).keys
      sweepLevels (do let host ← deref p; pure (list host).keys) visit level)
      (fun _ s' => ∃ visits : List ID, Above 0 visits ∧ (∀ id ∈ visits, id ∈ all) ∧
        (∀ id ∈ all, kind id = true → id ≠ [] → id ∈ visits) ∧ inv visits s') fault s := by
  obtain ⟨live, remains⟩ := left [] s start
  obtain ⟨host, hf⟩ := HashTable.mem_iff_get.mp live
  have hl : ∀ id, id ∈ (list host).keys ↔ id ∈ all := by
    intro id
    rw [HashTable.mem_keys, remains host hf]
    simp
  simp only [wp_bind, wp_deref hf]
  refine wp_post (maxLevel_spec kind fun id hi => reads id ((hl id).mp hi)) ?_
  rintro level s1 ⟨rfl, hb⟩
  refine wp_post (wp_sweepLevels all inv ?_ visits level [] s1 start
    ⟨by simp, nodup_nil, List.Pairwise.nil⟩) ?_
  · intro visited s' hh
    obtain ⟨live, remains⟩ := left visited s' hh
    obtain ⟨host, hf⟩ := HashTable.mem_iff_get.mp live
    have now := fun id => HashTable.mem_keys.trans (remains host hf id)
    rw [wp_bind, wp_deref hf]
    refine ⟨rfl, keys_nodup _, fun id hi => ((now id).mp hi).2, ?_⟩
    exact fun id hi new => (now id).mpr ⟨fun hg => new hg.1, hi⟩
  · rintro _ s' ⟨visits, hh, order, exact'⟩
    refine ⟨visits, order, fun id hi => ((exact' id).mp hi).1, ?_, hh⟩
    intro id hi isScope hn
    refine (exact' id).mpr ⟨hi, length_pos_iff.mpr hn, ?_⟩
    exact hb id ((hl id).mpr hi) isScope

end

section

variable [IterationOrder] {pol : Policy} {s : LocalProxy} {p : Ptr} {id : ID}

/-- What one turn of a sweep over the publications does. -/
def Turn (pol : Policy) (p : Ptr) (isScope : Bool) (id : ID) (s s' : LocalProxy) : Prop :=
  Steps pol p s s' ∧ Sheds p { other | other = id ∧ isKind s isScope other = true } ∅
    (withdrawal s p isScope id).toList s s'

variable {isScope : Bool} {s' s1 : LocalProxy} {visited : List ID}

/-- A turn that passes over an identifier of the other kind. -/
theorem Turn.pass (other : isKind s isScope id = false) : Turn pol p isScope id s s := by
  refine ⟨.refl, (refl p s).congr ?_ rfl ?_⟩
  · ext name
    simp only [Set.mem_empty_iff_false, Set.mem_ofPred_eq, false_iff, not_and]
    rintro rfl
    simp [other]
  · simp [withdrawal, other]

theorem Turn.take {told : List Report} (steps : Steps pol p s s') (sheds : Sheds p {id} ∅ told s s')
    (kind : isKind s isScope id = true) (same : told = (withdrawal s p isScope id).toList) :
    Turn pol p isScope id s s' := by
  refine ⟨steps, sheds.congr ?_ rfl same⟩
  ext name
  refine ⟨?_, And.left⟩
  rintro rfl
  exact ⟨rfl, kind⟩

/-- The last publisher leaves and the rendezvous is told. -/
theorem Turn.withdraw {type : MessageType} (hr : pol.registers)
    (kind : isKind s isScope id = true) (last : lastPublisher s p id = true)
    (report : Report.ofType type.code id = some (.withdrawn isScope id)) :
    Turn pol p isScope id s ((s.leavePublication p id).withdrawn type id rvFid strategy) := by
  have ht : withdrawal s p isScope id = some (.withdrawn isScope id) := by
    simp [withdrawal, kind, last]
  refine .take (.tail (.single (.leave hr id)) (.report hr rfl rfl rfl))
    (leave.andTells (withdrawn_sheds report)) kind ?_
  rw [ht]
  rfl

omit [IterationOrder] in
theorem notifyNext_spec (sane : Sane s) {ap : ActivePublication} {next : Ptr}
    (hf : s.activePublicationIndex.get id = some ap) (item : ap.isScope = false)
    (first : ap.publishers.first? = some next) :
    wp (notifyNext id) (fun _ s' => ∃ host, s.heap.get next = some host ∧
      s' = (s.setPublisher id next .startPublish).notified host .startPublish id)
      (fun _ => False) s := by
  have hh : next ∈ (publications s).held id := (mem_held hf).mpr (mem_of_first? first)
  obtain ⟨host, isHost, -⟩ := sane.items next id ⟨ap, hf, item⟩ hh
  simp only [notifyNext, wp_bind, wp_publicationAt hf, first, sane.named id ap hf]
  exact (wp_sendNotificationLocally (by exact isHost)).mpr ⟨host, isHost, rfl⟩

section

variable (sane : Sane s) (hr : pol.registers) (live : p ∈ s.heap)
  (hl : id ∈ (publications s).listed p)

include sane hr live hl

/-- One turn of the sweep never fails. -/
theorem dropItemPublication_spec (ho : pol.crowds ∨ Orderly s p id) :
    wp (dropItemPublication p id) (fun _ => Turn pol p false id s) (fun _ => False) s := by
  obtain ⟨ap, hf, hm⟩ := sane.listed p id hl
  have there := mem_of_get hf
  have hn := sane.named id ap hf
  simp only [dropItemPublication, wp_bind, wp_publicationAt hf]
  cases kind : ap.isScope with
  | true => exact Turn.pass (by simp [isKind, hf, kind])
  | false =>
    have item : isKind s false id = true := by simp [isKind, hf, kind]
    simp only [hn, Bool.false_eq_true, if_false]
    refine wp_seq (leavePublication_spec live there) ?_
    rintro last s1 ⟨rfl, rfl⟩
    have hg : Sheds p {id} ∅ [] s (s.leavePublication p id) := .leave
    cases last : lastPublisher s p id with
    | true =>
      exact .withdraw hr item last rfl
    | false =>
      have ht : (withdrawal s p false id).toList = [] := by simp [withdrawal, last]
      have others : (ap.publishers.erase p).size ≠ 0 := by
        simpa [lastPublisher, hf] using last
      have hf1 : (s.leavePublication p id).activePublicationIndex.get id =
          some { ap with publishers := ap.publishers.erase p } := by
        simp [LocalProxy.leavePublication, get_modifyOrErase, hf, others]
      obtain ⟨q, remains⟩ := size_pos.mp (Nat.pos_of_ne_zero others)
      obtain ⟨next, first⟩ := HashTable.first?_isSome remains
      simp only [Bool.false_eq_true, if_false, wp_ite]
      refine ⟨fun active => ?_, fun _ =>
        .take (.single (.leave hr id)) hg item ht.symm⟩
      have running : ap.publishers.get p ≠ some .stopPublish := by simpa using active
      refine wp_post (notifyNext_spec sane.leave hf1 kind first) ?_
      rintro _ s' ⟨host, isHost, rfl⟩
      have handed : Step pol p s ((s.leavePublication p id).setPublisher id next .startPublish) :=
        .handOver hr hf hm running (ho.imp_right fun ho =>
          ho ap hf kind running next first)
      exact .take (.tail (.single handed) (.quiet (notified_quiet (by exact isHost))))
        ((hg.revise (revision_setPublisher next .startPublish)).andTells notified_sheds)
        item ht.symm

theorem dropScopePublication_spec :
    wp (dropScopePublication p id) (fun _ => Turn pol p true id s) (fun _ => False) s := by
  obtain ⟨ap, hf, -⟩ := sane.listed p id hl
  have there := mem_of_get hf
  simp only [dropScopePublication, wp_bind, wp_publicationAt hf, sane.named id ap hf]
  cases kind : ap.isScope with
  | false => exact Turn.pass (by simp [isKind, hf, kind])
  | true =>
    have scope : isKind s true id = true := by simp [isKind, hf, kind]
    simp only [if_true]
    refine wp_seq (leavePublication_spec live there) ?_
    rintro last s1 ⟨rfl, rfl⟩
    cases last : lastPublisher s p id with
    | true =>
      exact .withdraw hr scope last rfl
    | false =>
      have ht : (withdrawal s p true id).toList = [] := by simp [withdrawal, last]
      exact .take (.single (.leave hr id)) .leave scope ht.symm

end

/-- A sweep over the publications has visited these identifiers, in this order. -/
structure Swept (pol : Policy) (p : Ptr) (isScope : Bool) (visited : List ID)
    (s s' : LocalProxy) : Prop where
  steps : Steps pol p s s'
  sheds : Sheds p { id | id ∈ visited ∧ isKind s isScope id = true } ∅
    (visited.filterMap (withdrawal s p isScope)) s s'

theorem Swept.start (isScope : Bool) : Swept pol p isScope [] s s :=
  ⟨.refl, (refl p s).congr (by ext; simp) rfl rfl⟩

theorem Swept.turn (hs : Swept pol p isScope visited s s1) (new : id ∉ visited)
    (turn : Turn pol p isScope id s1 s') : Swept pol p isScope (visited ++ [id]) s s' := by
  have same : s1.activePublicationIndex.get id = s.activePublicationIndex.get id :=
    hs.sheds.publication id fun hg => new hg.1
  have kind : isKind s1 isScope id = isKind s isScope id := by simp only [isKind, same]
  have last : lastPublisher s1 p id = lastPublisher s p id := by simp only [lastPublisher, same]
  have ht : withdrawal s1 p isScope id = withdrawal s p isScope id := by
    rw [withdrawal, kind, last, withdrawal]
  refine ⟨hs.steps.trans turn.1, (hs.sheds.trans turn.2).congr ?_ (Set.union_empty _) ?_⟩
  · ext name
    by_cases isThis : name = id
    · simp [isThis, kind]
    · simp [isThis]
  · rw [ht]
    cases shape : withdrawal s p isScope id <;> simp [shape]

theorem deleteAllActiveInformationItemPublications_spec (sane : Sane s)
    (hr : pol.registers) (live : p ∈ s.heap)
    (ho : pol.crowds ∨ ∀ id ∈ (publications s).listed p, Orderly s p id) :
    wp (deleteAllActiveInformationItemPublications p)
      (fun _ s' => ∃ visits : List ID, visits.Nodup ∧
        (∀ id, id ∈ visits ↔ id ∈ (publications s).listed p) ∧ Swept pol p false visits s s')
      (fun _ => False) s := by
  obtain ⟨host, hf⟩ := HashTable.mem_iff_get.mp live
  have hl : ∀ id, id ∈ host.activePublications.keys ↔ id ∈ (publications s).listed p :=
    fun id => (mem_listed hf).symm
  simp only [deleteAllActiveInformationItemPublications, wp_bind, wp_deref hf]
  refine wp_post (wp_forM_visited host.activePublications.keys _
    (fun visited s1 => Swept pol p false visited s s1) ?_ s (.start false))
    fun _ s' hs => ⟨_, HashTable.keys_nodup _, hl, hs⟩
  intro visited id rest s1 split hs
  have new := HashTable.not_visited split
  have linked : id ∈ (publications s).listed p := (hl id).mp (HashTable.mem_of_split split)
  have same : s1.activePublicationIndex.get id = s.activePublicationIndex.get id :=
    hs.sheds.publication id fun hg => new hg.1
  have hl1 : id ∈ (publications s1).listed p := by
    rw [hs.sheds.publications]
    exact ⟨fun hg => new hg.2.1, linked⟩
  refine wp_post (dropItemPublication_spec (hs.steps.sane sane) hr
    (hs.sheds.live.mpr live) hl1 ?_) fun _ s' turn => hs.turn new turn
  refine ho.imp_right fun ho => ?_
  unfold Orderly
  rw [same]
  exact ho id linked

theorem deleteAllActiveScopePublications_spec (sane : Sane s) (hr : pol.registers)
    (live : p ∈ s.heap) : wp (deleteAllActiveScopePublications p)
      (fun _ s' => ∃ visits : List ID, Above 0 visits ∧
        (∀ id ∈ visits, id ∈ (publications s).listed p) ∧
        (∀ id ∈ (publications s).listed p, isKind s true id = true → id ≠ [] → id ∈ visits) ∧
        Swept pol p true visits s s') (fun _ => False) s := by
  refine wp_sweepListed _ _ (fun visited => Swept pol p true visited s) ?_ ?_ ?_ (.start true)
  · refine fun visited s1 hs => ⟨hs.sheds.live.mpr live, fun host hf id => ?_⟩
    rw [← mem_listed hf]
    change id ∈ (publications s1).listed p ↔ _
    rw [hs.sheds.publications]
    simp [withdraw]
  · intro id hl
    obtain ⟨ap, stored, -⟩ := sane.listed p id hl
    rw [wp_bind, wp_publicationAt stored]
    simp [isKind, stored]
  · intro visited id hi s' hs new
    have hl : id ∈ (publications s').listed p := by
      rw [hs.sheds.publications]
      exact ⟨fun hg => new hg.2.1, hi⟩
    exact wp_post (dropScopePublication_spec (hs.steps.sane sane) hr
      (hs.sheds.live.mpr live) hl) fun _ s'' turn => hs.turn new turn

end

/-- Whether the subscription stored under the identifier is one to a scope, or to an item. -/
def isSubscriptionKind (isScope : Bool) (id : ID) : Bool :=
  (s.activeSubscriptionIndex.get id).any (·.isScope == isScope)

/-- A host lists a subscription that is not there. -/
def Dangling (p : Ptr) : Prop :=
  ∃ id ∈ (subscriptions s).listed p, id ∉ s.activeSubscriptionIndex

section

variable [IterationOrder] {pol : Policy} {s : LocalProxy} {p : Ptr} {id : ID}
variable {fault : Fault → Prop} {type : MessageType} {isScope : Bool} {visited : List ID}
  {s1 : LocalProxy}

theorem dropSubscription_spec (pol : Policy) (sane : Sane s) (live : p ∈ s.heap)
    {as : ActiveSubscription} (hf : s.activeSubscriptionIndex.get id = some as)
    (hs : ∀ id, Report.ofType type.code id = none) : wp (dropSubscription type p id as)
      (fun _ s' => Steps pol p s s' ∧ Sheds p ∅ {id} [] s s') fault s := by
  have left : Step pol p s (s.leaveSubscription p id) := .unsubscribe id
  have hg : Sheds p ∅ {id} [] s (s.leaveSubscription p id) := .unsubscribe
  simp only [dropSubscription, wp_bind, sane.namedSub id as hf]
  refine wp_post (leaveSubscription_spec live (mem_of_get hf)) ?_
  rintro last s1 rfl
  simp only [wp_ite, wp_pure]
  refine ⟨fun _ => ⟨?_, hg.andTells (withdrawn_sheds (hs id))⟩, fun _ => ⟨.single left, hg⟩⟩
  refine .tail (.single left) (.quiet ⟨rfl, [_], rfl, ?_⟩)
  intro pkt hm
  rw [mem_singleton.mp hm]
  exact harmless_outwards (hs _) rfl

/-- A sweep over the subscriptions has visited these identifiers. -/
structure SweptSubscriptions (pol : Policy) (p : Ptr) (isScope : Bool) (visited : List ID)
    (s s' : LocalProxy) : Prop where
  steps : Steps pol p s s'
  sheds : Sheds p ∅ { id | id ∈ visited ∧ isSubscriptionKind s isScope id = true } [] s s'
  there : ∀ id ∈ visited, id ∈ s.activeSubscriptionIndex

theorem SweptSubscriptions.start (isScope : Bool) : SweptSubscriptions pol p isScope [] s s :=
  ⟨.refl, (refl p s).congr rfl (by ext; simp) rfl, by simp⟩

/-- One turn of either sweep: subscriptions of the other kind are passed over. -/
theorem SweptSubscriptions.turn (sane : Sane s) (live : p ∈ s.heap)
    (hs : SweptSubscriptions pol p isScope visited s s1) (new : id ∉ visited)
    (hl : id ∈ (subscriptions s).listed p) (silent : ∀ id, Report.ofType type.code id = none) :
    wp (do
      let as ← subscriptionAt id
      if as.isScope = isScope then dropSubscription type p id as else pure ())
      (fun _ s' => SweptSubscriptions pol p isScope (visited ++ [id]) s s')
      (fun _ => Dangling s p) s1 := by
  have same : s1.activeSubscriptionIndex.get id = s.activeSubscriptionIndex.get id :=
    hs.sheds.subscription id fun hg => new hg.1
  cases hf : s.activeSubscriptionIndex.get id with
  | none =>
    simp only [subscriptionAt, wp_bind, wp_read, same, hf]
    exact ⟨id, hl, get_eq_none.mp hf⟩
  | some as =>
    have ht : ∀ name ∈ visited ++ [id], name ∈ s.activeSubscriptionIndex := by
      intro name hi
      rcases mem_append.mp hi with before | last
      · exact hs.there name before
      · rw [mem_singleton.mp last]
        exact mem_of_get hf
    rw [hf] at same
    rw [wp_bind, wp_subscriptionAt same]
    by_cases kind : as.isScope = isScope
    · rw [if_pos kind]
      refine wp_post (dropSubscription_spec pol (hs.steps.sane sane)
        (hs.sheds.live.mpr live) same silent) fun _ s' done => ?_
      refine ⟨hs.steps.trans done.1, (hs.sheds.trans done.2).congr (Set.union_empty _) ?_ rfl, ht⟩
      ext name
      by_cases this : name = id
      · simp [this, isSubscriptionKind, hf, kind]
      · simp [this]
    · rw [if_neg kind]
      refine ⟨hs.steps, hs.sheds.congr rfl ?_ rfl, ht⟩
      ext name
      by_cases this : name = id
      · simp [this, isSubscriptionKind, hf, kind]
      · simp [this]

omit [IterationOrder] in
theorem dropItemSubscription_eq : dropItemSubscription p id = (do
    let as ← subscriptionAt id
    if as.isScope = false then dropSubscription .unsubscribeInfo p id as else pure ()) := by
  unfold dropItemSubscription
  congr
  funext as
  cases as.isScope <;> rfl

theorem deleteAllActiveInformationItemSubscriptions_spec (pol : Policy) (sane : Sane s)
    (live : p ∈ s.heap) : wp (deleteAllActiveInformationItemSubscriptions p)
      (fun _ s' => ∃ visits : List ID, (∀ id, id ∈ visits ↔ id ∈ (subscriptions s).listed p) ∧
        SweptSubscriptions pol p false visits s s') (fun _ => Dangling s p) s := by
  obtain ⟨host, hf⟩ := HashTable.mem_iff_get.mp live
  have hl : ∀ id, id ∈ host.activeSubscriptions.keys ↔ id ∈ (subscriptions s).listed p :=
    fun id => (mem_listed hf).symm
  simp only [deleteAllActiveInformationItemSubscriptions, wp_bind, wp_deref hf]
  refine wp_post (wp_forM_visited host.activeSubscriptions.keys _
    (fun visited s1 => SweptSubscriptions pol p false visited s s1) ?_ s (.start false))
    fun _ s' hs => ⟨_, hl, hs⟩
  intro visited id rest s1 split hs
  have new := HashTable.not_visited split
  rw [dropItemSubscription_eq]
  exact hs.turn sane live new ((hl id).mp (HashTable.mem_of_split split)) fun _ => rfl

theorem deleteAllActiveScopeSubscriptions_spec (pol : Policy) (sane : Sane s) (live : p ∈ s.heap) :
    wp (deleteAllActiveScopeSubscriptions p)
      (fun _ s' => ∃ visits : List ID, (∀ id ∈ visits, id ∈ (subscriptions s).listed p ∧ id ≠ []) ∧
        (∀ id ∈ (subscriptions s).listed p, isSubscriptionKind s true id = true → id ≠ [] →
          id ∈ visits) ∧ SweptSubscriptions pol p true visits s s') (fun _ => Dangling s p) s := by
  refine wp_post (wp_sweepListed (isSubscriptionKind s true) ((subscriptions s).listed p)
    (fun visited => SweptSubscriptions pol p true visited s) ?_ ?_ ?_ (.start true)) ?_
  · refine fun visited s1 hs => ⟨hs.sheds.live.mpr live, fun host hf id => ?_⟩
    rw [← mem_listed hf]
    change id ∈ (subscriptions s1).listed p ↔ _
    rw [hs.sheds.subscriptions]
    simp [withdraw]
  · intro id listed
    simp only [subscriptionAt, wp_bind, wp_expect]
    refine ⟨fun as stored => ?_, fun ha => ⟨id, listed, get_eq_none.mp ha⟩⟩
    simp [isSubscriptionKind, stored]
  · intro visited id hi s' hs new
    exact hs.turn sane live new hi fun _ => rfl
  · rintro _ s' ⟨visits, order, inside, hc, hs⟩
    refine ⟨visits, fun id hi => ⟨inside id hi, ?_⟩, hc, hs⟩
    exact length_pos_iff.mp (order.above id hi)

end

end Blackadder.Proxy
