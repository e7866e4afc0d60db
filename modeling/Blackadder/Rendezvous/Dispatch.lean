import Blackadder.Rendezvous.Publish
import Blackadder.Rendezvous.Subscribe
import Blackadder.Rendezvous.WithdrawScope

namespace Blackadder.Rendezvous

open Program Rendezvous.Graph List

namespace Graph

variable (g : Graph) (request : Request)

/-- The scopes that unpublications and unsubscriptions use are fathers of what they name. -/
def Addressed : Prop :=
  match request.type with
  | .unpublishScope =>
    g.ScopeAddressed .publisher request.nodeID request.id request.prefixID request.strategy
  | .unpublishInfo =>
    g.ItemAddressed .publisher request.nodeID request.id request.prefixID request.strategy
  | .unsubscribeScope =>
    g.ScopeAddressed .subscriber request.nodeID request.id request.prefixID request.strategy
  | .unsubscribeInfo =>
    g.ItemAddressed .subscriber request.nodeID request.id request.prefixID request.strategy
  | _ => True

/-- The request puts the existing node `e` under the scope `f`. -/
def Joins (k : Kind) (e f : Ptr) : Prop :=
  request.type = (match k with | .scope => .publishScope | .item => .publishInfo) ∧
    g.LinkTarget k request.id request.prefixID request.strategy e f

/-- The request leaves a match behind that is out of date. -/
def Stale : Prop :=
  request.type = .unsubscribeInfo ∧
    g.StaleUnsubscription request.nodeID request.id request.prefixID request.strategy

/-- The request leaves no publisher behind that has been matched under a known root scope. -/
def MatchedOnce : Prop :=
  match request.type with
  | .publishInfo => g.PublishedOnce request.id request.prefixID request.strategy
  | .subscribeInfo => ∀ pub, g.index .item (request.prefixID ++ request.id) = some pub →
      g.Covered pub → g.OnlyAt pub (request.prefixID ++ request.id)
  | .subscribeScope => ∀ sc, g.index .scope (request.prefixID ++ request.id) = some sc →
      KnownRoot (request.prefixID ++ request.id) →
      g.PublishedUnder sc (request.prefixID ++ request.id)
  | _ => True

end Graph

/-- The request keeps to the policy in this state. -/
structure Policy.Permits (pol : Policy) (short : Prop) (fuel : Nat) (g : Graph)
    (request : Request) : Prop where
  addressed : pol.loose ∨ g.Addressed request
  even : pol.uneven ∨ ∀ k e f, g.Joins request k e f → g.strategy e = g.strategy f
  joins : pol.mixed ∨ ∀ k e f, g.Joins request k e f → g.SameRoots e f
  quiet : pol.stale ∨ ¬ g.Stale request
  once : pol.mixed ∨ pol.lasting ∨ g.MatchedOnce request
  enough : short ∨ ((∀ e f, g.Joins request .scope e f → ¬ g.Below e f) ∧
    g.next ≤ fuel ∧ 0 < fuel)

section

variable [IterationOrder] {pol : Policy} {s : LocalRV} {req : Request} {short : Prop}
  {fuel : Nat}

variable (hu : pol.Unbounded) (sane : Sane pol (graph s))
  (hk : req.nodeID ∈ (graph s).known)
  (hp : pol.Permits short fuel (graph s) req)

include hu sane hk hp

theorem publishScope_spec (type : req.type = .publishScope) :
    Handles pol short s (publishScope fuel req.nodeID req.id req.prefixID req.strategy) := by
  simp only [publishScope, wp_ite]
  refine ⟨fun one => ?_, fun _ => ⟨fun one => ?_, fun _ => ⟨fun hs => ?_, fun _ => .refl s⟩⟩⟩
  · obtain ⟨t, single⟩ := length_eq_one_iff.mp one.2
    rw [single]
    refine enterRootScope_spec hu sane hk fun sc s1 _ _ _ _ d => ?_
    rw [affected_scope_publisher, Set.union_empty]
    exact .refl d _
  · obtain ⟨t, single⟩ := length_eq_one_iff.mp one.2
    rw [single]
    refine enterInnerScope_spec hu sane hk
      (hp.enough.imp_right fun both => both.2.2) fun sc s1 _ _ _ _ d => ?_
    rw [affected_scope_publisher, Set.union_empty]
    exact .refl d _
  · exact republishInnerScope_spec hu sane hk hs.2
      (hp.even.imp_right fun even e f target => even .scope e f ⟨type, target⟩)
      (hp.joins.imp_right fun joins e f target => joins .scope e f ⟨type, target⟩)
      (hp.enough.imp_right fun both =>
        ⟨fun e f target => both.1 e f ⟨type, target⟩, both.2.1⟩)

theorem publishInfo_spec (type : req.type = .publishInfo) (upd : Bool) :
    Handles pol short s (publishInfo req.nodeID req.id req.prefixID req.strategy upd) := by
  have once : pol.mixed ∨ pol.lasting ∨
      (graph s).PublishedOnce req.id req.prefixID req.strategy := by
    have once := hp.once
    simp only [MatchedOnce, type] at once
    exact once
  simp only [publishInfo, wp_ite]
  refine ⟨fun one => ?_, fun _ => ⟨fun hs => ?_, fun _ => .refl s⟩⟩
  · obtain ⟨t, single⟩ := length_eq_one_iff.mp one.2
    rw [single] at once ⊢
    exact advertiseInfo_spec hu sane hk once upd
  · exact readvertiseInfo_spec hu sane hk hs.2
      (hp.even.imp_right fun even e f target => even .item e f ⟨type, target⟩)
      (hp.joins.imp_right fun joins e f target => joins .item e f ⟨type, target⟩) once upd

theorem subscribeScope_spec (type : req.type = .subscribeScope) (upd : Bool) :
    Handles pol short s (subscribeScope fuel req.nodeID req.id req.prefixID req.strategy upd) := by
  have once : ∀ sc, (graph s).index .scope (req.prefixID ++ req.id) = some sc →
      KnownRoot (req.prefixID ++ req.id) → pol.mixed ∨ pol.lasting ∨
      (graph s).PublishedUnder sc (req.prefixID ++ req.id) := by
    have once := hp.once
    simp only [MatchedOnce, type] at once
    exact fun sc hf hk =>
      once.imp_right (Or.imp_right fun once => once sc hf hk)
  simp only [subscribeScope, wp_ite]
  refine ⟨fun one => ?_, fun _ => ⟨fun one => ?_, fun _ => .refl s⟩⟩
  · obtain ⟨t, single⟩ := length_eq_one_iff.mp one.2
    rw [single, length_eq_zero_iff.mp one.1] at once
    rw [single]
    exact subscribeRootScope_spec hu sane hk once upd
  · obtain ⟨t, single⟩ := length_eq_one_iff.mp one.2
    rw [single] at once ⊢
    exact subscribeInnerScope_spec hu sane hk (hp.enough.imp_right fun both => both.2.2) once upd

theorem subscribeItem_spec (type : req.type = .subscribeInfo) (upd : Bool) :
    Handles pol short s (subscribeInfo req.nodeID req.id req.prefixID req.strategy upd) := by
  have once : ∀ pub, (graph s).index .item (req.prefixID ++ req.id) = some pub →
      (graph s).Covered pub → pol.mixed ∨ pol.lasting ∨
      (graph s).OnlyAt pub (req.prefixID ++ req.id) := by
    have once := hp.once
    simp only [MatchedOnce, type] at once
    exact fun pub hf hc =>
      once.imp_right (Or.imp_right fun once => once pub hf hc)
  simp only [subscribeInfo, wp_ite]
  refine ⟨fun one => ?_, fun _ => .refl s⟩
  obtain ⟨t, single⟩ := length_eq_one_iff.mp one.2
  rw [single] at once ⊢
  exact subscribeInfo_spec hu sane hk once upd

/-- Every request is a run of permitted steps of the graph, or stops. -/
theorem dispatch_spec : Handles pol short s (dispatch fuel req) := by
  have ha := hp.addressed
  have hq := hp.quiet
  unfold dispatch
  cases type : req.type with
  | publishScope => exact publishScope_spec hu sane hk hp type
  | publishInfo => exact publishInfo_spec hu sane hk hp type false
  | subscribeScope => exact subscribeScope_spec hu sane hk hp type false
  | subscribeInfo => exact subscribeItem_spec hu sane hk hp type false
  | unpublishScope =>
    simp only [Addressed, type] at ha
    exact unpublishScope_spec hu sane ha false
  | unpublishInfo =>
    simp only [Addressed, type] at ha
    exact wp_post (unpublishInfo_spec sane ha false) fun _ s' both d => both.1.steps hu d
  | unsubscribeScope =>
    simp only [Addressed, type] at ha
    exact unsubscribeScope_spec hu sane ha true
  | unsubscribeInfo =>
    simp only [Addressed, type] at ha
    refine wp_post (unsubscribeInfo_spec sane ha (hq.imp_right fun calm stale => ?_)
      true) fun _ s' withdraws d => withdraws.steps hu d
    exact calm ⟨type, stale⟩
  | unknown => exact fun d => .refl d _

end

open Policy Or

/-- Only publish/subscribe requests can go beyond a policy. -/
def Policy.PermitsEvent (pol : Policy) (short : Prop) (fuel : Nat) (g : Graph) : Event → Prop
  | .publishedData request => pol.Permits short fuel g request
  | _ => True

variable {g : Graph} {request : Request} {pol : Policy} {short : Prop} {fuel : Nat} {s : LocalRV}
  {event : Event}

theorem Graph.Joins.ofMeet {h : NodeID} {k : Kind} {e f : Ptr}
    (joins : (g.meet h).Joins request k e f) : g.Joins request k e f :=
  ⟨joins.1, ⟨joins.2.inner, joins.2.existing, joins.2.father, joins.2.free, joins.2.same⟩⟩

theorem Policy.Permits.meet (hp : pol.Permits short fuel g request) (h : NodeID) :
    pol.Permits short fuel (g.meet h) request where
  addressed := hp.addressed
  even := hp.even.imp_right fun even k e f joins => even k e f joins.ofMeet
  joins := hp.joins.imp_right fun hs k e f joins => hs k e f joins.ofMeet
  quiet := hp.quiet
  once := hp.once
  enough := hp.enough.imp_right fun both => ⟨fun e f joins => both.1 e f joins.ofMeet, both.2⟩

theorem push_spec [IterationOrder] (hu : pol.Unbounded) (sane : Sane pol (graph s))
    (hp : pol.PermitsEvent short fuel (graph s) event) :
    Handles pol short s (push fuel event) := by
  cases event with
  | publishedData request =>
    simp only [push, getRemoteHost, wp_bind, wp_update]
    let s1 : LocalRV := { s with pubSubIndex := s.pubSubIndex.findInsert request.nodeID {} }
    have met : graph s1 = (graph s).meet request.nodeID := graph_meet
    have steps : Settles pol s s1 := fun d =>
      met ▸ (Steps.refl d _).tail (.meet request.nodeID)
    have hk : request.nodeID ∈ (graph s1).known := met ▸ inl rfl
    have hp1 : pol.Permits short fuel (graph s1) request :=
      met ▸ Policy.Permits.meet hp request.nodeID
    exact wp_post (dispatch_spec hu (sane.steps (steps ∅)) hk hp1) fun _ s' rest => steps.trans rest
  | publishedDataISub =>
    refine .told (fun o hm => ?_) rfl
    rw [List.mem_singleton.mp hm]
    rfl
  | unexpected => exact .refl s

/-- The states between events. The order of the tables and the stack for the recursion are open. -/
inductive Run (allowed : LocalRV → Event → Prop) : LocalRV → Prop
  | start (order : IterationOrder) (nodeID : NodeID) : Run allowed (initialState nodeID)
  | step {s s' : LocalRV} (order : IterationOrder) (fuel : Nat) (event : Event)
      (before : Run allowed s) (isAllowed : allowed s event)
      (returns : push fuel event s = .ok ((), s')) : Run allowed s'

/-- The events of a list one after the other. -/
def pushAll [IterationOrder] (fuel : Nat) (events : List Event) : RV Unit :=
  forM events (push fuel)

variable {allowed : LocalRV → Event → Prop} {events : List Event}

theorem Run.pushAll [IterationOrder] {s' : LocalRV} (run : Run allowed s)
    (isAllowed : ∀ event ∈ events, ∀ s, allowed s event)
    (hr : Rendezvous.pushAll fuel events s = .ok ((), s')) : Run allowed s' := by
  have ends : wlp (Rendezvous.pushAll fuel events) (fun _ => Run allowed) s := by
    refine wp_forM _ _ (Run allowed) (fun event hm s run => ?_) s run
    unfold wp
    split
    · rename_i outcome
      exact .step _ fuel event run (isAllowed event hm s) outcome
    · trivial
  have result := wp_ok ends hr
  exact result

/-- A host asks for something of strategy `DOMAIN_LOCAL`. -/
def ask (host : UInt8) (type : RequestType) (id prefixID : ID) : Event :=
  .publishedData ⟨[smallFragment host], type, id, prefixID, Strategy.domainLocal⟩

/-- What can be seen after the events of a list. -/
abbrev after [IterationOrder] {β : Type} (events : List Event) (view : LocalRV → β) :
    Except Fault β :=
  outcome (pushAll 9 events) view (initialState [smallFragment 8])

theorem Run.reached [IterationOrder] {β : Type} {view : LocalRV → β} {seen : β}
    (ends : after events view = .ok seen) (allowed : LocalRV → Event → Prop := fun _ _ => True)
    (isAllowed : ∀ event ∈ events, ∀ s, allowed s event := by exact fun _ _ _ => trivial) :
    ∃ s, Run allowed s ∧ view s = seen := by
  obtain ⟨s, hr, hs⟩ := of_outcome ends
  exact ⟨s, (Run.start inferInstance _).pushAll isAllowed hr, hs⟩

theorem Run.mono {allowed' : LocalRV → Event → Prop}
    (hi : ∀ s event, allowed s event → allowed' s event) (run : Run allowed s) :
    Run allowed' s := by
  induction run with
  | start order nid => exact .start order nid
  | step order fuel event _ isAllowed returns ih =>
    exact .step order fuel event ih (hi _ _ isAllowed) returns

section

variable [IterationOrder] (nid : NodeID)

theorem initial_node (k : Kind) (p : Ptr) : p ∉ (graph (initialState nid)).node k := by
  simp [graph, initialState]

theorem initial_inv : (graph (initialState nid)).Inv := by
  refine ⟨fun _ => smallFragment 0, ?_, ?_⟩
  · constructor <;> simp [graph, initialState]
  · constructor <;> simp [graph, initialState]
    intro k id p
    cases k <;> simp [LocalRV.index]

theorem initial_sane (pol : Policy) : Sane pol (graph (initialState nid)) := by
  refine ⟨initial_inv nid, inr ?_, inr ?_⟩
  · exact fun k p _ _ hl => absurd hl (initial_node nid k p)
  · simp [Graph.ChildrenLive, graph, initialState]

end

namespace Run

variable {allowed : LocalRV → Event → Prop} {pol : Policy} {s : LocalRV}

/-- What holds at the start and is kept by every step of the policy holds in every run that keeps to
it. -/
theorem keeps (held : Set Ptr → Graph → Prop) (hu : pol.Unbounded)
    (permits : ∀ s event fuel, Sane pol (graph s) → allowed s event →
      pol.PermitsEvent True fuel (graph s) event)
    (start : ∀ (_ : IterationOrder) nid, held ∅ (graph (initialState nid)))
    (one : ∀ {d g d' g'}, g.Inv → held d g → Step pol d g d' g' → held d' g')
    (run : Run allowed s) : Sane pol (graph s) ∧ held ∅ (graph s) := by
  induction run with
  | start order nid => exact ⟨initial_sane nid pol, start order nid⟩
  | step order fuel event _ isAllowed hr ih =>
    have steps := wp_ok (push_spec hu ih.1 (permits _ event fuel ih.1 isAllowed)) hr
    exact ⟨ih.1.steps (steps ∅), ((steps ∅).keeps held one ih.1.inv ih.2).2⟩

theorem sane (hu : pol.Unbounded) (permits : ∀ s event fuel, Sane pol (graph s) → allowed s event →
      pol.PermitsEvent True fuel (graph s) event) (run : Run allowed s) : Sane pol (graph s) :=
  (run.keeps (fun _ _ => True) hu permits (fun _ _ => trivial) fun _ _ _ => trivial).1

end Run

theorem Policy.all_unbounded : all.Unbounded :=
  ⟨trivial, fun _ => trivial, fun _ => trivial⟩

theorem Policy.all_permits
    (he : short ∨ ((∀ e f, g.Joins request .scope e f → ¬ g.Below e f) ∧ g.next ≤ fuel ∧ 0 <
      fuel)) : all.Permits short fuel g request :=
  ⟨inl trivial, inl trivial, inl trivial, inl trivial, inl trivial, he⟩

theorem run_sane (run : Run (fun _ _ => True) s) : Sane all (graph s) := by
  refine run.sane all_unbounded fun s event fuel _ _ => ?_
  cases event with
  | publishedData => exact all_permits (inl trivial)
  | publishedDataISub | unexpected => trivial

end Blackadder.Rendezvous
