import Blackadder.Rendezvous.Effects

namespace Blackadder.Rendezvous

open Program Steps Set Or

namespace Graph

variable {g : Graph} {tag : Ptr → Fragment} {f q : Ptr} {k : Kind} {t : Fragment} {path id : ID}

/-- If one identifier that `f` gives to a child called `t` is free, all of them are. -/
theorem Shape.branch_free (shape : Shape tag ∅ g) (scope : f ∈ g.node .scope)
    (has : path ∈ g.ids f) (free : ∀ k, g.index k (path ++ [t]) = none) :
    ∀ k q id, q ∈ g.node k → id ∈ g.branch f t → id ∉ g.ids q := by
  rintro k q _ hl ⟨path', has', rfl⟩ used
  obtain ⟨rfl, ⟨-, he⟩ | ⟨-, f', father, hp⟩⟩ := shape.father_of_append hl used
  · exact shape.ne_nil scope has' he
  · obtain rfl := shape.scope_owner scope (shape.fathers_live k q f' hl father).1 has' hp
    have taken := shape.complete k q f path hl (notMem_empty q) father has
    cases (free k).symm.trans ((shape.index_iff k _ q).mpr ⟨hl, taken⟩)

/-- Only a root scope has an identifier of one fragment. -/
theorem Shape.root_free (shape : Shape tag ∅ g) (free : g.index .scope [t] = none) :
    ∀ k q id, q ∈ g.node k → id ∈ g.given t none → id ∉ g.ids q := by
  rintro k q _ hl rfl used
  have split : [] ++ [t] ∈ g.ids q := used
  obtain ⟨-, ⟨root, -⟩ | ⟨-, f, father, hp⟩⟩ := shape.father_of_append hl split
  · cases free.symm.trans ((shape.index_iff .scope _ q).mpr ⟨shape.root_scope q root, used⟩)
  · exact shape.ne_nil (shape.fathers_live k q f hl father).1 hp rfl

theorem Shape.affected_create (shape : Shape tag ∅ g) (strat : Strategy) {father : Option Ptr}
    (scope : ∀ f, father = some f → f ∈ g.node .scope) (r : Role) :
    (g.create .scope strat father t).affected .scope r g.next = ∅ := by
  refine eq_empty_of_forall_notMem ?_
  rintro x ⟨-, ⟨hi, -⟩ | ⟨-, -, ⟨-, hf⟩ | hf⟩⟩
  · cases hi
  · exact shape.next_dead .scope (scope _ hf)
  · obtain ⟨k, hl⟩ := shape.live_of_father x _ hf
    exact shape.next_dead .scope (shape.fathers_live k x _ hl hf).1

theorem affected_scope_publisher (g : Graph) (p : Ptr) : g.affected .scope .publisher p = ∅ := by
  refine eq_empty_of_forall_notMem ?_
  rintro x ⟨-, ⟨hi, -⟩ | ⟨-, hi, -⟩⟩ <;> cases hi

theorem affected_item (g : Graph) (r : Role) (p : Ptr) : g.affected .item r p ⊆ {p} := by
  rintro x ⟨-, ⟨-, rfl⟩ | ⟨hi, -⟩⟩
  · exact rfl
  · cases hi

end Graph

theorem free_of_lookups {g : Graph} {id : ID} (noItem : g.index .item id = none)
    (noScope : g.index .scope id = none) : ∀ k, g.index k id = none
  | .item => noItem
  | .scope => noScope

section

variable {pol : Policy} {d : Set Ptr} {g g' : Graph} {k : Kind} {r : Role} {p : Ptr} {id : ID}
  {h : NodeID}

theorem Steps.register (growing : pol.growing) (hl : p ∈ g.node k) (has : id ∈ g.ids p)
    (hk : h ∈ g.known) (hr : g' = g.register k r p id h) :
    Steps pol d g (d ∪ g.affected k r p) g' :=
  hr ▸ (refl d g).tail (.register growing hl has hk)

theorem Steps.registerItem (growing : pol.growing) (hl : p ∈ g.node .item) (has : id ∈ g.ids p)
    (hk : h ∈ g.known) (hr : g' = g.register .item r p id h) : Steps pol d g (d ∪ {p}) g' :=
  (register growing hl has hk hr).forget (union_subset_union_right d (g.affected_item r p))

end

variable [IterationOrder] {pol : Policy} {tag : Ptr → Fragment} {k : Kind} {h : NodeID} {r : Role}
  {t : Fragment} {id pre : ID} {strategy : Strategy} {short : Prop} {f sc : Ptr}
  {s s₁ : LocalRV} {fault : Fault → Prop}

/-- What follows on the entry of a host for a scope that exists keeps to the steps. -/
def GoesOn (pol : Policy) (s : LocalRV) (r : Role) (id : ID) (h : NodeID) (strategy : Strategy)
    (fault : Fault → Prop) (onExisting : Ptr → RV Unit) : Prop :=
  ∀ sc s₁, (graph s).index .scope id = some sc → (graph s).strategy sc = strategy →
    graph s₁ = (graph s).register .scope r sc id h → Sane pol (graph s₁) →
    wp (onExisting sc) (fun _ s' => ∀ d,
      Steps pol (d ∪ (graph s).affected .scope r sc) (graph s₁) d (graph s')) fault s₁

variable {onExisting : Ptr → RV Unit}

theorem enterExisting_spec (onExisting : Ptr → RV Unit) (hu : pol.Unbounded)
    (sane : Sane pol (graph s)) (hk : h ∈ (graph s).known)
      (hf : (graph s).index .scope id = some sc)
    (goOn : GoesOn pol s r id h strategy fault onExisting) : wp (deref sc >>= fun scope =>
        if scope.strategy = strategy then register .scope r sc id h (onExisting sc)
        else pure .strategyMismatch) (fun _ => Settles pol s) fault s := by
  have ⟨tag, shape⟩ := sane.inv
  obtain ⟨hl, has⟩ := shape.indexed hf
  refine deref_bind hl fun scope heapScope _ => ?_
  rw [wp_ite]
  refine ⟨fun hs => ?_, fun _ => .refl s⟩
  refine register_spec hl has hk (fun _ => .refl s) fun s₁ hr => ?_
  have he := fun d => Steps.register (d := d) hu.1 hl has hk hr
  refine wp_post (goOn sc s₁ hf ((strategy_eq heapScope).trans hs) hr (sane.steps (he ∅))) ?_
  exact fun _ s' steps d => (he d).trans (steps d)

/-- A new root scope with its first host, or another host of an existing one. -/
theorem enterRootScope_spec (hu : pol.Unbounded) (sane : Sane pol (graph s))
    (hk : h ∈ (graph s).known) (goOn : GoesOn pol s r [t] h strategy fault onExisting) :
    wp (enterRootScope r h [t] strategy onExisting) (fun _ => Settles pol s) fault s := by
  have ⟨tag, shape⟩ := sane.inv
  refine wp_lookup .scope [t] (fun hf => ?_)
    fun sc hf => enterExisting_spec onExisting hu sane hk hf goOn
  have noFather : ∀ f, none = some f → f ∈ (graph s).node .scope := fun _ hi => by cases hi
  refine wp_seq (newNode_spec shape strategy noFather) ?_
  rintro sc s₁ ⟨rfl, allocated⟩
  have he : graph (s₁.modifyIndex (·.set [t] (graph s).next) .scope) =
      ((graph s).allocate .scope strategy none).enter .scope (graph s).next {[t]} := by
    rw [graph_enter, allocated]
  refine register_named_spec ?_ ?_ ?_ ?_
  · rw [he]
    exact inl ⟨rfl, rfl⟩
  · rw [he]
    exact hk
  · -- a new scope has no hosts, so the host cannot be there already
    rw [he]
    rintro ⟨n, -, heap, -⟩
    exact absurd ⟨n, heap, rfl⟩ (shape.next_dead n.kind)
  · intro s2 hr d
    rw [he] at hr
    have made : graph s2 =
        ((graph s).create .scope strategy none t).register .scope r (graph s).next [t] h := hr
    rw [made]
    refine (((refl d _).tail (.create hu.1 noFather (fun _ => rfl)
      (fun _ hi => by cases hi) (shape.root_free hf))).tail
      (.register hu.1 (inl ⟨rfl, rfl⟩) (inl ⟨rfl, rfl⟩) hk)).forget ?_
    rw [shape.affected_create strategy noFather, union_empty]

omit [IterationOrder] in
theorem created_under (hu : pol.Unbounded) (shape : Graph.Shape tag ∅ (graph s))
    (scope : f ∈ (graph s).node .scope) (hp : pre ∈ (graph s).ids f)
    (hs : (graph s).strategy f = strategy) (free : ∀ k, (graph s).index k (pre ++ [t]) = none)
    (hc : graph s₁ = (graph s).create k strategy (some f) t) :
    (graph s).next ∈ (graph s₁).node k ∧ pre ++ [t] ∈ (graph s₁).ids (graph s).next ∧
      (graph s₁).known = (graph s).known ∧ Settles pol s s₁ := by
  rw [hc]
  refine ⟨inl ⟨rfl, rfl⟩, inl ⟨rfl, pre, hp, rfl⟩, rfl, fun d => hc ▸ ?_⟩
  refine (refl d _).tail (.create hu.1 (fun f' eq => Option.some_inj.mp eq ▸ scope)
    nofun (fun f' eq => ?_) (shape.branch_free scope hp free))
  rw [← Option.some_inj.mp eq, hs]

theorem tellFather_spec {p : Ptr} (ids : Node → HashSet ID) (hl : p ∈ (graph s₁).node .scope)
    (scope : f ∈ (graph s₁).node .scope) (he : Settles pol s s₁) :
    wp (deref f >>= fun father => deref p >>= fun node =>
        notifySubscribers .scopePublished (ids node) node.strategy (father.getSubscribers ∅))
      (fun _ => Settles pol s) fault s₁ := by
  refine deref_bind scope fun _ _ _ => ?_
  refine deref_bind hl fun _ _ _ => ?_
  refine wp_post (notifySubscribers_spec _ _ _ _) ?_
  rintro _ s' ⟨pkts, hs, ht⟩
  exact he.trans (.told hs ht)

variable (hu : pol.Unbounded) (sane : Sane pol (graph s)) (hk : h ∈ (graph s).known)

include hu sane hk

/-- A new scope under its father with its first host, or another host of an existing one. -/
theorem enterInnerScope_spec {fuel : Nat} (he : short ∨ 0 < fuel)
    (goOn : GoesOn pol s r (pre ++ [t]) h strategy (Stops pol.loose short) onExisting) :
    Handles pol short s (enterInnerScope fuel r h [t] pre strategy onExisting) := by
  have ⟨tag, shape⟩ := sane.inv
  simp only [enterInnerScope, wp_bind, wp_ite]
  refine ⟨fun _ => .refl s, fun notItem => ?_⟩
  refine wp_lookup .scope pre (fun _ => .refl s) fun f hf => ?_
  obtain ⟨scope, hp⟩ := shape.indexed hf
  refine wp_lookup .scope (pre ++ [t]) (fun found => ?_)
    fun sc found => enterExisting_spec onExisting hu sane hk found goOn
  refine deref_bind scope fun fatherNode hh _ => ?_
  rw [wp_ite]
  refine ⟨fun hs => ?_, fun _ => .refl s⟩
  rw [lastFragment_append_singleton]
  refine newScope_spec shape scope he strategy fun s₁ hc => ?_
  obtain ⟨hl1, has1, hk1, made⟩ := created_under hu shape scope hp ((strategy_eq hh).trans hs)
    (free_of_lookups (HashTable.get_eq_none.mpr notItem) found) hc
  refine register_spec hl1 has1 (hk1 ▸ hk) (fun _ => made) fun s2 hr => ?_
  refine tellFather_spec (·.getIDs) (hr ▸ hl1) (by rw [hr, hc]; exact inr scope) fun d => ?_
  refine ((made d).trans (Steps.register hu.1 hl1 has1 (hk1 ▸ hk) hr)).forget ?_
  rw [hc, shape.affected_create strategy (fun f' eq => Option.some_inj.mp eq ▸ scope), union_empty]

/-- A new item with its first host, or another host of an existing one. What follows deals with the
match. -/
theorem enterInfo_spec {onNew : Ptr → Ptr → RV Unit}
    (goOnNew : ∀ f s₁, (graph s).index .scope pre = some f → (graph s).strategy f = strategy →
      (∀ k, (graph s).index k (pre ++ [t]) = none) → graph s₁ = ((graph s).create .item
      strategy (some f) t).register .item r (graph s).next (pre ++ [t]) h → Sane pol (graph s₁)
      → wp (onNew (graph s).next f) (fun _ s' => ∀ d, Steps pol (d ∪ {(graph s).next}) (graph s₁) d
      (graph s')) fault s₁)
    (goOn : ∀ f pub s₁, (graph s).index .scope pre = some f → (graph s).strategy f = strategy →
      (graph s).index .item (pre ++ [t]) = some pub → graph s₁ = (graph s).register .item r pub
      (pre ++ [t]) h → Sane pol (graph s₁) → wp (onExisting pub) (fun _ s' => ∀ d, Steps pol (d
      ∪ {pub}) (graph s₁) d (graph s')) fault s₁) :
    wp (enterInfo r h [t] pre strategy onNew onExisting) (fun _ => Settles pol s) fault s := by
  have ⟨tag, shape⟩ := sane.inv
  refine wp_lookup .scope pre (fun _ => .refl s) fun f hf => ?_
  obtain ⟨scope, hp⟩ := shape.indexed hf
  rw [wp_bind, wp_read]
  refine deref_bind scope fun fatherNode hh _ => ?_
  refine wp_lookup .item (pre ++ [t]) (fun found => ?_) fun pub found => ?_
  · simp only [wp_ite]
    refine ⟨fun _ => .refl s, fun notScope => ⟨fun hs => ?_, fun _ => .refl s⟩⟩
    have free := free_of_lookups found (HashTable.get_eq_none.mpr notScope)
    have sameFather : (graph s).strategy f = strategy := (strategy_eq hh).trans hs
    rw [lastFragment_append_singleton, hs]
    refine newInformationItem_spec shape scope strategy fun s₁ hc => ?_
    obtain ⟨hl1, has1, hk1, made⟩ := created_under hu shape scope hp sameFather free hc
    refine register_spec hl1 has1 (hk1 ▸ hk) (fun _ => made) fun s2 hr => ?_
    have he := fun d =>
      (made d).trans (registerItem hu.1 hl1 has1 (hk1 ▸ hk) hr)
    rw [hc] at hr
    refine wp_post (goOnNew f s2 hf sameFather free hr (sane.steps (he ∅))) ?_
    exact fun _ s' steps d => (he d).trans (steps d)
  · obtain ⟨hl, has⟩ := shape.indexed found
    rw [wp_ite]
    refine ⟨fun hs => ?_, fun _ => .refl s⟩
    refine register_spec hl has hk (fun _ => .refl s) fun s₁ hr => ?_
    have he := fun d => registerItem (d := d) hu.1 hl has hk hr
    refine wp_post (goOn f pub s₁ hf ((strategy_eq hh).trans hs) found hr (sane.steps (he ∅))) ?_
    exact fun _ s' steps d => (he d).trans (steps d)

end Blackadder.Rendezvous
