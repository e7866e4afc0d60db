import Blackadder.Rendezvous.Create

namespace Blackadder.Rendezvous

open Program Rendezvous.Graph Relation Set ReflTransGen

namespace Graph

variable {g : Graph} {tag : Ptr → Fragment} {e f : Ptr} {k : Kind}

/-- The node `e` that a request puts under the scope `f`, which has no child of that name yet. -/
structure LinkTarget (g : Graph) (k : Kind) (id prefixID : ID) (strategy : Strategy)
    (e f : Ptr) : Prop where
  inner : 1 < id.length
  existing : g.index k id = some e
  father : g.index .scope prefixID = some f
  free : ∀ k', g.index k' (prefixID ++ lastFragment id) = none
  same : g.strategy f = strategy

/-- `f` is `e` or lies below it. -/
def Below (g : Graph) (e f : Ptr) : Prop := Relation.ReflTransGen g.Father e f

theorem attach_father {a b : Ptr} :
    (g.attach k e f).Father a b ↔ g.Father a b ∨ (a = f ∧ b = e) := by
  simp only [Father, attach, addFather, addChild, mem_ofPred_eq]
  tauto

theorem Shape.acyclic_attach (shape : Shape tag ∅ g) (apart : ¬ g.Below e f) :
    Acyclic (g.attach k e f).Father := by
  obtain ⟨lifted, hr⟩ := shape.ranked.addEdge apart
  have hs : (g.attach k e f).Father = fun a b => g.Father a b ∨ (a = f ∧ b = e) := by
    funext a b
    exact propext attach_father
  exact hs ▸ hr.acyclic

theorem Links.ancestors_lt {pending : Set Ptr} (shape : Shape tag pending g)
    (acyclic : Acyclic g.Father) {p : Ptr} (hl : p ∈ g.node k) :
    { a | TransGen g.Father a p }.Finite ∧ { a | TransGen g.Father a p }.ncard < g.next := by
  have hb : { a | TransGen g.Father a p } ⊆ { a | a < g.next } := by
    intro a path
    obtain ⟨b, step, -⟩ := TransGen.head'_iff.mp path
    obtain ⟨k', liveB⟩ := shape.live_of_father b a step
    exact shape.fresh .scope a (shape.fathers_live k' b a liveB step).1
  have hf : { a | a < g.next }.Finite := finite_lt_nat g.next
  have card : { a | a < g.next }.ncard = g.next := by
    have range : { a | a < g.next } = (Finset.range g.next : Set Nat) := by
      ext a
      simp
    rw [range, ncard_coe_finset, Finset.card_range]
  refine ⟨hf.subset hb, ?_⟩
  rw [← card]
  refine ncard_lt_ncard ⟨hb, fun hi => ?_⟩ hf
  exact acyclic p (hi (shape.fresh k p hl))

theorem LinkTarget.attach {id pre : ID} {strat : Strategy} (shape : Shape tag ∅ g)
    (target : g.LinkTarget k id pre strat e f) :
    lastFragment id = [tag e] ∧ e ∈ g.node k ∧ e ∉ g.root ∧ f ∈ g.node .scope ∧
      pre ∈ g.ids f ∧ Shape tag {e} (g.attach k e f) := by
  obtain ⟨hl, has⟩ := shape.indexed target.existing
  obtain ⟨scope, hp⟩ := shape.indexed target.father
  have last := shape.lastFragment_eq hl has
  have inner : e ∉ g.root := by
    intro root
    have long := target.inner
    rcases shape.sound k e id hl has with ⟨-, rfl⟩ | ⟨notRoot, -⟩
    · exact Nat.lt_irrefl 1 long
    · exact notRoot root
  have free := target.free
  rw [last] at free
  exact ⟨last, hl, inner, scope, hp, shape.attach scope hl inner (shape.branch_free scope hp free)⟩

end Graph

variable [IterationOrder] {pol : Policy} {s s1 : LocalRV} {h : NodeID} {e f : Ptr}
  {id pre : ID} {strat : Strategy} {short : Prop} {tag : Ptr → Fragment}

/-- A link to the scope itself or below it closes a cycle, and the recursion never ends. -/
theorem realias_endless (shape : Shape tag {e} ((graph s).attach .scope e f))
    (before : Shape tag ∅ (graph s)) (scope : f ∈ (graph s).node .scope)
    (hb : (graph s).Below e f) (fuel : Nat) (hr : graph s1 = (graph s).attach .scope e f) :
    wlp (recursivelyUpdateIDs fuel e [tag e]) (fun _ _ => False) s1 := by
  rw [← hr] at shape
  -- everything on a path from `e` to `f` lists a child on such a path, and `f` lists `e`
  refine recursivelyUpdateIDs_endless { y | (graph s).Below e y ∧ (graph s).Below y f } fuel
    (shape.weaken (subset_univ _)) ?_ ⟨refl, hb⟩
  have isScope : ∀ {y}, (graph s).Below y f → y ∈ (graph s).node .scope := by
    intro y path
    rcases cases_head path with rfl | ⟨c, step, -⟩
    · exact scope
    · obtain ⟨k, hl⟩ := before.live_of_father c y step
      exact (before.fathers_live k c y hl step).1
  rintro y ⟨down, up⟩
  rw [hr]
  refine ⟨isScope up, ?_⟩
  rcases cases_head up with rfl | ⟨c, step, rest⟩
  · exact ⟨e, ⟨refl, hb⟩, Or.inl ⟨rfl, rfl, rfl⟩⟩
  · have linked := (before.fathers_live .scope c y (isScope rest) step).2
    exact ⟨c, ⟨down.tail step, rest⟩, Or.inr linked⟩

variable {fuel : Nat}

/-- After a link the identifiers are complete again, unless the link closes a cycle. -/
theorem realias_spec (shape : Shape tag {e} ((graph s).attach .scope e f))
    (before : Shape tag ∅ (graph s)) (hl : e ∈ (graph s).node .scope)
    (scope : f ∈ (graph s).node .scope) (loose : Prop)
    (kept : loose ∨ ((graph s).attach .scope e f).ChildrenLive)
    (he : short ∨ (¬ (graph s).Below e f ∧ (graph s).next ≤ fuel))
    (hr : graph s1 = (graph s).attach .scope e f) : wp (recursivelyUpdateIDs fuel e [tag e])
      (fun _ s' => ¬ (graph s).Below e f ∧ Shape tag ∅ (graph s') ∧ Grows (graph s1) (graph s'))
      (Stops loose short) s1 := by
  have hl1 : e ∈ (graph s1).node .scope := hr ▸ hl
  rw [← hr] at shape kept
  by_cases apart : (graph s).Below e f
  · have isShort := he.resolve_right fun both => both.1 apart
    have sound := recursivelyUpdateIDs_sound loose fuel (shape.weaken (subset_univ _)) hl1 kept
    refine wp_mono (wp_and (realias_endless (hr ▸ shape) before scope apart fuel hr)
      sound) (fun _ _ hi => hi.1.elim) ?_
    rintro (_ | _) ⟨-, stops⟩
    · exact stops
    · exact isShort
  · have acyclic : Acyclic (graph s1).Father := hr ▸ before.acyclic_attach apart
    have hasRank := acyclic.ranked fun p => by
      by_cases ha : ∃ k, p ∈ (graph s1).node k
      · obtain ⟨k, ha⟩ := ha
        exact (Links.ancestors_lt shape acyclic ha).1
      · refine Set.Finite.subset finite_empty fun a path => ha ?_
        obtain ⟨b, -, step⟩ := TransGen.tail'_iff.mp path
        exact shape.live_of_father p b step
    refine wp_post (recursivelyUpdateIDs_complete loose short fuel shape hasRank hl1 kept
      (fun y ha => (Links.ancestors_lt shape acyclic ha).2) (he.imp_right fun both => ?_)) ?_
    · rw [hr]
      exact Nat.le_add_right_of_le both.2
    · rintro _ s' ⟨hc, hg⟩
      rw [sdiff_self] at hc
      exact ⟨apart, hc, hg⟩

theorem attach_spec {k : Kind} {fault : Fault → Prop} (hl : e ∈ (graph s).node k)
    (scope : f ∈ (graph s).node .scope) {next : RV RvReturnCode}
    {post : RvReturnCode → LocalRV → Prop}
    (goOn : ∀ s', graph s' = (graph s).attach k e f → wp next post fault s') :
    wp (assign e (fun node => { node with fatherScopes := node.fatherScopes.insert f }) >>= fun _ =>
      assign f (·.modifyChildren (·.insert e) k) >>= fun _ => next) post fault s := by
  refine wp_seq (assign_spec (fun g => g.addFather e f)
    (fun n hf => graph_addFather hf) hl) fun _ s1 hr1 => ?_
  refine wp_seq (assign_spec (k := .scope) (fun g => g.addChild k e f)
    (fun n hf => graph_addChild hf) (by rw [hr1]; exact scope)) fun _ s2 hr2 => ?_
  exact goOn s2 (by rw [hr2, hr1]; rfl)

/-- An existing scope gets another father, with all identifiers at and below it. -/
theorem republishInnerScope_spec (hu : pol.Unbounded) (sane : Sane pol (graph s))
    (hk : h ∈ (graph s).known) (inner : 1 < id.length)
    (even : pol.uneven ∨ ∀ e f, (graph s).LinkTarget .scope id pre strat e f →
      (graph s).strategy e = (graph s).strategy f)
    (joins : pol.mixed ∨ ∀ e f, (graph s).LinkTarget .scope id pre strat e f →
      (graph s).SameRoots e f)
    (he : short ∨ ((∀ e f, (graph s).LinkTarget .scope id pre strat e f →
      ¬ (graph s).Below e f) ∧ (graph s).next ≤ fuel)) :
    Handles pol short s (republishInnerScope fuel h id pre strat) := by
  have ⟨tag, shape⟩ := sane.inv
  simp only [republishInnerScope, wp_bind, wp_ite]
  refine ⟨fun _ => .refl s, fun notItem => ?_⟩
  refine wp_lookup .scope pre (fun _ => .refl s) fun f hf => ?_
  refine wp_lookup .scope id (fun _ => .refl s) fun e existing => ?_
  refine wp_lookup .scope (pre ++ lastFragment id) (fun found => ?_) fun sc found =>
    enterExisting_spec (fun _ => pure ()) hu sane hk found fun sc s1 _ _ _ _ d => ?_
  · refine deref_bind (shape.indexed hf).1 fun fatherNode hh _ => ?_
    rw [wp_ite]
    refine ⟨fun hs => ?_, fun _ => .refl s⟩
    have target : (graph s).LinkTarget .scope id pre strat e f :=
      ⟨inner, existing, hf, free_of_lookups (HashTable.get_eq_none.mpr notItem) found,
        (strategy_eq hh).trans hs⟩
    obtain ⟨last, hl, notRoot, scope, hp, attached⟩ := target.attach shape
    rw [last]
    refine attach_spec hl scope fun s2 hr2 => ?_
    have ha : pol.loose ∨ ((graph s).attach .scope e f).ChildrenLive := by
      refine sane.childrenLive.imp_right fun ha => ?_
      rintro c f' (⟨-, -, rfl⟩ | linked)
      · exact hl
      · exact ha c f' linked
    refine wp_seq (realias_spec attached shape hl scope pol.loose ha
      (he.imp_right fun both => ⟨both.1 e f target, both.2⟩) hr2) ?_
    rintro _ s3 ⟨-, shape3, hg⟩
    have relinked : Settles pol s s3 := fun d =>
      ((Steps.refl d _).tail (.link hu.1 scope hl notRoot
        (even.imp_right fun even => even e f target)
        (joins.imp_right fun joins => joins e f target)
        (hr2 ▸ hg) ⟨tag, shape3⟩)).forget (by
          rintro x (inside | ⟨hi, -⟩)
          · exact inside
          · cases hi)
    have hl3 : e ∈ (graph s3).node .scope := by
      rw [hg.node, hr2]
      exact hl
    have has3 : pre ++ [tag e] ∈ (graph s3).ids e := by
      refine shape3.complete .scope e f pre hl3 (notMem_empty e) ?_
        (hg.more f (by rw [hr2]; exact hp))
      rw [hg.fathers, hr2]
      exact Or.inl ⟨rfl, rfl⟩
    have hk3 : h ∈ (graph s3).known := by
      rw [hg.frame, hr2]
      exact hk
    refine register_spec hl3 has3 hk3 (fun _ => relinked) fun s4 hr4 => ?_
    refine tellFather_spec (·.getIDs.erase (id.take (id.length - 1) ++ [tag e])) (hr4 ▸ hl3) ?_
      fun d => ?_
    · rw [hr4]
      change f ∈ (graph s3).node .scope
      rw [hg.node, hr2]
      exact scope
    · refine ((relinked d).trans (Steps.register hu.1 hl3 has3 hk3 hr4)).forget ?_
      rw [affected_scope_publisher, union_empty]
  · rw [affected_scope_publisher, union_empty]
    exact .refl d _

end Blackadder.Rendezvous
