import Blackadder.Rendezvous.OneShot
import Blackadder.Rendezvous.Relink

namespace Blackadder.Rendezvous

open Program

namespace Graph

/-- The existing item that a publication is about, if it does not create a new one. -/
def published (g : Graph) (id prefixID : ID) : Option Ptr :=
  (g.index .item (prefixID ++ lastFragment id)).or
    (if 1 < id.length then g.index .item id else none)

/-- There is no subscriber, or the item is matched once and published nowhere else. -/
def PublishedOnce (g : Graph) (id prefixID : ID) (strategy : Strategy) : Prop :=
  ∀ f, g.index .scope prefixID = some f → g.strategy f = strategy → KnownRoot prefixID →
    ((∀ i x, x ∉ g.hosts .subscriber f i) ∧
      ∀ e, g.published id prefixID = some e → g.Unsubscribed e) ∨
    ((∀ i ∈ g.ids f, rootFragment i ≠ ipRootScope) ∧
      ∀ e, g.published id prefixID = some e →
        (∀ i ∈ g.ids e, rootFragment i ≠ ipRootScope) ∧
          g.OnlyAt e (prefixID ++ lastFragment id))

end Graph

variable [IterationOrder] {pol : Policy} {s s1 : LocalRV} {h : NodeID} {pub f : Ptr}
  {t : Fragment} {id prefixID : ID} {strat : Strategy} {short : Prop} {tag : Ptr → Fragment}

theorem matchExisting_spec (hu : pol.Unbounded) (sane : Sane pol (graph s))
    (hf : (graph s).index .scope prefixID = some f) (hs : (graph s).strategy f = strat)
    (found : (graph s).index .item (prefixID ++ [t]) = some pub)
    (hr : graph s1 = (graph s).register .item .publisher pub (prefixID ++ [t]) h)
    (sane1 : Sane pol (graph s1)) (last : lastFragment id = [t])
    (once : pol.mixed ∨ pol.lasting ∨ (graph s).PublishedOnce id prefixID strat)
    (upd : Bool) : wp (allSubscribers pub >>= fun subs =>
        matchPublication pub subs [t] prefixID strat upd)
      (fun _ s' => ∀ d, Steps pol (d ∪ {pub}) (graph s1) d (graph s')) (Stops pol.loose short)
      s1 := by
  have ⟨tag, shape⟩ := sane.inv
  obtain ⟨hl, has⟩ := shape.indexed found
  obtain ⟨scope, hp⟩ := shape.indexed hf
  have shape1 := shape.hosted hr
  have hl1 : pub ∈ (graph s1).node .item := hr ▸ hl
  rw [wp_bind]
  refine allSubscribers_spec shape1 hl1 fun subs cur => ?_
  refine matchPublication_spec hu sane1 hl1 ?_ cur ?_ upd
  · rw [hr]
    exact ⟨found, f, hf, hs⟩
  rw [hr]
  rintro ⟨i, hasI, hk⟩
  rcases sane.unmixed with mixed | unmixed
  · exact .inl mixed
  have rooted : KnownRoot prefixID := (knownRoot_append _ (shape.ne_nil scope hp)).mp
    ((unmixed _ pub _ _ hl hasI has).mp hk)
  have isPublished : (graph s).published id prefixID = some pub := by
    rw [Graph.published, last, found]
    rfl
  refine once.imp_right (Or.imp_right fun ready => ?_)
  refine (ready f hf hs rooted).imp (fun both => ?_) fun both => ?_
  · rintro x (⟨i, ⟨hi, -⟩ | host⟩ | ⟨f', father, i, ⟨hi, -⟩ | host⟩)
    · cases hi
    · exact both.2 pub isPublished x (.inl ⟨i, host⟩)
    · cases hi
    · exact both.2 pub isPublished x (.inr ⟨f', father, i, host⟩)
  · obtain ⟨noIp, only⟩ := both.2 pub isPublished
    refine ⟨noIp, ?_⟩
    rintro i x (⟨-, -, hs, -⟩ | host)
    · exact hs
    · rw [only i x host, last]

variable {g : Graph}

omit [IterationOrder] in
/-- A new item has the subscribers of its father and the identifiers the father gives it. -/
theorem Graph.Shape.created (shape : Shape tag ∅ g) (strat : Strategy) (f : Ptr) (t : Fragment)
    (unhosted : ∀ r id x, x ∉ g.hosts r g.next id) :
    (∀ i, i ∈ (g.create .item strat (some f) t).ids g.next ↔ i ∈ g.branch f t) ∧
    (∀ x, x ∈ (g.create .item strat (some f) t).subscribers g.next ↔
      ∃ i, x ∈ g.hosts .subscriber f i) := by
  refine ⟨fun i => ⟨?_, fun hi => .inl ⟨rfl, hi⟩⟩, fun x => ⟨?_, ?_⟩⟩
  · rintro (⟨-, hi⟩ | old)
    · exact hi
    · exact absurd old (shape.next_unnamed i)
  · rintro (⟨i, host⟩ | ⟨f', ⟨-, hs⟩ | father, i, host⟩)
    · exact absurd host (unhosted _ i x)
    · exact ⟨i, Option.some_inj.mp hs ▸ host⟩
    · exact absurd father (shape.next_fatherless f')
  · rintro ⟨i, host⟩
    exact .inr ⟨f, .inl ⟨rfl, rfl⟩, i, host⟩

theorem advertiseInfo_spec (hu : pol.Unbounded) (sane : Sane pol (graph s))
    (hk : h ∈ (graph s).known)
    (once : pol.mixed ∨ pol.lasting ∨ (graph s).PublishedOnce [t] prefixID strat)
    (upd : Bool) : Handles pol short s (advertiseInfo h [t] prefixID strat upd) := by
  have ⟨tag, shape⟩ := sane.inv
  refine enterInfo_spec hu sane hk ?_ ?_
  · intro f s1 hf hs free hr sane1
    obtain ⟨scope, hp⟩ := shape.indexed hf
    have unhosted : ∀ r id x, x ∉ (graph s).hosts r (graph s).next id := fun r id x host => by
      obtain ⟨k, hl⟩ := hosts_live host
      exact shape.next_dead k hl
    have ⟨tag1, shape1⟩ := sane1.inv
    obtain ⟨ids, subs⟩ := shape.created strat f t unhosted
    have hl1 : (graph s).next ∈ (graph s1).node .item := by
      rw [hr]
      exact .inl ⟨rfl, rfl⟩
    have ids1 : ∀ i, i ∈ (graph s1).ids (graph s).next ↔ i ∈ (graph s).branch f t := by
      rw [hr]
      exact ids
    -- only the publisher is new, so the subscribers are those of the father
    have subs1 : ∀ x, x ∈ (graph s1).subscribers (graph s).next ↔
        ∃ i, x ∈ (graph s).hosts .subscriber f i := by
      intro x
      rw [hr, ← subs x]
      simp [Graph.subscribers, Graph.register, Graph.addHost, Graph.addRecord]
    refine deref_bind hl1 fun item here _ => ?_
    refine deref_bind (p := f) (k := .scope) (by rw [hr]; exact .inr scope)
      fun fatherNode hh _ => ?_
    refine matchPublication_spec hu sane1 hl1 ?_ ?_ ?_ upd
    · refine ⟨(shape1.index_iff _ _ _).mpr ⟨hl1, (ids1 _).mpr ⟨prefixID, hp, rfl⟩⟩, f, ?_⟩
      rw [shape1.index_iff, hr]
      refine ⟨⟨.inr scope, .inr hp⟩, (if_neg fun isNew => ?_).trans hs⟩
      exact shape.next_dead .scope (isNew ▸ scope)
    · intro x
      rw [subs1, Node.getSubscribers, Node.getSubscribers, mem_collect hh, mem_collect here, hr]
      simp [Graph.register, Graph.addHost, Graph.addRecord, Graph.create, Graph.addIDs,
        Graph.enter, Graph.addNames, Graph.allocate, unhosted]
    · rintro ⟨i, hasI, isKnownI⟩
      obtain ⟨path, paths, rfl⟩ := (ids1 i).mp hasI
      rw [knownRoot_append _ (shape.ne_nil scope paths)] at isKnownI
      rcases sane.unmixed with mixed | unmixed
      · exact .inl mixed
      have rooted := (unmixed _ f _ _ scope paths hp).mp isKnownI
      refine once.imp_right (Or.imp_right fun ready => ?_)
      refine (ready f hf hs rooted).imp (fun both x subscribed => ?_) fun both => ⟨?_, ?_⟩
      · obtain ⟨i, host⟩ := (subs1 x).mp subscribed
        exact both.1 i x host
      · intro i hasI
        obtain ⟨path, paths, rfl⟩ := (ids1 i).mp hasI
        rw [rootFragment_append path [t] (shape.ne_nil scope paths)]
        exact both.1 path paths
      · rw [hr]
        rintro i x (⟨-, -, hs, -⟩ | host)
        · exact hs
        · exact absurd host (unhosted _ i x)
  · intro f pub s1 hf hs found hr sane1
    exact matchExisting_spec hu sane hf hs found hr sane1 rfl once upd

omit [IterationOrder] in
/-- What a link under `f` adds to the subscribers and identifiers of an item. -/
theorem Graph.Shape.linked (shape : Shape tag ∅ g) {e : Ptr} (hl : e ∈ g.node .item)
    (scope : f ∈ g.node .scope) {g' : Graph}
    (linked : g' = (g.attach .item e f).addIDs .item e ((g.attach .item e f).paths e (tag e))) :
    (∀ i ∈ g'.ids e, i ∈ g.ids e ∨ i ∈ g.branch f (tag e)) ∧
    (∀ x ∈ g'.subscribers e, x ∈ g.subscribers e ∨ ∃ i, x ∈ g.hosts .subscriber f i) := by
  subst linked
  constructor
  · rintro i (⟨-, f', ⟨-, rfl⟩ | father, path, hp, rfl⟩ | old)
    · exact .inr ⟨path, hp, rfl⟩
    · exact .inl (shape.complete _ e f' path hl (Set.notMem_empty e) father hp)
    · exact .inl old
  · rintro x (⟨i, host⟩ | ⟨f', ⟨-, rfl⟩ | father, i, host⟩)
    · exact .inl (.inl ⟨i, host⟩)
    · exact .inr ⟨i, host⟩
    · exact .inl (.inr ⟨f', father, i, host⟩)

/-- An existing item gets another father and another publisher. -/
theorem readvertiseInfo_spec (hu : pol.Unbounded) (sane : Sane pol (graph s))
    (hk : h ∈ (graph s).known) (inner : 1 < id.length)
    (even : pol.uneven ∨ ∀ e f, (graph s).LinkTarget .item id prefixID strat e f →
      (graph s).strategy e = (graph s).strategy f)
    (joins : pol.mixed ∨ ∀ e f, (graph s).LinkTarget .item id prefixID strat e f →
      (graph s).SameRoots e f)
    (once : pol.mixed ∨ pol.lasting ∨ (graph s).PublishedOnce id prefixID strat)
    (upd : Bool) : Handles pol short s (readvertiseInfo h id prefixID strat upd) := by
  have ⟨tag, shape⟩ := sane.inv
  simp only [readvertiseInfo, wp_bind, wp_ite]
  refine ⟨fun _ => .refl s, fun notScope => ?_⟩
  refine wp_lookup .scope prefixID (fun _ => .refl s) fun f hf => ?_
  obtain ⟨scope, hp⟩ := shape.indexed hf
  refine wp_lookup .item id (fun _ => .refl s) fun e existing => ?_
  obtain ⟨hl, has⟩ := shape.indexed existing
  have last := shape.lastFragment_eq hl has
  refine deref_bind scope fun fatherNode hh _ => ?_
  refine wp_lookup .item (prefixID ++ lastFragment id) (fun found => ?_) fun pub found => ?_
  · rw [wp_ite]
    refine ⟨fun hs => ?_, fun _ => .refl s⟩
    have sameFather := (strategy_eq hh).trans hs
    have target : (graph s).LinkTarget .item id prefixID strat e f :=
      ⟨inner, existing, hf, free_of_lookups found (HashTable.get_eq_none.mpr notScope), sameFather⟩
    obtain ⟨-, -, notRoot, -, -, attached⟩ := target.attach shape
    have isPublished : (graph s).published id prefixID = some e := by
      rw [Graph.published, found, Option.none_or, if_pos inner, existing]
    rw [last]
    refine attach_spec hl scope fun s1 hr1 => ?_
    have shape1 : Graph.Shape tag {e} (graph s1) := hr1 ▸ attached
    have hl1 : e ∈ (graph s1).node .item := hr1 ▸ hl
    have leaf : ∀ q, e ∉ (graph s1).fathers q := fun q => shape1.toLinks.item_not_father hl1
    refine wp_seq (updateIDs_spec hl1
      (fun f' father => (shape1.fathers_live _ e f' hl1 father).1) (leaf e)
      (fun i hasI => (shape1.index_iff _ _ _).mpr ⟨hl1, hasI⟩)) fun _ s2 hr2 => ?_
    have shape2 : Graph.Shape tag ∅ (graph s2) := by
      rw [hr2]
      refine (shape1.refresh hl1 (leaf e)).weaken ?_
      rintro q (⟨hm, hd⟩ | father)
      · exact hd hm
      · exact leaf q father
    have hl2 : e ∈ (graph s2).node .item := hr2 ▸ hl1
    have has2 : prefixID ++ [tag e] ∈ (graph s2).ids e := by
      rw [hr2, hr1]
      exact .inl ⟨rfl, f, .inl ⟨rfl, rfl⟩, prefixID, hp, rfl⟩
    have hk2 : h ∈ (graph s2).known := by
      rw [hr2, hr1]
      exact hk
    rw [hr1] at hr2
    have linked : ∀ d, Steps pol d (graph s) (d ∪ {e}) (graph s2) := fun d =>
      ((Steps.refl d _).tail (.link hu.1 scope hl notRoot
        (even.imp_right fun even => even e f target)
        (joins.imp_right fun joins => joins e f target)
        (hr2 ▸ .addIDs _ _ _ _) ⟨tag, shape2⟩)).forget
        (Set.union_subset_union_right d fun x both => both.2)
    obtain ⟨ids, subs⟩ := shape.linked hl scope hr2
    refine register_spec hl2 has2 hk2 ?_ fun s3 hr3 => ?_
    · -- nobody can have published the identifier before the item got it
      rw [hr2]
      intro host
      rw [last] at found
      cases found.symm.trans ((shape.index_iff _ _ _).mpr ⟨hl, hosts_named host⟩)
    have he : ∀ d, Steps pol d (graph s) (d ∪ {e}) (graph s3) := fun d =>
      ((linked d).trans (Steps.registerItem hu.1 hl2 has2 hk2 hr3)).forget
        (Set.union_subset (Set.Subset.refl _) Set.subset_union_right)
    have sane3 := sane.steps (he ∅)
    have shape3 := shape2.hosted hr3
    have hl3 : e ∈ (graph s3).node .item := hr3 ▸ hl2
    have has3 : prefixID ++ [tag e] ∈ (graph s3).ids e := hr3 ▸ has2
    rw [matchReadvertised, wp_bind]
    refine allSubscribers_spec shape3 hl3 fun subscribers cur => ?_
    refine wp_post (matchPublication_spec hu sane3 hl3 ?_ cur ?_
      upd) fun _ s' steps d => (he d).trans (steps d)
    · refine ⟨(shape3.index_iff _ _ _).mpr ⟨hl3, has3⟩, f, ?_⟩
      rw [shape3.index_iff, hr3, hr2]
      exact ⟨⟨scope, .inr hp⟩, sameFather⟩
    rintro ⟨i, hasI, isKnownI⟩
    rcases sane3.unmixed with mixed | unmixed
    · exact .inl mixed
    have rooted := (knownRoot_append _ (shape.ne_nil scope hp)).mp
      ((unmixed _ e _ _ hl3 hasI has3).mp isKnownI)
    refine once.imp_right (Or.imp_right fun ready => ?_)
    rw [hr3]
    refine (ready f hf sameFather rooted).imp (fun both x subscribed => ?_) fun both => ?_
    · have old : x ∈ (graph s2).subscribers e := by
        simpa [Graph.subscribers, Graph.register, Graph.addHost, Graph.addRecord] using subscribed
      rcases subs x old with before | ⟨i, host⟩
      · exact both.2 e isPublished x before
      · exact both.1 i x host
    · obtain ⟨noIp, only⟩ := both.2 e isPublished
      refine ⟨fun i hasI => ?_, ?_⟩
      · rcases ids i hasI with before | ⟨path, paths, rfl⟩
        · exact noIp i before
        · rw [rootFragment_append path _ (shape.ne_nil scope paths)]
          exact both.1 path paths
      · rw [hr2]
        rintro i x (⟨-, -, hs, -⟩ | host)
        · exact hs
        · rw [only i x host, last]
  · rw [wp_ite]
    refine ⟨fun hs => ?_, fun _ => .refl s⟩
    rw [last] at found ⊢
    obtain ⟨livePub, hasPub⟩ := shape.indexed found
    refine register_spec livePub hasPub hk (fun _ => .refl s) fun s1 hr => ?_
    have he := fun d =>
      Steps.registerItem (d := d) hu.1 livePub hasPub hk hr
    refine wp_post (matchExisting_spec hu sane hf
      ((strategy_eq hh).trans hs) found hr (sane.steps (he ∅)) last once upd) ?_
    exact fun _ s' steps d => (he d).trans (steps d)

end Blackadder.Rendezvous
