import Blackadder.Rendezvous.Handlers
import Blackadder.Rendezvous.Graph

namespace Blackadder.Rendezvous

open HashTable Rendezvous.Graph Set

/-- The graph that the heap, the indexes and the host records represent. -/
def graph (s : LocalRV) : Graph where
  node k := { p | ∃ n, s.heap p = some n ∧ n.kind = k }
  strategy p := ((s.heap p).map (·.strategy)).getD 0
  root := { p | ∃ n, s.heap p = some n ∧ n.isRoot = true }
  fathers p := { f | ∃ n, s.heap p = some n ∧ f ∈ n.fatherScopes }
  children k p := { c | ∃ n, s.heap p = some n ∧ c ∈ n.children k }
  ids p := { id | ∃ n, s.heap p = some n ∧ id ∈ n.ids }
  hosts r p id :=
    { h | ∃ n pair, s.heap p = some n ∧ n.ids.get id = some pair ∧ h ∈ pair.hosts r }
  index k id := (s.index k).get id
  known := { h | h ∈ s.pubSubIndex }
  records k r h := { id | ∃ host, s.pubSubIndex.get h = some host ∧ id ∈ host.record k r }
  next := s.next
  log := s.out

variable {s : LocalRV} {p f : Ptr} {n : Node} {k k' : Kind} {r : Role} {id : ID} {h : NodeID}

section

variable (hf : s.heap p = some n)

include hf

theorem mem_node : p ∈ (graph s).node k ↔ n.kind = k := by
  simp [graph, hf]

theorem strategy_eq : (graph s).strategy p = n.strategy := by
  simp [graph, hf]

theorem mem_root : p ∈ (graph s).root ↔ n.isRoot = true := by
  simp [graph, hf]

theorem mem_fathers : f ∈ (graph s).fathers p ↔ f ∈ n.fatherScopes := by
  simp [graph, hf]

theorem mem_children : f ∈ (graph s).children k p ↔ f ∈ n.children k := by
  simp [graph, hf]

theorem mem_ids : id ∈ (graph s).ids p ↔ id ∈ n.ids := by
  simp [graph, hf]

theorem mem_hosts : h ∈ (graph s).hosts r p id ↔
    ∃ pair, n.ids.get id = some pair ∧ h ∈ pair.hosts r := by
  simp [graph, hf]

end

@[simp] theorem heap_store (s : LocalRV) (p x : Ptr) (node : Option Node) :
    (s.store p node).heap x = if x = p then node else s.heap x := rfl

theorem graph_modifyIndex (s : LocalRV) (change : HashTable ID Ptr → HashTable ID Ptr) (k : Kind) :
    graph (s.modifyIndex change k) =
      { graph s with index := fun k' id =>
          (if k' = k then change (s.index k') else s.index k').get id } := by
  cases k <;> ext <;> simp only [graph, LocalRV.modifyIndex, LocalRV.index] <;> grind

section

variable (hf : s.heap p = some n)

include hf

theorem graph_addFather [IterationOrder] :
    graph (s.store p (some { n with fatherScopes := n.fatherScopes.insert f })) =
      (graph s).addFather p f := by
  ext <;> simp only [graph, addFather, heap_store, mem_ofPred_eq] <;> first | rfl | grind

theorem graph_eraseFather :
    graph (s.store p (some { n with fatherScopes := n.fatherScopes.erase f })) =
      (graph s).eraseFather p f := by
  ext <;> simp only [graph, eraseFather, heap_store, mem_ofPred_eq] <;>
    first | rfl | grind

theorem graph_addChild [IterationOrder] :
    graph (s.store p (some (n.modifyChildren (·.insert f) k))) = (graph s).addChild k f p := by
  ext <;> simp only [graph, addChild, heap_store, mem_ofPred_eq] <;> first | rfl | grind

theorem graph_eraseChild : graph (s.store p (some (n.modifyChildren (·.erase f) k))) =
      (graph s).eraseChild k f (some p) := by
  ext <;> simp only [graph, eraseChild, heap_store, mem_ofPred_eq] <;>
    first | rfl | grind

theorem graph_addHost [IterationOrder] (has : id ∈ n.ids) : graph (s.store p (some
        { n with ids := n.ids.modify id (·.modifyHosts (·.insert h) r) })) =
      (graph s).addHost r p id h := by
  obtain ⟨pair, hl⟩ := mem_iff_get.mp has
  ext <;> simp only [graph, addHost, heap_store, mem_ofPred_eq] <;> first | rfl | grind

theorem graph_addNameHost [IterationOrder] (new : id ∉ n.ids) {pair : RemoteHostPair}
    (content : ∀ r' h', h' ∈ pair.hosts r' ↔ r' = r ∧ h' = h) :
    graph (s.store p (some { n with ids := n.ids.set id pair })) =
      ((graph s).addNames p {id}).addHost r p id h := by
  have none : n.ids.get id = none := get_eq_none.mpr new
  ext r' q id' h' <;> simp only [graph, addHost, addNames, heap_store, mem_ofPred_eq]
  case hosts =>
    by_cases here : q = p
    · by_cases hn : id' = id <;> simp [here, hf, hn, none, content, get_set]
    · simp [here]
  all_goals first | rfl | grind

theorem graph_eraseHost : graph (s.store p (some
        { n with ids := n.ids.modify id (·.modifyHosts (·.erase h) r) })) =
      (graph s).eraseHost r p id h := by
  cases hl : n.ids.get id <;> ext <;>
    simp only [graph, eraseHost, heap_store, mem_ofPred_eq] <;> first | rfl | grind

theorem graph_addName [IterationOrder] (new : id ∉ n.ids) :
    graph (s.store p (some { n with ids := n.ids.set id {} })) = (graph s).addNames p {id} := by
  have none : n.ids.get id = none := get_eq_none.mpr new
  ext <;> simp only [graph, addNames, heap_store, mem_ofPred_eq] <;> first | rfl | grind
    [cases Role, RemoteHostPair.hosts]

theorem graph_eraseName :
    graph (s.store p (some { n with ids := n.ids.erase id })) = (graph s).eraseNames p {id} := by
  ext <;> simp only [graph, eraseNames, heap_store, mem_ofPred_eq] <;> first | rfl | grind

end

theorem graph_drop : graph (s.store p none) = (graph s).drop p := by
  ext <;> simp only [graph, drop, heap_store, mem_ofPred_eq] <;> first | rfl | grind

theorem graph_enter [IterationOrder] :
    graph (s.modifyIndex (·.set id p) k) = (graph s).enter k p {id} := by
  rw [graph_modifyIndex]
  simp only [graph]
  congr
  grind

theorem graph_unindex : graph (s.modifyIndex (·.erase id) k) = (graph s).unindex k {id} := by
  rw [graph_modifyIndex]
  simp only [graph]
  congr
  grind

theorem graph_meet [IterationOrder] :
    graph { s with pubSubIndex := s.pubSubIndex.findInsert h {} } = (graph s).meet h := by
  ext <;> simp only [graph, meet, mem_ofPred_eq] <;>
    first | rfl | grind [cases Role, cases Kind, RemoteHost.record, mem_iff_get]

theorem graph_addRecord [IterationOrder] (hk : h ∈ s.pubSubIndex) :
    graph { s with pubSubIndex := s.pubSubIndex.modify h (·.modifyRecord (·.insert id) k r) } =
      (graph s).addRecord k r id h := by
  obtain ⟨host, hl⟩ := mem_iff_get.mp hk
  ext <;> simp only [graph, addRecord, mem_ofPred_eq] <;> first | rfl | grind

theorem graph_eraseRecord :
    graph { s with pubSubIndex := s.pubSubIndex.modify h (·.modifyRecord (·.erase id) k r) } =
      (graph s).eraseRecord k r id h := by
  cases hl : s.pubSubIndex.get h <;> ext <;>
    simp only [graph, eraseRecord, mem_ofPred_eq] <;> first | rfl | grind

open Program

variable {fault : Fault → Prop}

theorem deref_spec {post : Node → LocalRV → Prop} (hl : p ∈ (graph s).node k)
    (next : ∀ n, s.heap p = some n → n.kind = k → post n s) : wp (deref p) post fault s := by
  obtain ⟨n, hf, kind⟩ := hl
  simp only [deref, wp_bind, wp_read, hf]
  exact next n hf kind

theorem deref_bind {α : Type} {post : α → LocalRV → Prop} {next : Node → RV α}
    (hl : p ∈ (graph s).node k)
    (then' : ∀ n, s.heap p = some n → n.kind = k → wp (next n) post fault s) :
    wp (deref p >>= next) post fault s :=
  (wp_bind _ _).mpr (deref_spec hl then')

theorem assign_spec {change : Node → Node} (effect : Graph → Graph) (hs : ∀ n, s.heap p = some n →
      graph (s.store p (some (change n))) = effect (graph s)) (hl : p ∈ (graph s).node k) :
    wp (assign p change) (fun _ s' => graph s' = effect (graph s)) fault s := by
  simp only [assign]
  refine deref_bind hl fun n hf _ => ?_
  exact hs n hf

theorem keys_spec (hf : s.heap p = some n) : id ∈ n.ids.keys ↔ id ∈ (graph s).ids p :=
  (mem_ids hf).symm

variable [IterationOrder]

theorem addID_spec (hl : p ∈ (graph s).node k)
    (ho : id ∈ (graph s).ids p → (graph s).index k id = some p) :
    wp (addID k p id) (fun _ s' => graph s' = (graph s).addIDs k p {id}) fault s := by
  simp only [addID]
  refine deref_bind hl fun n hf kind => ?_
  rw [wp_ite]
  constructor
  · intro has
    have hm := (mem_ids hf).mpr has
    exact (addIDs_known hm (ho hm)).symm
  · intro new
    simp only [wp_bind, wp_update]
    have stillLive : p ∈ (graph (s.modifyIndex (·.set id p) k)).node k := by
      rw [graph_enter]
      exact hl
    refine wp_post (assign_spec (fun g => g.addNames p {id}) ?_ stillLive) ?_
    · intro n' hf'
      have same : n' = n := by
        have heap : (s.modifyIndex (·.set id p) k).heap p = s.heap p := by cases k <;> rfl
        rw [heap, hf] at hf'
        exact (Option.some_inj.mp hf').symm
      exact graph_addName hf' (same ▸ new)
    · intro _ s' hr
      rw [hr, graph_enter]
      rfl

/-- One turn of the father loop: `p` gets every identifier that the father gives it. -/
theorem addBranch_spec {suffix : ID} {ids : List ID} (hl : p ∈ (graph s).node k)
    (ho : ∀ id ∈ (graph s).ids p, (graph s).index k id = some p) :
    wp (forM ids fun id => addID k p (id ++ suffix))
      (fun _ s' => graph s' = (graph s).addIDs k p { id | ∃ path ∈ ids, id = path ++ suffix })
      fault s := by
  refine wp_forM_visited ids _ (fun seen s' =>
    graph s' = (graph s).addIDs k p { id | ∃ path ∈ seen, id = path ++ suffix }) ?_ s ?_
  · intro seen path rest s' _ hr
    have hl' : p ∈ (graph s').node k := by rw [hr]; exact hl
    refine wp_post (addID_spec hl' ?_) ?_
    · rw [hr]
      exact addIDs_owned ho _ _
    intro _ s'' after
    rw [after, hr, addIDs_addIDs]
    congr 1
    ext id
    simp [or_comm]
  · have he : { id : ID | ∃ path ∈ ([] : List ID), id = path ++ suffix } = ∅ := by
      ext id
      simp
    rw [he, addIDs_empty]

/-- `updateIDs` gives `p` all identifiers of its fathers, unless `p` is its own father. -/
theorem updateIDs_spec {tag : Fragment} (hl : p ∈ (graph s).node k)
    (fathers : ∀ f ∈ (graph s).fathers p, f ∈ (graph s).node .scope)
    (loopless : p ∉ (graph s).fathers p)
    (ho : ∀ id ∈ (graph s).ids p, (graph s).index k id = some p) : wp (updateIDs k p [tag])
      (fun _ s' => graph s' = (graph s).addIDs k p ((graph s).paths p tag)) fault s := by
  simp only [updateIDs]
  refine deref_bind hl fun n hf _ => ?_
  refine wp_post (wp_forM_visited n.fatherScopes.keys _ (fun seen s' =>
    graph s' = (graph s).addIDs k p { id | ∃ f ∈ seen, id ∈ (graph s).branch f tag })
    ?_ s ?_) ?_
  · intro seen f rest s' split hr
    have father : f ∈ (graph s).fathers p := by
      rw [mem_fathers hf, ← mem_keys, split]
      simp
    have hd : f ≠ p := fun same => loopless (same ▸ father)
    have scope : f ∈ (graph s').node .scope := by
      rw [hr]
      exact fathers f father
    have hl' : p ∈ (graph s').node k := by
      rw [hr]
      exact hl
    refine deref_bind scope fun fatherNode found _ => ?_
    refine wp_post (addBranch_spec hl' ?_) ?_
    · rw [hr]
      exact addIDs_owned ho _
    intro _ s'' after
    rw [after, hr, addIDs_addIDs]
    congr 1
    ext id
    have keys : ∀ path, path ∈ fatherNode.ids.keys ↔ path ∈ (graph s).ids f := by
      intro path
      rw [keys_spec found, hr]
      simp [addIDs, enter, addNames, hd]
    simp [keys, branch]
  · have he : { id | ∃ f ∈ ([] : List Ptr), id ∈ (graph s).branch f tag } = ∅ := by
      ext id
      simp
    rw [he, addIDs_empty]
  · intro _ s' hr
    rw [hr]
    congr 1
    ext id
    simp [paths, mem_fathers hf, mem_keys]

section

variable {tag : Ptr → Fragment}

/-- Whatever the fathers of `p` are, the identifiers stay sound. -/
theorem updateIDs_sound (shape : Shape tag univ (graph s)) (hl : p ∈ (graph s).node k) :
    wp (updateIDs k p [tag p])
      (fun _ s' => Shape tag univ (graph s') ∧ Grows (graph s) (graph s')) fault s := by
  simp only [updateIDs]
  refine deref_bind hl fun n hf _ => ?_
  refine wp_forM _ _ (fun s' =>
    Shape tag univ (graph s') ∧ Grows (graph s) (graph s')) ?_ s
    ⟨shape, .refl _⟩
  rintro f father s1 ⟨shape1, hg1⟩
  have isFather : f ∈ (graph s1).fathers p := by
    rw [hg1.fathers, mem_fathers hf]
    exact father
  have hl1 : p ∈ (graph s1).node k := hg1.node ▸ hl
  refine deref_bind (shape1.fathers_live k p f hl1 isFather).1 fun fatherNode found _ => ?_
  refine wp_forM _ _ (fun s' =>
    Shape tag univ (graph s') ∧ Grows (graph s1) (graph s')) ?_ s1
    ⟨shape1, .refl _⟩ |> fun loop => wp_post loop fun _ s' hr =>
      ⟨hr.1, hg1.trans hr.2⟩
  rintro path hp s2 ⟨shape2, hg2⟩
  have hl2 : p ∈ (graph s2).node k := hg2.node ▸ hl1
  have hg : {path ++ [tag p]} ⊆ (graph s2).paths p (tag p) := by
    rintro id rfl
    refine ⟨f, hg2.fathers ▸ isFather, path, hg2.more f ?_, rfl⟩
    exact (keys_spec found).mp hp
  refine wp_post (addID_spec hl2 fun has => (shape2.index_iff k _ p).mpr ⟨hl2, has⟩) ?_
  intro _ s3 hr
  rw [hr]
  exact ⟨(shape2.addPaths hl2 hg).weaken (subset_univ _), hg2.trans (.addIDs _ k p _)⟩

variable {post : ID → LocalRV → Prop}

omit [IterationOrder] in
theorem firstID_of_ids (hf : s.heap p = some n) (hn : ∃ id, id ∈ (graph s).ids p)
    (next : ∀ id ∈ (graph s).ids p, post id s) : wp (firstID n) post fault s := by
  obtain ⟨id, has⟩ := hn
  obtain ⟨first, isFirst⟩ := first?_isSome ((mem_ids hf).mp has)
  simp only [firstID, isFirst]
  exact next first ((mem_ids hf).mpr (mem_of_first? isFirst))

omit [IterationOrder] in
theorem firstID_spec {pending : Set Ptr} (shape : Shape tag pending (graph s))
    (hf : s.heap p = some n)
    (next : ∀ id, id ∈ (graph s).ids p → lastFragment id = [tag p] → post id s) :
    wp (firstID n) post fault s := by
  have hl : p ∈ (graph s).node n.kind := (mem_node hf).mpr rfl
  refine firstID_of_ids hf (shape.named n.kind p hl) fun first has => next first has ?_
  exact shape.lastFragment_eq hl has

end

open List

variable {x c : Ptr} {tag : Ptr → Fragment} {pending : Set Ptr}

/-- The faults that are put up with: a use of a missing object, a recursion cut off. -/
def Stops (loose short : Prop) : Fault → Prop
  | .missing => loose
  | .outOfFuel => short

omit [IterationOrder] in
/-- Both loops look up the last fragment of a child before they go on with it. -/
theorem visit_spec {post : Unit → LocalRV → Prop} {body : ID → RV Unit}
    (shape : Shape tag pending (graph s)) (hl : c ∈ (graph s).children k x)
    (dead : c ∉ (graph s).node k → fault .missing)
    (ha : c ∈ (graph s).node k → wp (body [tag c]) post fault s) :
    wp (deref c >>= fun node => firstID node >>= fun id => body (lastFragment id))
      post fault s := by
  cases hf : s.heap c with
  | none =>
    have missing : c ∉ (graph s).node k := by simp [graph, hf]
    simp only [deref, wp_bind, wp_read, hf]
    exact dead missing
  | some node =>
    have kind := (shape.children_known k node.kind c x hl ((mem_node hf).mpr rfl)).1
    have live : c ∈ (graph s).node k := (mem_node hf).mpr kind
    refine deref_bind live fun node hf _ => ?_
    rw [wp_bind]
    refine firstID_spec shape hf fun id _ last => ?_
    rw [last]
    exact ha live

/-- The recursion keeps the identifiers sound, and no object is missing unless a scope lists a
deleted child. -/
theorem recursivelyUpdateIDs_sound (loose : Prop) (fuel : Nat)
    (shape : Shape tag univ (graph s)) (live : x ∈ (graph s).node .scope)
    (kept : loose ∨ (graph s).ChildrenLive) : wp (recursivelyUpdateIDs fuel x [tag x])
      (fun _ s' => Shape tag univ (graph s') ∧ Grows (graph s) (graph s'))
      (Stops loose True) s := by
  induction fuel generalizing s x with
  | zero => exact trivial
  | succ fuel ih =>
    simp only [recursivelyUpdateIDs, wp_bind]
    refine wp_post (updateIDs_sound shape live) ?_
    rintro _ s1 ⟨shape1, hg1⟩
    refine deref_spec (hg1.node ▸ live) fun n hf _ => ?_
    refine wp_post (wp_forM _ _ (fun s' =>
      Shape tag univ (graph s') ∧ Grows (graph s) (graph s')) ?_ s1
      ⟨shape1, hg1⟩) ?_
    · rintro child hm s2 ⟨shape2, hg2⟩
      have hl : child ∈ (graph s2).children .scope x := by
        rw [hg2.children, ← hg1.children, mem_children hf]
        exact hm
      have kept2 : loose ∨ (graph s2).ChildrenLive := by
        rw [ChildrenLive, hg2.children, hg2.node]
        exact kept
      refine visit_spec shape2 hl ?_ ?_
      · intro dead
        exact kept2.resolve_right fun ha => dead (ha child x hl)
      intro ha
      refine wp_post (ih shape2 ha kept2) ?_
      rintro _ s3 ⟨shape3, hg3⟩
      exact ⟨shape3, hg2.trans hg3⟩
    · rintro _ s2 ⟨shape2, hg2⟩
      refine wp_forM _ _ (fun s' =>
        Shape tag univ (graph s') ∧ Grows (graph s) (graph s')) ?_ s2
        ⟨shape2, hg2⟩
      rintro pub hm s3 ⟨shape3, hg3⟩
      have hl : pub ∈ (graph s3).children .item x := by
        rw [hg3.children, ← hg1.children, mem_children hf]
        exact hm
      refine visit_spec shape3 hl ?_ ?_
      · exact fun dead => absurd (shape3.items_live pub x hl) dead
      intro ha
      refine wp_post (updateIDs_sound shape3 ha) ?_
      rintro _ s4 ⟨shape4, hg4⟩
      exact ⟨shape4, hg3.trans hg4⟩

/-- Without cycles the recursion completes all at and below `x`, within the rank of the node. -/
theorem recursivelyUpdateIDs_complete (loose short : Prop) {rank : Ptr → Nat} {bound : Nat}
    (fuel : Nat) (shape : Shape tag pending (graph s))
    (ranked : Ranked (graph s).Father rank) (live : x ∈ (graph s).node .scope)
    (kept : loose ∨ (graph s).ChildrenLive) (hb : ∀ y ∈ (graph s).node .scope, rank y < bound)
    (he : short ∨ bound ≤ fuel + rank x) : wp (recursivelyUpdateIDs fuel x [tag x])
      (fun _ s' => Shape tag (pending \ {x}) (graph s') ∧ Grows (graph s) (graph s'))
      (Stops loose short) s := by
  induction fuel generalizing s x pending with
  | zero =>
    refine he.resolve_right fun hr => ?_
    have high := hb x live
    omega
  | succ fuel ih =>
    have loopless : x ∉ (graph s).fathers x := fun father =>
      Nat.lt_irrefl _ (ranked x x father)
    simp only [recursivelyUpdateIDs, wp_bind]
    refine wp_post (updateIDs_spec live
      (fun f father => (shape.fathers_live .scope x f live father).1) loopless
      (fun id has => (shape.index_iff .scope id x).mpr ⟨live, has⟩)) ?_
    intro _ s1 hr
    have hg1 : Grows (graph s) (graph s1) := hr ▸ .addIDs _ _ _ _
    have shape1 := shape.refresh live loopless
    rw [← hr] at shape1
    refine deref_spec (hg1.node ▸ live) fun n hf _ => ?_
    -- the children visited so far are complete, with all that is below them
    refine wp_post (wp_forM_visited _ _ (fun seen s' =>
      Shape tag (((pending \ {x}) ∪ { q | x ∈ (graph s).fathers q }) \
        { q | q ∈ seen ∧ q ∈ (graph s).node .scope }) (graph s') ∧
      Grows (graph s) (graph s')) ?_ s1 ⟨?_, hg1⟩) ?_
    · rintro seen child rest s2 split ⟨shape2, hg2⟩
      have hl : child ∈ (graph s2).children .scope x := by
        rw [hg2.children, ← hg1.children, mem_children hf]
        exact mem_of_split split
      have kept2 : loose ∨ (graph s2).ChildrenLive := by
        rw [ChildrenLive, hg2.children, hg2.node]
        exact kept
      refine visit_spec shape2 hl ?_ ?_
      · intro dead
        exact kept2.resolve_right fun ha => dead (ha child x hl)
      intro ha
      have father := (shape2.children_known .scope .scope child x hl ha).2
      have hr2 : Ranked (graph s2).Father rank := by
        intro a b step
        rw [Father, hg2.fathers] at step
        exact ranked a b step
      have deeper := hr2 x child father
      refine wp_post (ih shape2 hr2 ha kept2 (by rwa [hg2.node])
        (he.imp_right fun hr => by omega)) ?_
      rintro _ s3 ⟨shape3, hg3⟩
      refine ⟨shape3.weaken ?_, hg2.trans hg3⟩
      rintro q ⟨⟨hi, unvisited⟩, hd⟩
      refine ⟨hi, ?_⟩
      rintro ⟨hm, isScope⟩
      rcases mem_append.mp hm with before | cur
      · exact unvisited ⟨before, isScope⟩
      · exact hd (mem_singleton.mp cur)
    · refine shape1.weaken fun q hi => ⟨hi, fun both => ?_⟩
      exact absurd both.1 not_mem_nil
    · rintro _ s2 ⟨shape2, hg2⟩
      refine wp_post (wp_forM_visited _ _ (fun seen s' =>
        Shape tag (((pending \ {x}) ∪ { q | x ∈ (graph s).fathers q }) \
          { q | (q ∈ n.childrenScopes.keys ∧ q ∈ (graph s).node .scope) ∨ q ∈ seen })
          (graph s') ∧ Grows (graph s) (graph s')) ?_ s2 ⟨?_, hg2⟩) ?_
      · rintro seen pub rest s3 split ⟨shape3, hg3⟩
        have hl : pub ∈ (graph s3).children .item x := by
          rw [hg3.children, ← hg1.children, mem_children hf]
          exact mem_of_split split
        refine visit_spec shape3 hl ?_ ?_
        · exact fun dead => absurd (shape3.items_live pub x hl) dead
        intro ha
        have leaf : ∀ q, pub ∉ (graph s3).fathers q := fun q =>
          shape3.toLinks.item_not_father ha
        refine wp_post (updateIDs_spec ha
          (fun f father => (shape3.fathers_live .item pub f ha father).1) (leaf pub)
          (fun id has => (shape3.index_iff .item id pub).mpr ⟨ha, has⟩)) ?_
        intro _ s4 hr4
        rw [hr4]
        refine ⟨(shape3.refresh ha (leaf pub)).weaken ?_, hg3.trans (.addIDs _ _ _ _)⟩
        rintro q (⟨⟨hi, unvisited⟩, hd⟩ | father)
        · refine ⟨hi, ?_⟩
          rintro (child | hm)
          · exact unvisited (Or.inl child)
          · rcases mem_append.mp hm with before | cur
            · exact unvisited (Or.inr before)
            · exact hd (mem_singleton.mp cur)
        · exact absurd father (leaf q)
      · refine shape2.weaken ?_
        rintro q ⟨hi, unvisited⟩
        refine ⟨hi, ?_⟩
        rintro (child | hm)
        · exact unvisited child
        · exact absurd hm not_mem_nil
      · rintro _ s3 ⟨shape3, hg3⟩
        refine ⟨shape3.weaken ?_, hg3⟩
        rintro q ⟨hi | father, unvisited⟩
        · exact hi
        · -- every child of `x` has been visited
          exfalso
          obtain ⟨k, liveChild⟩ := shape.live_of_father q x father
          have hl := (shape.fathers_live k q x liveChild father).2
          rw [← hg1.children, mem_children hf] at hl
          cases k with
          | scope => exact unvisited (Or.inl ⟨hl, liveChild⟩)
          | item => exact unvisited (Or.inr hl)

/-- On a cycle the recursion never returns, whatever the fuel. -/
theorem recursivelyUpdateIDs_endless (cycle : Set Ptr) (fuel : Nat)
    (shape : Shape tag univ (graph s)) (hi : ∀ y ∈ cycle, y ∈ (graph s).node .scope ∧
      ∃ c ∈ cycle, c ∈ (graph s).children .scope y) (start : x ∈ cycle) :
    wlp (recursivelyUpdateIDs fuel x [tag x]) (fun _ _ => False) s := by
  induction fuel generalizing s x with
  | zero => exact trivial
  | succ fuel ih =>
    obtain ⟨live, child, hm, hl⟩ := hi x start
    simp only [recursivelyUpdateIDs, wp_bind]
    refine wp_post (updateIDs_sound shape live) ?_
    rintro _ s1 ⟨shape1, hg1⟩
    refine deref_spec (hg1.node ▸ live) fun n hf _ => ?_
    have visits : child ∈ n.childrenScopes.keys := by
      rw [← hg1.children, mem_children hf] at hl
      exact hl
    -- the loop cannot get past the child that is on the cycle
    refine wp_post (wp_forM_visited _ _ (fun seen s' => child ∉ seen ∧
      Shape tag univ (graph s') ∧ Grows (graph s) (graph s')) ?_ s1
      ⟨not_mem_nil, shape1, hg1⟩) fun _ _ hr => absurd visits hr.1
    rintro seen cur rest s2 split ⟨unvisited, shape2, hg2⟩
    have hl2 : cur ∈ (graph s2).children .scope x := by
      rw [hg2.children, ← hg1.children, mem_children hf]
      exact mem_of_split split
    have hi2 : ∀ y ∈ cycle, y ∈ (graph s2).node .scope ∧
        ∃ c ∈ cycle, c ∈ (graph s2).children .scope y := by
      rw [hg2.node, hg2.children]
      exact hi
    refine visit_spec shape2 hl2 (fun _ => trivial) fun ha => ?_
    by_cases onCycle : cur ∈ cycle
    · exact wp_post (ih shape2 hi2 onCycle) fun _ _ impossible => impossible.elim
    refine wp_mono (recursivelyUpdateIDs_sound True fuel shape2 ha (Or.inl trivial)) ?_
      fun _ _ => trivial
    rintro _ s3 ⟨shape3, hg3⟩
    refine ⟨?_, shape3, hg2.trans hg3⟩
    intro revisited
    rcases mem_append.mp revisited with before | hs
    · exact unvisited before
    · exact onCycle (mem_singleton.mp hs ▸ hm)

end Blackadder.Rendezvous
