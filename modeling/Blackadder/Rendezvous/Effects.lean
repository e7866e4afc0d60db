import Blackadder.Rendezvous.Reports

namespace Blackadder.Rendezvous

open Program HashTable Option Rendezvous.Graph Or

variable {s : LocalRV} {p f : Ptr} {k : Kind} {r : Role} {id : ID} {h : NodeID}
  {fault : Fault → Prop} {tag : Ptr → Fragment}

section

theorem graph_newObject (dead : s.heap s.next = none) {n : Node} (nameless : n.ids = ∅)
    (hc : ∀ k, n.children k = ∅) : graph ({ s with next := s.next + 1 }.store s.next (some n)) =
      { graph s with
        node := fun k => { x | (k = n.kind ∧ x = s.next) ∨ x ∈ (graph s).node k }
        strategy := fun x => if x = s.next then n.strategy else (graph s).strategy x
        root := { x | (n.isRoot = true ∧ x = s.next) ∨ x ∈ (graph s).root }
        fathers := fun x => { y | (x = s.next ∧ y ∈ n.fatherScopes) ∨ y ∈ (graph s).fathers x }
        next := s.next + 1 } := by
  have noHosts : ∀ id : ID, (∅ : HashTable ID RemoteHostPair).get id = none := fun id => rfl
  ext <;> simp only [graph, heap_store, Set.mem_ofPred_eq]
  all_goals first | rfl | grind

variable [IterationOrder]

theorem newNode_spec (shape : Shape tag ∅ (graph s)) (strat : Strategy)
    {father : Option Ptr} (scope : ∀ f, father = some f → f ∈ (graph s).node .scope) :
    wp (newNode k strat father)
      (fun p s' => p = (graph s).next ∧ graph s' = (graph s).allocate k strat father)
      fault s := by
  have dead : s.heap s.next = none := by
    cases hf : s.heap s.next with
    | none => rfl
    | some n => exact absurd ((mem_node hf).mpr rfl) (shape.next_dead n.kind)
  simp only [newNode, wp_bind, wp_read]
  cases father with
  | none =>
    refine ⟨rfl, ?_⟩
    rw [graph_newObject dead rfl (fun k' => by cases k' <;> rfl)]
    ext <;> simp [allocate, graph]
  | some f =>
    simp only [wp_bind, wp_update]
    have hs := graph_newObject dead
      (n := { kind := k, strategy := strat, fatherScopes := (∅ : HashSet Ptr).insert f }) rfl
      (fun k' => by cases k' <;> rfl)
    refine wp_post (assign_spec (fun g => g.addChild k s.next f)
      (fun n hf => graph_addChild hf) (k := .scope) ?_) ?_
    · rw [hs]
      exact inr (scope f rfl)
    intro _ s' hr
    refine ⟨rfl, ?_⟩
    rw [hr, hs]
    ext <;> simp [allocate, addChild, graph, @eq_comm _ f]

variable {t : Fragment} {next : Ptr → RV RvReturnCode} {done : RvReturnCode → LocalRV → Prop}
variable (shape : Shape tag ∅ (graph s)) (scope : f ∈ (graph s).node .scope)

include shape scope

/-- The identifiers of a new node are those that its one father gives it. -/
theorem newIDs_spec {strat : Strategy} {s1 : LocalRV}
    (allocated : graph s1 = (graph s).allocate k strat (some f)) :
    wp (updateIDs k (graph s).next [t])
      (fun _ s' => graph s' = (graph s).create k strat (some f) t) fault s1 := by
  have hd : f ≠ (graph s).next := fun hs => shape.next_dead .scope (hs ▸ scope)
  have onlyFather : ∀ {f'}, f' ∈ (graph s1).fathers (graph s).next → f' = f := by
    intro f' father
    rw [allocated] at father
    rcases father with ⟨-, hs⟩ | father
    · exact (some_inj.mp hs).symm
    · exact absurd father (shape.next_fatherless f')
  refine wp_post (updateIDs_spec ?_ ?_ ?_ ?_) ?_
  · rw [allocated]
    exact inl ⟨rfl, rfl⟩
  · intro f' father
    rw [onlyFather father, allocated]
    exact inr scope
  · exact fun father => hd (onlyFather father).symm
  · intro id has
    rw [allocated] at has
    exact absurd has (shape.next_unnamed id)
  · intro _ s' hr
    have paths : (graph s1).paths (graph s).next t = (graph s).branch f t := by
      have father : f ∈ (graph s1).fathers (graph s).next := by
        rw [allocated]
        exact inl ⟨rfl, rfl⟩
      ext id
      constructor
      · rintro ⟨f', hf, hg⟩
        rw [onlyFather hf, allocated] at hg
        exact hg
      · intro hg
        refine ⟨f, father, ?_⟩
        rw [allocated]
        exact hg
    rw [hr, paths, allocated]
    rfl

theorem newInformationItem_spec (strat : Strategy)
    (goOn : ∀ s', graph s' = (graph s).create .item strat (some f) t → wp (next (graph s).next)
      done fault s') :
    wp (newInformationItem strat f >>= fun pub => updateIDs .item pub [t] >>= fun _ =>
      next pub) done fault s := by
  refine wp_seq (newNode_spec shape strat fun f' hs => ?_) ?_
  · exact some_inj.mp hs ▸ scope
  · rintro pub s1 ⟨rfl, allocated⟩
    exact wp_seq (newIDs_spec shape scope allocated) fun _ s' hc => goOn s' hc

/-- A new scope has its identifiers once they have been updated under it. -/
theorem newScope_spec {loose short : Prop} {fuel : Nat} (he : short ∨ 0 < fuel) (strat : Strategy)
    (goOn : ∀ s', graph s' = (graph s).create .scope strat (some f) t → wp (next (graph s).next)
      done (Stops loose short) s') :
    wp (newScope strat (some f) >>= fun sc => recursivelyUpdateIDs fuel sc [t] >>= fun _ =>
      next sc) done (Stops loose short) s := by
  refine wp_seq (newNode_spec shape strat fun f' hs => ?_) ?_
  · exact some_inj.mp hs ▸ scope
  rintro sc s1 ⟨rfl, allocated⟩
  cases fuel with
  | zero => exact he.resolve_right (Nat.lt_irrefl 0)
  | succ fuel =>
    simp only [recursivelyUpdateIDs, wp_bind]
    refine wp_post (newIDs_spec shape scope allocated) fun _ s' hc => ?_
    have live : (graph s).next ∈ (graph s').node .scope := by
      rw [hc]
      exact inl ⟨rfl, rfl⟩
    refine deref_spec live fun n hf _ => ?_
    -- a new scope has no children to go on with
    have childless : ∀ k, (n.children k).keys = [] := by
      intro k
      refine List.eq_nil_iff_forall_not_mem.mpr fun c hm => ?_
      have hl := (mem_children hf).mpr (mem_keys.mp hm)
      rw [hc] at hl
      rcases hl with ⟨-, hs, -⟩ | hl
      · exact shape.next_dead .scope (some_inj.mp hs ▸ scope)
      · exact shape.next_dead .scope (shape.live_of_child k c _ hl)
    have noScopes : n.childrenScopes.keys = [] := childless .scope
    have noItems : n.informationitems.keys = [] := childless .item
    simp only [noScopes, noItems]
    exact goOn s' hc

end

section

variable {g : Graph} {onSuccess : RV Unit} {post : RvReturnCode → LocalRV → Prop}

theorem addNames_known (has : id ∈ g.ids p) : g.addNames p {id} = g := by
  ext <;> simp [addNames]
  grind

theorem addHost_known (present : h ∈ g.hosts r p id) : g.addHost r p id h = g := by
  ext <;> simp [addHost]
  grind

theorem unregister_spec (live : p ∈ (graph s).node k) (has : id ∈ (graph s).ids p)
    (ha : h ∉ (graph s).hosts r p id → post .doesNotExist s)
    (goOn : h ∈ (graph s).hosts r p id → ∀ s1, graph s1 = (graph s).unregister k r p id h → wp
      onSuccess (fun _ s' => post .success s') fault s1) :
    wp (unregister k r p id h onSuccess) post fault s := by
  simp only [unregister]
  refine deref_bind live fun n hf _ => ?_
  obtain ⟨pair, hl⟩ := mem_iff_get.mp ((mem_ids hf).mp has)
  simp only [hl, wp_ite, wp_bind]
  constructor
  · intro present
    refine wp_post (assign_spec (fun g => g.eraseHost r p id h)
      (fun n' hf' => graph_eraseHost hf') live) fun _ s1 hr => ?_
    refine goOn ((mem_hosts hf).mpr ⟨pair, hl, present⟩) _ ?_
    rw [graph_eraseRecord, hr]
    rfl
  · intro missing
    refine ha fun present => missing ?_
    obtain ⟨pair', hl', hi⟩ := (mem_hosts hf).mp present
    rw [hl] at hl'
    exact some_inj.mp hl' ▸ hi

variable [IterationOrder] (live : p ∈ (graph s).node k)

include live

theorem updateHosts_spec : wp (updateHosts r p id h) (fun added s' =>
      graph s' = ((graph s).addNames p {id}).addHost r p id h ∧
        (added = false → s' = s ∧ h ∈ (graph s).hosts r p id)) fault s := by
  simp only [updateHosts]
  refine deref_bind live fun n hf _ => ?_
  cases hl : n.ids.get id with
  | none =>
    have new : id ∉ n.ids := get_eq_none.mp hl
    refine wp_seq (assign_spec (fun g => (g.addNames p {id}).addHost r p id h) ?_ live) ?_
    · intro n' hf'
      obtain rfl : n' = n := some_inj.mp (hf'.symm.trans hf)
      refine graph_addNameHost hf new fun r' h' => ?_
      cases r <;> cases r' <;> simp [RemoteHostPair.modifyHosts, RemoteHostPair.hosts]
    · exact fun _ s' hr => ⟨hr, fun no => by cases no⟩
  | some pair =>
    have hm : id ∈ n.ids := mem_of_get hl
    have has := addNames_known ((mem_ids hf).mpr hm)
    simp only [wp_ite, wp_bind, wp_pure]
    constructor
    · intro present
      have host := (mem_hosts hf).mpr ⟨pair, hl, present⟩
      refine ⟨?_, fun _ => ⟨trivial, host⟩⟩
      rw [has, addHost_known host]
    · intro _
      refine wp_post (assign_spec (fun g => g.addHost r p id h) ?_ live) ?_
      · intro n' hf'
        obtain rfl : n' = n := some_inj.mp (hf'.symm.trans hf)
        exact graph_addHost hf hm
      · intro _ s' hr
        refine ⟨?_, fun no => by cases no⟩
        rw [hr, has]

theorem updateNodeHosts_spec : wp (updateNodeHosts k r p id h) (fun added s' =>
      graph s' = ((graph s).addNames p {id}).addHost r p id h ∧
        (added = false → s' = s ∧ h ∈ (graph s).hosts r p id)) fault s := by
  cases k <;> cases r
  case scope.subscriber =>
    simp only [updateNodeHosts, scopeUpdateSubscribers]
    refine wp_seq (updateHosts_spec live) fun _ s' hr => ?_
    exact ⟨hr.1, fun no => by cases no⟩
  all_goals exact updateHosts_spec live

/-- `register` at an identifier that the node may still have to get. -/
theorem register_named_spec (hk : h ∈ (graph s).known)
    (again : h ∈ (graph s).hosts r p id → post .exists s)
    (goOn : ∀ s1, graph s1 = ((graph s).addNames p {id}).register k r p id h → wp onSuccess (fun _
      s' => post .success s') fault s1) : wp (register k r p id h onSuccess) post fault s := by
  simp only [register]
  refine wp_seq (updateNodeHosts_spec live) ?_
  rintro added s1 ⟨hr, hs⟩
  simp only [wp_ite, wp_bind]
  constructor
  · intro _
    refine goOn _ ?_
    have hk1 : h ∈ s1.pubSubIndex := by
      change h ∈ (graph s1).known
      rw [hr]
      exact hk
    rw [graph_addRecord hk1, hr]
    rfl
  · intro present
    obtain ⟨rfl, host⟩ := hs (Bool.eq_false_iff.mpr present)
    exact again host

theorem register_spec (has : id ∈ (graph s).ids p) (hk : h ∈ (graph s).known)
    (again : h ∈ (graph s).hosts r p id → post .exists s)
    (goOn : ∀ s1, graph s1 = (graph s).register k r p id h → wp onSuccess (fun _ s' => post .success
      s') fault s1) : wp (register k r p id h onSuccess) post fault s :=
  register_named_spec live hk again fun s1 hr =>
    goOn s1 (hr.trans (by rw [addNames_known has]))

end

section

theorem occupied_iff {pair : RemoteHostPair} : pair.occupied = true ↔ ∃ r h, h ∈ pair.hosts r := by
  simp only [RemoteHostPair.occupied, Bool.or_eq_true, decide_eq_true_iff, size_pos]
  constructor
  · rintro (⟨h, hm⟩ | ⟨h, hm⟩)
    · exact ⟨.publisher, h, hm⟩
    · exact ⟨.subscriber, h, hm⟩
  · rintro ⟨r, h, hm⟩
    cases r
    · exact inl ⟨h, hm⟩
    · exact inr ⟨h, hm⟩

variable {post : Bool → LocalRV → Prop}

/-- The check uses an absent entry unless `f` is a father of `p`. -/
theorem checkForOtherPubSub_spec (shape : Shape tag ∅ (graph s)) (live : p ∈ (graph s).node k)
    (scope : f ∈ (graph s).node .scope) (stray : f ∉ (graph s).fathers p → fault .missing)
    (goOn : f ∈ (graph s).fathers p → ∀ others : Bool, (others = true ↔ ∃ r, ∃ id ∈ (graph s).branch
      f (tag p), ∃ h, h ∈ (graph s).hosts r p id) → post others s) :
    wp (checkForOtherPubSub p f) post fault s := by
  simp only [checkForOtherPubSub, wp_bind]
  refine deref_spec live fun n hf _ => ?_
  refine firstID_spec shape hf fun first _ last => ?_
  rw [last]
  refine deref_spec scope fun fatherNode found _ => ?_
  by_cases father : f ∈ (graph s).fathers p
  · have present : ∀ path ∈ fatherNode.ids.keys, path ++ [tag p] ∈ n.ids := fun path hm =>
      (mem_ids hf).mp (shape.complete k p f path live (Set.notMem_empty p) father
        ((keys_spec found).mp hm))
    rw [wp_of_run (anyM_reads _ _
      (fun path => ((n.ids.get (path ++ [tag p])).map (·.occupied)).getD false) s ?_)]
    · refine goOn father _ ?_
      rw [List.any_eq_true]
      constructor
      · rintro ⟨path, hm, test⟩
        obtain ⟨pair, hl⟩ := mem_iff_get.mp (present path hm)
        rw [hl] at test
        obtain ⟨r, h, hi⟩ := occupied_iff.mp test
        exact ⟨r, _, ⟨path, (keys_spec found).mp hm, rfl⟩, h, (mem_hosts hf).mpr ⟨pair, hl, hi⟩⟩
      · rintro ⟨r, _, ⟨path, hp, rfl⟩, h, host⟩
        obtain ⟨pair, hl, hi⟩ := (mem_hosts hf).mp host
        refine ⟨path, (keys_spec found).mpr hp, ?_⟩
        rw [hl]
        exact occupied_iff.mpr ⟨r, h, hi⟩
    · intro path hm
      obtain ⟨pair, hl⟩ := mem_iff_get.mp (present path hm)
      simp only [hl]
      rfl
  · obtain ⟨path, hp⟩ := shape.named .scope f scope
    have hi := (keys_spec found).mpr hp
    cases keys : fatherNode.ids.keys with
    | nil => simp [keys] at hi
    | cons first rest =>
      have hasFirst : first ∈ (graph s).ids f :=
        (keys_spec found).mp (by rw [keys]; exact List.mem_cons_self)
      have ha : n.ids.get (first ++ [tag p]) = none := by
        refine get_eq_none.mpr fun hm => father ?_
        obtain ⟨-, ⟨-, he⟩ | ⟨-, f', father', hp'⟩⟩ :=
          shape.father_of_append live ((mem_ids hf).mpr hm)
        · exact absurd he (shape.ne_nil scope hasFirst)
        · have scope' := (shape.fathers_live k p f' live father').1
          exact shape.scope_owner scope scope' hasFirst hp' ▸ father'
      simp only [List.anyM, ha]
      exact stray father

theorem checkRootForOtherPubSub_spec (live : p ∈ (graph s).node k)
    (goOn : ∀ others : Bool, (others = true ↔ ∃ r id h, h ∈ (graph s).hosts r p id) → post others s)
    : wp (checkRootForOtherPubSub p) post fault s := by
  simp only [checkRootForOtherPubSub]
  refine deref_bind live fun n hf _ => goOn _ ?_
  simp only [List.any_eq_true, mem_values, occupied_iff, mem_hosts hf]
  constructor
  · rintro ⟨pair, ⟨id, hl⟩, r, h, hi⟩
    exact ⟨r, id, h, pair, hl, hi⟩
  · rintro ⟨r, id, h, pair, hl, hi⟩
    exact ⟨pair, ⟨id, hl⟩, r, h, hi⟩

theorem unindex_unindex (g : Graph) (first second : Set ID) :
    (g.unindex k first).unindex k second = g.unindex k (first ∪ second) := by
  ext <;> simp [unindex]
  grind

theorem removeIDs_removeIDs (g : Graph) (first second : Set ID) :
    (g.removeIDs k p first).removeIDs k p second = g.removeIDs k p (first ∪ second) := by
  ext <;> simp only [removeIDs, eraseNames, unindex, Set.mem_union] <;> grind

theorem deleteNode_spec (live : p ∈ (graph s).node k) :
    wp (deleteNode k p) (fun _ s' => graph s' = (graph s).free k p) fault s := by
  simp only [deleteNode, wp_bind]
  refine deref_spec live fun n hf _ => ?_
  refine wp_post (wp_forM_visited _ _ (fun seen s' =>
    graph s' = (graph s).unindex k { id | id ∈ seen }) ?_ s ?_) ?_
  · intro seen id rest s' _ hr
    rw [wp_update, graph_unindex, hr, unindex_unindex]
    congr 1
    ext id'
    simp [or_comm]
  · ext <;> simp [unindex]
  · intro _ s' hr
    have keys : { id | id ∈ n.ids.keys } = (graph s).ids p := by
      ext id
      exact keys_spec hf
    rw [wp_update, graph_drop, hr, keys]
    rfl

theorem deleteNode_remove (live : p ∈ (graph s).node k) :
    wp (deleteNode k p) (fun _ s' => graph s' = (graph s).remove k p none) fault s := by
  refine wp_post (deleteNode_spec live) fun _ s' hr => ?_
  have hs : (graph s).eraseChild k p none = graph s := by ext <;> simp [eraseChild]
  rw [hr, remove, hs]

theorem deleteUnder_spec (live : p ∈ (graph s).node k) (scope : f ∈ (graph s).node .scope) :
    wp (deleteUnder k p f) (fun _ s' => graph s' = (graph s).remove k p (some f)) fault s := by
  simp only [deleteUnder]
  refine wp_seq (assign_spec (fun g => g.eraseChild k p (some f))
    (fun n hf => graph_eraseChild hf) scope) fun _ s1 hr => ?_
  have live1 : p ∈ (graph s1).node k := by
    rw [hr]
    exact live
  refine wp_post (deleteNode_spec live1) fun _ s' after => ?_
  rw [after, hr]
  rfl

/-- The identifiers of the father are read after the link is gone, those of `p` before
they are. -/
theorem deleteBranch_spec (shape : Shape tag ∅ (graph s)) (live : p ∈ (graph s).node k)
    (father : f ∈ (graph s).fathers p) :
    wp (deleteBranch k p f) (fun _ s' => graph s' = (graph s).detach k p f (tag p)) fault s := by
  have scope := (shape.fathers_live k p f live father).1
  simp only [deleteBranch, wp_bind]
  refine wp_post (assign_spec (fun g => g.eraseChild k p (some f))
    (fun n hf => graph_eraseChild hf) scope) fun _ s1 hr1 => ?_
  have live1 : p ∈ (graph s1).node k := by
    rw [hr1]
    exact live
  refine wp_post (assign_spec (fun g => g.eraseFather p f)
    (fun n hf => graph_eraseFather hf) live1) fun _ s2 hr2 => ?_
  rw [hr1] at hr2
  have live2 : p ∈ (graph s2).node k := by
    rw [hr2]
    exact live
  have ids2 : ∀ q, (graph s2).ids q = (graph s).ids q := by
    intro q
    rw [hr2]
    rfl
  refine deref_spec live2 fun n hf _ => ?_
  refine firstID_of_ids hf ((ids2 p).symm ▸ shape.named k p live) fun first has => ?_
  rw [ids2] at has
  rw [shape.lastFragment_eq live has]
  refine deref_spec (p := f) (k := .scope) (by rw [hr2]; exact scope) fun fatherNode found _ => ?_
  refine wp_post (wp_forM_visited _ _ (fun seen s' => graph s' =
    (graph s2).removeIDs k p { id | ∃ path ∈ seen, id = path ++ [tag p] }) ?_ s2 ?_) ?_
  · intro seen path rest s3 _ hr3
    have live3 : p ∈ (graph s3).node k := by
      rw [hr3]
      exact live2
    rw [wp_bind]
    refine wp_post (assign_spec (fun g => g.eraseNames p {path ++ [tag p]})
      (fun n hf => graph_eraseName hf) live3) fun _ s4 hr4 => ?_
    have union : { id | ∃ path' ∈ seen ++ [path], id = path' ++ [tag p] } =
        { id | ∃ path' ∈ seen, id = path' ++ [tag p] } ∪ {path ++ [tag p]} := by
      ext id
      simp [or_comm]
    rw [wp_update, graph_unindex, hr4, hr3, union, ← removeIDs_removeIDs]
    rfl
  · ext <;> simp [removeIDs, unindex, eraseNames]
  · intro _ s' hr
    have branch : { id | ∃ path ∈ fatherNode.ids.keys, id = path ++ [tag p] } =
        (graph s).branch f (tag p) := by
      ext id
      simp [keys_spec found, ids2, mem_branch]
    rw [hr, branch, hr2]
    rfl

end

section

variable {α : Type} {s0 : LocalRV} (k : Kind) (id : ID) {missing : RV α} {present : Ptr → RV α}
  {post : α → LocalRV → Prop} (ha : (graph s).index k id = none → wp missing post fault s0)
  (goOn : ∀ p, (graph s).index k id = some p → wp (present p) post fault s0)

include ha goOn

theorem wp_lookup :
    wp (match (graph s).index k id with | none => missing | some p => present p) post fault s0 := by
  cases hf : (graph s).index k id with
  | none => exact ha hf
  | some p => exact goOn p hf

theorem wp_lookup_present :
    wp (match (graph s).index k id with | some p => present p | none => missing) post fault s0 := by
  cases hf : (graph s).index k id with
  | none => exact ha hf
  | some p => exact goOn p hf

end

end Blackadder.Rendezvous
