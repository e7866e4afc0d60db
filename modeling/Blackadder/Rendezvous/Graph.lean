import Blackadder.Rendezvous.State
import Blackadder.Library.Rank
import Mathlib.Order.Lattice.Nat

namespace Blackadder.Rendezvous

/-- What the rendezvous is for: scopes and items in a graph whose every path from a root is an
identifier, the hosts at each identifier, and what has been sent. -/
@[ext] structure Graph where
  node : Kind → Set Ptr
  strategy : Ptr → Strategy
  root : Set Ptr
  fathers : Ptr → Set Ptr
  children : Kind → Ptr → Set Ptr
  ids : Ptr → Set ID
  hosts : Role → Ptr → ID → Set NodeID
  index : Kind → ID → Option Ptr
  known : Set NodeID
  records : Kind → Role → NodeID → Set ID
  next : Ptr
  log : List Out

namespace Graph

variable (g : Graph) (k : Kind) (r : Role) (p f : Ptr) (id : ID) (h : NodeID)
variable (strategy : Strategy) (father : Option Ptr) (new gone : Set ID)

/-- The identifiers the father `f` gives to a child with last fragment `tag`. -/
def branch (tag : Fragment) : Set ID :=
  { id | ∃ path ∈ g.ids f, id = path ++ [tag] }

/-- All identifiers that the fathers of `p` give it. -/
def paths (tag : Fragment) : Set ID :=
  { id | ∃ f ∈ g.fathers p, id ∈ g.branch f tag }

/-- The first identifiers of a new node: a root scope is called `tag` itself. -/
def given (tag : Fragment) : Option Ptr → Set ID
  | none => {[tag]}
  | some f => g.branch f tag

def meet : Graph :=
  { g with known := { x | x = h ∨ x ∈ g.known } }

def send (packets : List Out) : Graph :=
  { g with log := g.log ++ packets }

def addHost : Graph :=
  { g with hosts := fun r' p' id' =>
      { x | (r' = r ∧ p' = p ∧ id' = id ∧ x = h) ∨ x ∈ g.hosts r' p' id' } }

def addRecord : Graph :=
  { g with records := fun k' r' h' =>
      { x | (k' = k ∧ r' = r ∧ h' = h ∧ x = id) ∨ x ∈ g.records k' r' h' } }

def register : Graph :=
  (g.addHost r p id h).addRecord k r id h

def eraseHost : Graph :=
  { g with hosts := fun r' p' id' =>
      { x | ¬ (r' = r ∧ p' = p ∧ id' = id ∧ x = h) ∧ x ∈ g.hosts r' p' id' } }

def eraseRecord : Graph :=
  { g with records := fun k' r' h' =>
      { x | ¬ (k' = k ∧ r' = r ∧ h' = h ∧ x = id) ∧ x ∈ g.records k' r' h' } }

def unregister : Graph :=
  (g.eraseHost r p id h).eraseRecord k r id h

def addFather : Graph :=
  { g with fathers := fun x => { y | (x = p ∧ y = f) ∨ y ∈ g.fathers x } }

def addChild : Graph :=
  { g with children := fun k' x => { y | (k' = k ∧ x = f ∧ y = p) ∨ y ∈ g.children k' x } }

def attach : Graph := (g.addFather p f).addChild k p f

def eraseFather : Graph :=
  { g with fathers := fun x => { y | ¬ (x = p ∧ y = f) ∧ y ∈ g.fathers x } }

def eraseChild : Graph :=
  { g with children := fun k' x =>
      { y | ¬ (k' = k ∧ father = some x ∧ y = p) ∧ y ∈ g.children k' x } }

def addNames : Graph :=
  { g with ids := fun x => { y | (x = p ∧ y ∈ new) ∨ y ∈ g.ids x } }

/-- An identifier that leaves a node takes its hosts with it. -/
def eraseNames : Graph :=
  { g with
    ids := fun x => { y | ¬ (x = p ∧ y ∈ gone) ∧ y ∈ g.ids x }
    hosts := fun r x y => { h | ¬ (x = p ∧ y ∈ gone) ∧ h ∈ g.hosts r x y } }

open Classical in
noncomputable def enter : Graph :=
  { g with index := fun k' y => if k' = k ∧ y ∈ new then some p else g.index k' y }

open Classical in
noncomputable def unindex : Graph :=
  { g with index := fun k' y => if k' = k ∧ y ∈ gone then none else g.index k' y }

noncomputable def addIDs : Graph :=
  (g.enter k p new).addNames p new

noncomputable def removeIDs : Graph :=
  (g.eraseNames p gone).unindex k gone

/-- The object at the next address, under `father` if it has one. -/
def allocate : Graph :=
  { g with
    node := fun k' => { x | (k' = k ∧ x = g.next) ∨ x ∈ g.node k' }
    strategy := fun x => if x = g.next then strategy else g.strategy x
    root := { x | (father = none ∧ x = g.next) ∨ x ∈ g.root }
    fathers := fun x => { y | (x = g.next ∧ father = some y) ∨ y ∈ g.fathers x }
    children := fun k' x => { y | (k' = k ∧ father = some x ∧ y = g.next) ∨ y ∈ g.children k' x }
    next := g.next + 1 }

/-- A new node with all its identifiers. -/
noncomputable def create
    (tag : Fragment) : Graph :=
  (g.allocate k strategy father).addIDs k g.next (g.given tag father)

def drop : Graph :=
  { g with
    node := fun k' => { x | x ≠ p ∧ x ∈ g.node k' }
    strategy := fun x => if x = p then 0 else g.strategy x
    root := { x | x ≠ p ∧ x ∈ g.root }
    fathers := fun x => { y | x ≠ p ∧ y ∈ g.fathers x }
    children := fun k' x => { y | x ≠ p ∧ y ∈ g.children k' x }
    ids := fun x => { y | x ≠ p ∧ y ∈ g.ids x }
    hosts := fun r x y => { h | x ≠ p ∧ h ∈ g.hosts r x y } }

noncomputable def free : Graph :=
  (g.unindex k (g.ids p)).drop p

/-- Delete a node and take it out of the list of its father. -/
noncomputable def remove : Graph :=
  (g.eraseChild k p father).free k p

/-- Delete the branch of a node under one of its fathers. -/
noncomputable def detach (tag : Fragment) : Graph :=
  ((g.eraseChild k p (some f)).eraseFather p f).removeIDs k p (g.branch f tag)

/-- Fathers and children name each other, but a scope may list a scope that has been deleted. -/
structure Links (g : Graph) : Prop where
  one_kind : ∀ k k' p, p ∈ g.node k → p ∈ g.node k' → k = k'
  fathers_live : ∀ k p f, p ∈ g.node k → f ∈ g.fathers p → f ∈ g.node .scope ∧ p ∈ g.children k f
  children_known : ∀ k k' p f, p ∈ g.children k f → p ∈ g.node k' → k' = k ∧ f ∈ g.fathers p
  items_live : ∀ p f, p ∈ g.children .item f → p ∈ g.node .item
  root_scope : ∀ p, p ∈ g.root → p ∈ g.node .scope
  root_top : ∀ p f, p ∈ g.root → f ∉ g.fathers p
  fresh : ∀ k p, p ∈ g.node k → p < g.next
  children_fresh : ∀ k p f, p ∈ g.children k f → p < g.next
  live_of_father : ∀ p f, f ∈ g.fathers p → ∃ k, p ∈ g.node k
  live_of_child : ∀ k p f, p ∈ g.children k f → f ∈ g.node .scope

/-- The identifiers are the paths of the graph, with the last fragment `tag`; nodes in `pending` may
still lack identifiers that a father gives. -/
structure Names (tag : Ptr → Fragment) (pending : Set Ptr) (g : Graph) : Prop where
  index_iff : ∀ k id p, g.index k id = some p ↔ p ∈ g.node k ∧ id ∈ g.ids p
  sound : ∀ k p id, p ∈ g.node k → id ∈ g.ids p →
    (p ∈ g.root ∧ id = [tag p]) ∨
      (p ∉ g.root ∧ ∃ f ∈ g.fathers p, ∃ path ∈ g.ids f, id = path ++ [tag p])
  complete : ∀ k p f path, p ∈ g.node k → p ∉ pending → f ∈ g.fathers p → path ∈ g.ids f →
    path ++ [tag p] ∈ g.ids p
  named : ∀ k p, p ∈ g.node k → ∃ id, id ∈ g.ids p
  finite : ∀ p, (g.ids p).Finite
  siblings : ∀ k k' p q f, p ∈ g.node k → q ∈ g.node k' → f ∈ g.fathers p → f ∈ g.fathers q →
    tag p = tag q → p = q
  live_of_id : ∀ p id, id ∈ g.ids p → ∃ k, p ∈ g.node k

/-- No scope lists a child that has been deleted. -/
def ChildrenLive : Prop := ∀ c f, c ∈ g.children .scope f → c ∈ g.node .scope

structure Shape (tag : Ptr → Fragment) (pending : Set Ptr) (g : Graph) : Prop extends
  Links g, Names tag pending g

open List

variable {tag : Ptr → Fragment} {pending : Set Ptr} {g : Graph} {k k' : Kind} {p q f : Ptr}
  {id path : ID}

/-- `f` is a father of `p`. -/
def Father (g : Graph) (f p : Ptr) : Prop := f ∈ g.fathers p

variable {t : Fragment}

theorem mem_branch : id ∈ g.branch f t ↔ ∃ path ∈ g.ids f, id = path ++ [t] :=
  Iff.rfl

theorem Links.item_not_father (links : Links g) (hl : p ∈ g.node .item) : p ∉ g.fathers q := by
  intro father
  obtain ⟨k, child⟩ := links.live_of_father q p father
  cases links.one_kind _ _ p (links.fathers_live k q p child father).1 hl

namespace Shape

section

variable (shape : Shape tag pending g)

include shape

theorem indexed (hf : g.index k id = some p) : p ∈ g.node k ∧ id ∈ g.ids p :=
  (shape.index_iff k id p).mp hf

theorem weaken {larger : Set Ptr} (hi : pending ⊆ larger) : Shape tag larger g :=
  { shape with complete := fun k p f path hl ho =>
      shape.complete k p f path hl fun inside => ho (hi inside) }

theorem hosted {g' : Graph} {hosts known records log}
    (hr : g' = { g with hosts, known, records, log }) : Shape tag pending g' := by
  subst hr
  exact ⟨{ shape.toLinks with }, { shape.toNames with }⟩

theorem ne_nil (hl : p ∈ g.node k) (has : id ∈ g.ids p) : id ≠ [] := by
  rcases shape.sound k p id hl has with ⟨-, rfl⟩ | ⟨-, f, -, path, -, rfl⟩ <;> simp

theorem lastFragment_eq (hl : p ∈ g.node k) (has : id ∈ g.ids p) : lastFragment id = [tag p] := by
  rcases shape.sound k p id hl has with ⟨-, rfl⟩ | ⟨-, f, -, path, -, rfl⟩
  · rfl
  · exact lastFragment_append_singleton path (tag p)

/-- The father a prefix of an identifier names. -/
theorem father_of_append (hl : p ∈ g.node k) (has : path ++ [t] ∈ g.ids p) :
    t = tag p ∧ ((p ∈ g.root ∧ path = []) ∨ (p ∉ g.root ∧ ∃ f ∈ g.fathers p, path ∈ g.ids f)) := by
  rcases shape.sound k p _ hl has with ⟨root, hs⟩ | ⟨inner, f, father, path', has', hs⟩
  · have split : path ++ [t] = [] ++ [tag p] := hs
    obtain ⟨he, last⟩ := append_inj' split rfl
    exact ⟨singleton_inj.mp last, Or.inl ⟨root, he⟩⟩
  · obtain ⟨rfl, last⟩ := append_inj' hs rfl
    exact ⟨singleton_inj.mp last, Or.inr ⟨inner, f, father, has'⟩⟩

theorem scope_owner (hl : p ∈ g.node .scope) (hl' : q ∈ g.node .scope) (has : id ∈ g.ids p)
    (has' : id ∈ g.ids q) : p = q := by
  have left := (shape.index_iff .scope id p).mpr ⟨hl, has⟩
  have right := (shape.index_iff .scope id q).mpr ⟨hl', has'⟩
  rw [left] at right
  exact Option.some_inj.mp right

variable (hl : p ∈ g.node k) (hl' : q ∈ g.node k') (has : id ∈ g.ids p) (has' : id ∈ g.ids q)

include hl hl' has has'

/-- An identifier belongs to one node, be it a scope or an item. -/
theorem owner : p = q := by
  rcases shape.sound k p id hl has with ⟨root, hs⟩ | ⟨inner, f, father, path, hp, rfl⟩
  · rcases shape.sound k' q id hl' has' with
      ⟨root', hs'⟩ | ⟨inner', f', father', path', hp', hs'⟩
    · exact shape.scope_owner (shape.root_scope p root) (shape.root_scope q root') has has'
    · have split : [] ++ [tag p] = path' ++ [tag q] := hs.symm.trans hs'
      obtain ⟨rfl, -⟩ := append_inj' split rfl
      exact absurd rfl (shape.ne_nil (shape.fathers_live k' q f' hl' father').1 hp')
  · have pathInner := shape.ne_nil (shape.fathers_live k p f hl father).1 hp
    obtain ⟨hs, ⟨-, he⟩ | ⟨-, f', father', hp'⟩⟩ := shape.father_of_append hl' has'
    · exact absurd he pathInner
    have sameFather : f = f' := shape.scope_owner (shape.fathers_live k p f hl father).1
        (shape.fathers_live k' q f' hl' father').1 hp hp'
    exact shape.siblings k k' p q f hl hl' father (sameFather ▸ father') hs

theorem kind_of_id : k = k' := by
  have hs := shape.owner hl hl' has has'
  exact shape.one_kind k k' p hl (hs ▸ hl')

end

/-- The length of the longest identifier grows from father to child. -/
theorem ranked (shape : Shape tag ∅ g) : Ranked g.Father fun p => sSup (length '' g.ids p) := by
  intro f p father
  obtain ⟨k, hl⟩ := shape.live_of_father p f father
  have hb : ∀ q, BddAbove (length '' g.ids q) := fun q => ((shape.finite q).image _).bddAbove
  have scope := (shape.fathers_live k p f hl father).1
  have hn : (g.ids f).Nonempty := shape.named .scope f scope
  obtain ⟨path, hp, len⟩ := Nat.sSup_mem (hn.image length) (hb f)
  have longer : path ++ [tag p] ∈ g.ids p :=
    shape.complete k p f path hl (Set.notMem_empty p) father hp
  have hu := le_csSup (hb p) ⟨_, longer, rfl⟩
  rw [length_append, len] at hu
  exact hu

theorem acyclic (shape : Shape tag ∅ g) : Acyclic g.Father := shape.ranked.acyclic

end Shape

open Set

theorem addIDs_empty : g.addIDs k p ∅ = g := by
  ext <;> simp [addIDs, enter, addNames]

theorem addIDs_addIDs (first second : Set ID) :
    (g.addIDs k p first).addIDs k p second = g.addIDs k p (first ∪ second) := by
  ext <;> simp [addIDs, enter, addNames] <;> grind

theorem addIDs_known (has : id ∈ g.ids p) (how : g.index k id = some p) :
    g.addIDs k p {id} = g := by
  ext <;> simp [addIDs, enter, addNames] <;> grind

theorem addIDs_owned (how : ∀ id ∈ g.ids p, g.index k id = some p) (new : Set ID) :
    ∀ id ∈ (g.addIDs k p new).ids p, (g.addIDs k p new).index k id = some p := by
  rintro id (⟨-, added⟩ | has)
  · exact if_pos ⟨rfl, added⟩
  · by_cases added : id ∈ new
    · exact if_pos ⟨rfl, added⟩
    · exact (if_neg fun both => added both.2).trans (how id has)

/-- Only identifiers and their index entries are new in `g'`. -/
structure Grows (g g' : Graph) : Prop where
  frame : g' = { g with ids := g'.ids, index := g'.index }
  more : ∀ p, g.ids p ⊆ g'.ids p

namespace Grows

variable {g' g'' : Graph}

theorem refl (g : Graph) : Grows g g := ⟨rfl, fun _ => Subset.refl _⟩

theorem trans (first : Grows g g') (second : Grows g' g'') : Grows g g'' := by
  refine ⟨?_, fun p => (first.more p).trans (second.more p)⟩
  rw [second.frame, first.frame]

theorem addIDs (g : Graph) (k : Kind) (p : Ptr) (new : Set ID) : Grows g (g.addIDs k p new) :=
  ⟨rfl, fun _ _ has => .inr has⟩

theorem node (hg : Grows g g') : g'.node = g.node := by rw [hg.frame]

theorem fathers (hg : Grows g g') : g'.fathers = g.fathers := by rw [hg.frame]

theorem children (hg : Grows g g') : g'.children = g.children := by rw [hg.frame]

end Grows

variable {father : Option Ptr}

theorem Links.create (links : Links g) (strat : Strategy) (t : Fragment)
    (scope : ∀ f, father = some f → f ∈ g.node .scope) (isScope : father = none → k = .scope) :
    Links (g.create k strat father t) := by
  obtain ⟨⟩ := links
  constructor <;> simp only [Graph.create, addIDs, enter, addNames, allocate, mem_ofPred_eq] <;>
    grind

theorem Links.attach (links : Links g) (scope : f ∈ g.node .scope) (hl : p ∈ g.node k)
    (inner : p ∉ g.root) : Links (g.attach k p f) := by
  obtain ⟨⟩ := links
  constructor <;> simp only [Graph.attach, addFather, addChild, mem_ofPred_eq] <;> grind

theorem Links.remove (links : Links g) (hl : p ∈ g.node k) (hc : ∀ q, p ∉ g.fathers q)
    (hu : k = .item → ∀ f, f ∈ g.fathers p → father = some f) : Links (g.remove k p father) := by
  obtain ⟨⟩ := links
  constructor <;>
    simp only [Graph.remove, free, unindex, drop, eraseChild, mem_ofPred_eq] <;> grind

theorem Links.detach (links : Links g) (hl : p ∈ g.node k) (f : Ptr) (t : Fragment) : Links
    (g.detach k p f t) := by
  obtain ⟨⟩ := links
  constructor <;>
    simp only [Graph.detach, removeIDs, unindex, eraseNames, eraseFather, eraseChild,
      mem_ofPred_eq] <;> grind

theorem finite_branch (hf : (g.ids f).Finite) (t : Fragment) : (g.branch f t).Finite := by
  have image : g.branch f t = (fun path => path ++ [t]) '' g.ids f := by
    ext id
    simp [branch, eq_comm]
  exact image ▸ hf.image _

namespace Shape

theorem next_dead (shape : Shape tag pending g) (k : Kind) : g.next ∉ g.node k :=
  fun hl => Nat.lt_irrefl _ (shape.fresh k _ hl)

theorem next_unnamed (shape : Shape tag pending g) (id : ID) : id ∉ g.ids g.next := by
  intro has
  obtain ⟨k, hl⟩ := shape.live_of_id _ id has
  exact shape.next_dead k hl

theorem next_fatherless (shape : Shape tag pending g) (f : Ptr) : f ∉ g.fathers g.next := by
  intro father
  obtain ⟨k, hl⟩ := shape.live_of_father _ f father
  exact shape.next_dead k hl

variable {t : Fragment} {father : Option Ptr}

/-- A child of `f` called `t` would have an identifier that a new node is to get. -/
theorem not_sibling (shape : Shape tag ∅ g) (scope : f ∈ g.node .scope)
    (hu : ∀ k p id, p ∈ g.node k → id ∈ g.branch f t → id ∉ g.ids p) (hl : p ∈ g.node k)
    (father : f ∈ g.fathers p) : tag p ≠ t := by
  rintro rfl
  obtain ⟨path, has⟩ := shape.named .scope f scope
  exact hu k p _ hl ⟨path, has, rfl⟩ (shape.complete k p f path hl (notMem_empty p) father has)

/-- A new node gets identifiers no node has yet. -/
theorem create (shape : Shape tag ∅ g) (strat : Strategy)
    (scope : ∀ f, father = some f → f ∈ g.node .scope) (isScope : father = none → k = .scope)
    (hu : ∀ k p id, p ∈ g.node k → id ∈ g.given t father → id ∉ g.ids p) :
    Shape (fun x => if x = g.next then t else tag x) ∅ (g.create k strat father t) := by
  have old : ∀ {k p}, p ∈ g.node k → p ≠ g.next := fun hl hs =>
    shape.next_dead _ (hs ▸ hl)
  refine ⟨shape.toLinks.create strat t scope isScope, ?_⟩
  constructor
  · intro k' id p
    simp only [Graph.create, addIDs, enter, addNames, allocate, mem_ofPred_eq]
    split
    · rename_i new
      grind
    · have fromOld := shape.index_iff k' id p
      have unnamed := shape.next_unnamed id
      grind
  · rintro k' p id (⟨rfl, rfl⟩ | hl) (⟨hs, new⟩ | has)
    · simp only [if_true]
      cases father with
      | none => exact .inl ⟨.inl ⟨rfl, rfl⟩, new⟩
      | some f =>
        obtain ⟨path, has, rfl⟩ := new
        refine .inr ⟨?_, f, .inl ⟨rfl, rfl⟩, path, .inr has, rfl⟩
        rintro (⟨hi, -⟩ | root)
        · cases hi
        · exact shape.next_dead .scope (shape.root_scope _ root)
    · exact absurd has (shape.next_unnamed id)
    · exact absurd hs (old hl)
    · simp only [old hl, if_false]
      rcases shape.sound k' p id hl has with ⟨root, rfl⟩ | ⟨inner, f, hf, path, hp, rfl⟩
      · exact .inl ⟨.inr root, rfl⟩
      refine .inr ⟨?_, f, .inr hf, path, .inr hp, rfl⟩
      rintro (⟨-, hs⟩ | root)
      · exact old hl hs
      · exact inner root
  · rintro k' p f path (⟨rfl, rfl⟩ | hl) - (⟨hs, rfl⟩ | hf) (⟨fatherNew, new⟩ | has)
    · exact absurd fatherNew (old (scope f rfl))
    · exact .inl ⟨rfl, path, has, by simp⟩
    · exact absurd hf (shape.next_fatherless f)
    · exact absurd hf (shape.next_fatherless f)
    · exact absurd hs (old hl)
    · exact absurd hs (old hl)
    · exact absurd fatherNew (old (shape.fathers_live k' p f hl hf).1)
    · simp only [old hl, if_false]
      exact .inr (shape.complete k' p f path hl (notMem_empty p) hf has)
  · rintro k' p (⟨rfl, rfl⟩ | hl)
    · cases father with
      | none => exact ⟨[t], .inl ⟨rfl, rfl⟩⟩
      | some f =>
        obtain ⟨path, has⟩ := shape.named .scope f (scope f rfl)
        exact ⟨path ++ [t], .inl ⟨rfl, path, has, rfl⟩⟩
    · obtain ⟨id, has⟩ := shape.named k' p hl
      exact ⟨id, .inr has⟩
  · intro p
    have first : (g.given t father ∪ g.ids p).Finite := by
      refine Finite.union ?_ (shape.finite p)
      cases father with
      | none => exact finite_singleton _
      | some f => exact finite_branch (shape.finite f) t
    refine first.subset ?_
    rintro id (⟨-, new⟩ | has)
    · exact .inl new
    · exact .inr has
  · rintro k1 k2 p q f (⟨rfl, rfl⟩ | hl) (⟨rfl, rfl⟩ | hl') hf hf' hs
    · rfl
    · rcases hf with ⟨-, rfl⟩ | hf
      · rcases hf' with ⟨new, -⟩ | hf'
        · exact new.symm
        · simp only [old hl', if_true, if_false] at hs
          exact absurd hs.symm (shape.not_sibling (scope f rfl) hu hl' hf')
      · exact absurd hf (shape.next_fatherless f)
    · rcases hf' with ⟨-, rfl⟩ | hf'
      · rcases hf with ⟨new, -⟩ | hf
        · exact new
        · simp only [old hl, if_true, if_false] at hs
          exact absurd hs (shape.not_sibling (scope f rfl) hu hl hf)
      · exact absurd hf' (shape.next_fatherless f)
    · simp only [old hl, old hl', if_false] at hs
      rcases hf with ⟨new, -⟩ | hf
      · exact absurd new (old hl)
      · rcases hf' with ⟨new, -⟩ | hf'
        · exact absurd new (old hl')
        · exact shape.siblings k1 k2 p q f hl hl' hf hf' hs
  · rintro p id (⟨rfl, new⟩ | has)
    · exact ⟨k, .inl ⟨rfl, rfl⟩⟩
    · obtain ⟨k', hl⟩ := shape.live_of_id p id has
      exact ⟨k', .inr hl⟩

/-- A link from `f` to an existing node leaves only that node's identifiers to be added. -/
theorem attach (shape : Shape tag ∅ g) (scope : f ∈ g.node .scope) (hl : p ∈ g.node k)
    (inner : p ∉ g.root) (hu : ∀ k q id, q ∈ g.node k → id ∈ g.branch f (tag p) → id ∉ g.ids q) :
    Shape tag {p} (g.attach k p f) := by
  have notSibling := fun k' q hl' => shape.not_sibling (k := k') (p := q) scope hu hl'
  obtain ⟨links, names⟩ := shape
  refine ⟨links.attach scope hl inner, ?_⟩
  obtain ⟨index_iff, sound, complete, hn, hf, siblings, live_of_id⟩ := names
  refine ⟨index_iff, ?_, ?_, hn, hf, ?_, live_of_id⟩
  · intro k' q id hl' has
    rcases sound k' q id hl' has with root | ⟨inner', f', father, path, hp, hs⟩
    · exact .inl root
    · exact .inr ⟨inner', f', .inr father, path, hp, hs⟩
  · rintro k' q f' path hl' ho (⟨rfl, -⟩ | father) hp
    · exact absurd rfl ho
    · exact complete k' q f' path hl' (notMem_empty q) father hp
  · simp only [Graph.attach, addFather, addChild, mem_ofPred_eq]
    grind

section

variable (shape : Shape tag pending g) (hl : p ∈ g.node k)

include shape hl

/-- What a father gives to `p` is either in use by `p` or free. -/
theorem paths_owner (new : id ∈ g.paths p (tag p)) (hl' : q ∈ g.node k') (has : id ∈ g.ids q) :
    q = p := by
  obtain ⟨f, father, path, hp, rfl⟩ := new
  have scope := (shape.fathers_live k p f hl father).1
  obtain ⟨hs, ⟨-, he⟩ | ⟨-, f', father', hp'⟩⟩ := shape.father_of_append hl' has
  · exact absurd he (shape.ne_nil scope hp)
  · have sameFather := shape.scope_owner scope (shape.fathers_live k' q f' hl' father').1 hp hp'
    exact shape.siblings k' k q p f hl' hl (sameFather ▸ father') father hs.symm

theorem finite_paths (t : Fragment) : (g.paths p t).Finite := by
  have hb : g.fathers p ⊆ { f | f < g.next } := fun f father =>
    shape.fresh .scope f (shape.fathers_live k p f hl father).1
  have hf : (g.fathers p).Finite := (finite_lt_nat g.next).subset hb
  have union : g.paths p t = ⋃ f ∈ g.fathers p, g.branch f t := by
    ext id
    simp [paths]
  rw [union]
  exact hf.biUnion fun f _ => finite_branch (shape.finite f) t

/-- New identifiers from the fathers of `p` leave at most `p` and its children to be
completed. -/
theorem addPaths {new : Set ID} (hg : new ⊆ g.paths p (tag p)) :
    Shape tag (pending ∪ {p} ∪ { q | p ∈ g.fathers q }) (g.addIDs k p new) := by
  refine ⟨{ shape.toLinks with }, ?_⟩
  constructor
  · intro k' id q
    have how : id ∈ new → q ∈ g.node k' → id ∈ g.ids q → q = p := fun hf =>
      shape.paths_owner hl (hg hf)
    have fromOld := shape.index_iff k' id q
    have oneKind := shape.one_kind k' k p
    simp only [addIDs, enter, addNames, mem_ofPred_eq]
    grind
  · rintro k' q id hl' (⟨rfl, hf⟩ | has)
    · obtain ⟨f, father, path, hp, rfl⟩ := hg hf
      exact .inr ⟨fun root => shape.root_top _ f root father, f, father, path, .inr hp, rfl⟩
    · rcases shape.sound k' q id hl' has with root | ⟨inner, f, father, path, hp, hs⟩
      · exact .inl root
      · exact .inr ⟨inner, f, father, path, .inr hp, hs⟩
  · rintro k' q f path hl' ho father (⟨rfl, -⟩ | hp)
    · exact absurd (.inr father) ho
    · have unseen : q ∉ pending := fun hm => ho (.inl (.inl hm))
      exact .inr (shape.complete k' q f path hl' unseen father hp)
  · intro k' q hl'
    obtain ⟨id, has⟩ := shape.named k' q hl'
    exact ⟨id, .inr has⟩
  · intro q
    refine (((shape.finite_paths hl (tag p)).subset hg).union (shape.finite q)).subset ?_
    rintro id (⟨-, hf⟩ | has)
    · exact .inl hf
    · exact .inr has
  · exact shape.siblings
  · rintro q id (⟨rfl, -⟩ | has)
    · exact ⟨k, hl⟩
    · exact shape.live_of_id q id has

/-- With all of them, `p` is complete and only its children are left. -/
theorem refresh (loopless : p ∉ g.fathers p) :
    Shape tag ((pending \ {p}) ∪ { q | p ∈ g.fathers q }) (g.addIDs k p (g.paths p (tag p))) := by
  have added := shape.addPaths hl (Subset.refl (g.paths p (tag p)))
  refine { added with complete := ?_ }
  intro k' q f path hl' ho father hp
  by_cases hs : q = p
  · subst hs
    rcases hp with ⟨self, -⟩ | hp
    · exact absurd (self ▸ father) loopless
    · exact .inl ⟨rfl, f, father, path, hp, rfl⟩
  · refine added.complete k' q f path hl' ?_ father hp
    rintro ((hm | self) | child)
    · exact ho (.inl ⟨hm, hs⟩)
    · exact hs self
    · exact ho (.inr child)

end

variable (shape : Shape tag ∅ g) (hl : p ∈ g.node k) (hc : ∀ q, p ∉ g.fathers q)

include shape hl hc

/-- A node that is nobody's father can be deleted. An item may not stay in a list of children. -/
theorem remove (hu : k = .item → ∀ f, f ∈ g.fathers p → father = some f) :
    Shape tag ∅ (g.remove k p father) := by
  have owner : ∀ k' q id, q ∈ g.node k' → id ∈ g.ids p → id ∈ g.ids q → p = q :=
    fun k' q id => shape.owner hl
  obtain ⟨links, names⟩ := shape
  refine ⟨links.remove hl hc hu, ?_⟩
  obtain ⟨index_iff, sound, complete, hn, finite, siblings, live_of_id⟩ := names
  constructor
  · intro k' id q
    have oneKind := links.one_kind k' k p
    simp only [Graph.remove, free, unindex, drop, eraseChild, mem_ofPred_eq]
    grind
  · rintro k' q id ⟨hd, hl'⟩ ⟨-, has⟩
    rcases sound k' q id hl' has with ⟨root, rfl⟩ | ⟨inner, f, hf, path, hp, rfl⟩
    · exact .inl ⟨⟨hd, root⟩, rfl⟩
    · have notP : f ≠ p := fun hs => hc q (hs ▸ hf)
      exact .inr ⟨fun root => inner root.2, f, ⟨hd, hf⟩, path, ⟨notP, hp⟩, rfl⟩
  · rintro k' q f path ⟨hd, hl'⟩ - ⟨-, hf⟩ ⟨-, hp⟩
    exact ⟨hd, complete k' q f path hl' (notMem_empty q) hf hp⟩
  · rintro k' q ⟨hd, hl'⟩
    obtain ⟨id, has⟩ := hn k' q hl'
    exact ⟨id, hd, has⟩
  · exact fun q => (finite q).subset fun id has => has.2
  · rintro k1 k2 q q' f ⟨-, hl1⟩ ⟨-, hl2⟩ ⟨-, father1⟩ ⟨-, father2⟩ hs
    exact siblings k1 k2 q q' f hl1 hl2 father1 father2 hs
  · rintro q id ⟨hd, has⟩
    obtain ⟨k', hl'⟩ := live_of_id q id has
    exact ⟨k', hd, hl'⟩

/-- A node without children that has another father can lose a branch. -/
theorem detach {f' : Ptr} (father : f ∈ g.fathers p) (father' : f' ∈ g.fathers p) (other : f' ≠ f) :
    Shape tag ∅ (g.detach k p f (tag p)) := by
  have scope := (shape.fathers_live k p f hl father).1
  have hg := fun path hp =>
    shape.complete k p f path hl (notMem_empty p) father hp
  -- the branches of two fathers have no identifier in common
  have differs : ∀ {f2 path}, f2 ∈ g.fathers p → f2 ≠ f → path ∈ g.ids f2 →
      path ++ [tag p] ∉ g.branch f (tag p) := by
    rintro f2 path father2 hd hp ⟨path', hp', hs⟩
    obtain ⟨rfl, -⟩ := List.append_inj' hs rfl
    exact hd (shape.scope_owner (shape.fathers_live k p f2 hl father2).1 scope hp hp')
  have owner : ∀ k' q id, q ∈ g.node k' → id ∈ g.ids p → id ∈ g.ids q → p = q :=
    fun k' q id => shape.owner hl
  obtain ⟨links, names⟩ := shape
  refine ⟨links.detach hl f (tag p), ?_⟩
  obtain ⟨index_iff, sound, complete, hn, hf, siblings, live_of_id⟩ := names
  constructor
  · intro k' id q
    have fromOld := index_iff k' id q
    have oneKind := links.one_kind k' k p
    have branchHas : id ∈ g.branch f (tag p) → id ∈ g.ids p := by
      rintro ⟨path, hp, rfl⟩
      exact hg path hp
    simp only [Graph.detach, removeIDs, unindex, eraseNames, eraseFather, eraseChild, mem_ofPred_eq]
    grind
  · rintro k' q id hl' ⟨kept, has⟩
    rcases sound k' q id hl' has with root | ⟨inner, f2, father2, path, hp, rfl⟩
    · exact .inl root
    refine .inr ⟨inner, f2, ⟨?_, father2⟩, path, ⟨?_, hp⟩, rfl⟩
    · rintro ⟨rfl, rfl⟩
      exact kept ⟨rfl, path, hp, rfl⟩
    · rintro ⟨rfl, -⟩
      exact hc q father2
  · rintro k' q f2 path hl' - ⟨notErased, father2⟩ ⟨-, hp⟩
    refine ⟨?_, complete k' q f2 path hl' (notMem_empty q) father2 hp⟩
    rintro ⟨rfl, inBranch⟩
    exact differs father2 (fun hs => notErased ⟨rfl, hs⟩) hp inBranch
  · intro k' q hl'
    by_cases hs : q = p
    · subst hs
      obtain ⟨path, hp⟩ := hn .scope f' (links.fathers_live k q f' hl father').1
      refine ⟨path ++ [tag q], ?_, complete k q f' path hl (notMem_empty q) father' hp⟩
      rintro ⟨-, inBranch⟩
      exact differs father' other hp inBranch
    · obtain ⟨id, has⟩ := hn k' q hl'
      exact ⟨id, fun both => hs both.1, has⟩
  · exact fun q => (hf q).subset fun id has => has.2
  · rintro k1 k2 q q' f2 hl1 hl2 ⟨-, father1⟩ ⟨-, father2⟩ hs
    exact siblings k1 k2 q q' f2 hl1 hl2 father1 father2 hs
  · rintro q id ⟨-, has⟩
    exact live_of_id q id has

end Shape

end Graph

end Blackadder.Rendezvous
