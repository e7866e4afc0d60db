import Blackadder.Rendezvous.Graph

namespace Blackadder.Rendezvous

open Rendezvous.Graph

/-- The identifier lies under one of the root scopes of the `*`-over-ICN namespaces. -/
def KnownRoot (id : ID) : Prop := rootFragment id = httpRootScope ∨ rootFragment id = ipRootScope

instance (id : ID) : Decidable (KnownRoot id) := inferInstanceAs (Decidable (_ ∨ _))

/-- The item a request for a match is about. -/
def Out.about : Out → Option Ptr
  | matchRequest pub .. => some pub
  | unicastRequest pub .. => some pub
  | _ => none

/-- The publishers and subscribers a request for a match carries. -/
def Out.Carries : Out → Set NodeID → Set NodeID → Prop
  | matchRequest _ _ publishers subscribers _, pubs, subs =>
    (∀ h, h ∈ publishers ↔ h ∈ pubs) ∧ ∀ h, h ∈ subscribers ↔ h ∈ subs
  | unicastRequest _ _ publisher subscribers _, pubs, subs =>
    (∀ h, h = publisher ↔ h ∈ pubs) ∧ ∀ h, h ∈ subscribers ↔ h ∈ subs
  | _, _, _ => False

namespace Graph

variable (g : Graph)

def publishers (x : Ptr) : Set NodeID := { h | ∃ id, h ∈ g.hosts .publisher x id }

/-- The subscribers of an item's own identifiers and of all its fathers. -/
def subscribers (x : Ptr) : Set NodeID :=
  { h | (∃ id, h ∈ g.hosts .subscriber x id) ∨
    ∃ f ∈ g.fathers x, ∃ id, h ∈ g.hosts .subscriber f id }

/-- Some identifier of the node lies under a known root scope. -/
def Covered (x : Ptr) : Prop := ∃ id ∈ g.ids x, KnownRoot id

/-- An item that is matched as a channel: strategy `DOMAIN_LOCAL`, no known root scope. -/
def Channel (x : Ptr) : Prop :=
  g.strategy x = Strategy.domainLocal ∧ ¬ g.Covered x

/-- No node has identifiers both under known root scopes and under others. -/
def Unmixed : Prop :=
  ∀ k p id id', p ∈ g.node k → id ∈ g.ids p → id' ∈ g.ids p → (KnownRoot id ↔ KnownRoot id')

def SameRoots (p f : Ptr) : Prop :=
  ∀ id ∈ g.ids p, ∀ id' ∈ g.ids f, (KnownRoot id ↔ KnownRoot id')

/-- The items whose match depends on a host at the node `p`. -/
def affected (k : Kind) (r : Role) (p : Ptr) : Set Ptr :=
  { x | x ∈ g.node .item ∧
    ((k = .item ∧ x = p) ∨ (k = .scope ∧ r = .subscriber ∧ p ∈ g.fathers x)) }

/-- Packets that tell the current match of `x`, if `x` is a channel with a publisher. -/
def Reports (x : Ptr) (packets : List Out) : Prop :=
  (∀ o ∈ packets, ∀ y, o.about = some y → y = x) ∧
  (g.Channel x → (∃ h, h ∈ g.publishers x) → ∃ before o, packets = before ++ [o] ∧
    o.about = some x ∧ o.Carries (g.publishers x) (g.subscribers x))

/-- The shape with the last fragments it is about left open. -/
def Inv : Prop := ∃ tag, Shape tag ∅ g

end Graph

/-- What the requests of a run may do beyond the ordinary, and how far they reach. -/
structure Policy where
  /-- a scope may be deleted without its fathers being told -/
  loose : Prop
  /-- a link may join known and other root scopes -/
  mixed : Prop
  /-- a link may join nodes of different strategies -/
  uneven : Prop
  /-- a branch may go although its father's subscribers have just been reported -/
  stale : Prop
  /-- a publication under a known root scope may outlive its match -/
  lasting : Prop
  /-- nodes, links and hosts may be added -/
  growing : Prop
  /-- the nodes that hosts may leave, and that may lose identifiers -/
  target : Ptr → Prop
  /-- the hosts that may leave -/
  leaver : NodeID → Prop

namespace Policy

/-- Everything is permitted. -/
def all : Policy := ⟨True, True, True, True, True, True, fun _ => True, fun _ => True⟩

/-- The part of a request that only takes the hosts `leaver` off the nodes `target`. -/
def within (pol : Policy) (target : Ptr → Prop) (leaver : NodeID → Prop) : Policy :=
  { pol with growing := False, target, leaver }

/-- The whole of a request: it may add, and remove anywhere. -/
def Unbounded (pol : Policy) : Prop :=
  pol.growing ∧ (∀ q, pol.target q) ∧ ∀ h, pol.leaver h

end Policy

/-- One change of the graph and of the set `d` of items whose match is still to be dealt with:
reported for a channel, carried out once under a known root scope. -/
inductive Step (pol : Policy) : Set Ptr → Graph → Set Ptr → Graph → Prop
  | meet {d g} (h : NodeID) : Step pol d g d (g.meet h)
  | tell {d g packets} (silent : ∀ o ∈ packets, ∀ y, o.about = some y → g.Covered y) :
      Step pol d g d (g.send packets)
  | report {d g packets} (x : Ptr) (outside : ¬ g.Covered x) (told : g.Reports x packets) :
      Step pol d g (d \ {x}) (g.send packets)
  | settle {d g} (xs : Set Ptr)
      (moot : ∀ x ∈ xs, pol.mixed ∨ x ∉ g.node .item ∨ (∀ h, h ∉ g.publishers x) ∨
        (g.Covered x ∧ (pol.lasting ∨ ∀ h, h ∉ g.subscribers x))) :
      Step pol d g (d \ xs) g
  | forget {d d' g} (included : d ⊆ d') : Step pol d g d' g
  | create {d g k strategy father t} (growing : pol.growing)
      (scope : ∀ f, father = some f → f ∈ g.node .scope)
      (isScope : father = none → k = .scope)
      (even : ∀ f, father = some f → strategy = g.strategy f)
      (unused : ∀ k p id, p ∈ g.node k → id ∈ g.given t father → id ∉ g.ids p) :
      Step pol d g d (g.create k strategy father t)
  | register {d g k r p id h} (growing : pol.growing) (live : p ∈ g.node k)
      (has : id ∈ g.ids p) (isKnown : h ∈ g.known) :
      Step pol d g (d ∪ g.affected k r p) (g.register k r p id h)
  | unregister {d g k r p id h} (target : pol.target p) (leaver : pol.leaver h)
      (live : p ∈ g.node k) (present : h ∈ g.hosts r p id) :
      Step pol d g (d ∪ { x ∈ g.affected k r p | ¬ g.Covered x }) (g.unregister k r p id h)
  | link {d g k p f g'} (growing : pol.growing) (scope : f ∈ g.node .scope)
      (live : p ∈ g.node k) (inner : p ∉ g.root)
      (even : pol.uneven ∨ g.strategy p = g.strategy f)
      (same : pol.mixed ∨ g.SameRoots p f)
      (grows : Graph.Grows (g.attach k p f) g') (inv : g'.Inv) :
      Step pol d g (d ∪ { x | k = .item ∧ x = p }) g'
  | remove {d g k p father} (target : pol.target p) (live : p ∈ g.node k)
      (childless : ∀ q, p ∉ g.fathers q)
      (unlisted : k = .item → ∀ f, f ∈ g.fathers p → father = some f)
      (told : pol.loose ∨ ∀ f, f ∈ g.fathers p → father = some f)
      (empty : ∀ r id h, h ∉ g.hosts r p id) :
      Step pol d g d (g.remove k p father)
  | detach {d g k p f f' t} (target : pol.target p) (live : p ∈ g.node k)
      (childless : ∀ q, p ∉ g.fathers q)
      (father : f ∈ g.fathers p) (father' : f' ∈ g.fathers p) (other : f' ≠ f)
      (tagged : ∀ id ∈ g.ids p, ∃ path, id = path ++ [t])
      (empty : ∀ r, ∀ id ∈ g.branch f t, ∀ h, h ∉ g.hosts r p id) :
      Step pol d g (d ∪ { x | k = .item ∧ x = p ∧ ¬ g.Covered x }) (g.detach k p f t)
  | detachQuiet {d g k p f f' t} (target : pol.target p) (live : p ∈ g.node k)
      (childless : ∀ q, p ∉ g.fathers q)
      (father : f ∈ g.fathers p) (father' : f' ∈ g.fathers p) (other : f' ≠ f)
      (tagged : ∀ id ∈ g.ids p, ∃ path, id = path ++ [t])
      (empty : ∀ r, ∀ id ∈ g.branch f t, ∀ h, h ∉ g.hosts r p id)
      (quiet : pol.stale ∨ ¬ g.Channel p ∨ (∀ h, h ∉ g.publishers p) ∨
        (g.detach k p f t).subscribers p = g.subscribers p) :
      Step pol d g d (g.detach k p f t)

/-- Steps one after the other. -/
def Steps (pol : Policy) (d : Set Ptr) (g : Graph) (d' : Set Ptr) (g' : Graph) : Prop :=
  Relation.ReflTransGen (fun a b : Set Ptr × Graph => Step pol a.1 a.2 b.1 b.2) (d, g) (d', g')

namespace Graph.Inv

variable {g : Graph} {p f f' : Ptr} {k : Kind} {t : Fragment}

theorem detach (inv : Inv g) (hl : p ∈ g.node k) (hc : ∀ q, p ∉ g.fathers q)
    (father : f ∈ g.fathers p) (father' : f' ∈ g.fathers p) (other : f' ≠ f)
    (tagged : ∀ id ∈ g.ids p, ∃ path, id = path ++ [t]) : Inv (g.detach k p f t) := by
  obtain ⟨tag, shape⟩ := inv
  obtain ⟨id, has⟩ := shape.named k p hl
  obtain ⟨path, rfl⟩ := tagged id has
  have hs := (shape.father_of_append hl has).1
  subst hs
  exact ⟨tag, shape.detach hl hc father father' other⟩

end Graph.Inv

variable {pol : Policy} {d d' : Set Ptr} {g g' : Graph}

theorem Step.inv (step : Step pol d g d' g') (inv : g.Inv) : g'.Inv := by
  cases step with
  | meet | tell | report | register | unregister =>
    obtain ⟨tag, shape⟩ := inv
    exact ⟨tag, shape.hosted rfl⟩
  | settle | forget => exact inv
  | create _ scope isScope _ unused =>
    obtain ⟨tag, shape⟩ := inv
    exact ⟨_, shape.create _ scope isScope unused⟩
  | link _ _ _ _ _ _ _ after => exact after
  | remove _ live childless unlisted =>
    obtain ⟨tag, shape⟩ := inv
    exact ⟨tag, shape.remove live childless unlisted⟩
  | detach _ live childless father father' other tagged =>
    exact inv.detach live childless father father' other tagged
  | detachQuiet _ live childless father father' other tagged =>
    exact inv.detach live childless father father' other tagged

theorem knownRoot_append {path : ID} (suffix : ID) (inner : path ≠ []) :
    KnownRoot (path ++ suffix) ↔ KnownRoot path := by
  rw [KnownRoot, KnownRoot, rootFragment_append path suffix inner]

namespace Graph.Unmixed

variable {g g' : Graph} {p f : Ptr} {k : Kind}

theorem shrink (unmixed : Unmixed g) (node : ∀ k x, x ∈ g'.node k → x ∈ g.node k)
    (ids : ∀ x, g'.ids x ⊆ g.ids x) : Unmixed g' :=
  fun k x id id' hl has has' => unmixed k x id id' (node k x hl) (ids x has) (ids x has')

theorem create (unmixed : Unmixed g) (inv : g.Inv) {father : Option Ptr} {t : Fragment}
    (strat : Strategy) (scope : ∀ f, father = some f → f ∈ g.node .scope) :
    Unmixed (g.create k strat father t) := by
  obtain ⟨tag, shape⟩ := inv
  rintro k' x id id' hl (⟨rfl, hg⟩ | has) (⟨new, hg'⟩ | has')
  · cases father with
    | none => rw [hg, hg']
    | some f =>
      obtain ⟨path, has, rfl⟩ := hg
      obtain ⟨path', has', rfl⟩ := hg'
      rw [knownRoot_append _ (shape.ne_nil (scope f rfl) has),
        knownRoot_append _ (shape.ne_nil (scope f rfl) has')]
      exact unmixed .scope f path path' (scope f rfl) has has'
  · exact absurd has' (shape.next_unnamed id')
  · exact absurd (new ▸ has) (shape.next_unnamed id)
  · obtain ⟨k0, hl0⟩ := shape.live_of_id x id has
    exact unmixed k0 x id id' hl0 has has'

/-- Every new identifier begins with an old identifier of some father on the way. -/
theorem link (unmixed : Unmixed g) (inv : g.Inv) (inv' : g'.Inv) (scope : f ∈ g.node .scope)
    (hs : g.SameRoots p f) (hg : Grows (g.attach k p f) g') : Unmixed g' := by
  obtain ⟨tag, shape⟩ := inv
  obtain ⟨tag', shape'⟩ := inv'
  have node : g'.node = g.node := hg.node
  have agrees : ∀ (id : ID) (k' : Kind) (y : Ptr), y ∈ g.node k' → id ∈ g'.ids y →
      ∀ id0 ∈ g.ids y, (KnownRoot id ↔ KnownRoot id0) := by
    intro id
    induction id using List.reverseRecOn with
    | nil =>
      intro k' y hl has
      exact absurd rfl (shape'.ne_nil (node ▸ hl : y ∈ g'.node k') has)
    | append_singleton path t ih =>
      intro k' y hl has id0 has0
      have hl' : y ∈ g'.node k' := node ▸ hl
      have has0' : id0 ∈ g'.ids y := hg.more y has0
      obtain ⟨-, ⟨root, rfl⟩ | ⟨-, f', father, hp⟩⟩ := shape'.father_of_append hl' has
      · -- a root has one identifier
        have only : ∀ id ∈ g'.ids y, id = [tag' y] := by
          intro id has
          rcases shape'.sound k' y id hl' has with ⟨-, single⟩ | ⟨inner, -⟩
          · exact single
          · exact absurd root inner
        rw [only _ has, only _ has0']
      · have fatherLive' := (shape'.fathers_live k' y f' hl' father).1
        have fatherLive : f' ∈ g.node .scope := node ▸ fatherLive'
        obtain ⟨id1, has1⟩ := shape.named .scope f' fatherLive
        rw [knownRoot_append _ (shape'.ne_nil fatherLive' hp), ih .scope f' fatherLive hp id1 has1]
        rw [hg.fathers] at father
        rcases father with ⟨rfl, rfl⟩ | father
        · exact (hs id0 has0 id1 has1).symm
        · have given := shape.complete k' y f' id1 hl (Set.notMem_empty y) father has1
          rw [← knownRoot_append [tag y] (shape.ne_nil fatherLive has1)]
          exact unmixed k' y _ id0 hl given has0
  intro k' y id id' hl has has'
  rw [node] at hl
  obtain ⟨id0, has0⟩ := shape.named k' y hl
  rw [agrees id k' y hl has id0 has0, agrees id' k' y hl has' id0 has0]

end Graph.Unmixed

theorem Step.unmixed (hs : ¬ pol.mixed) (inv : g.Inv) (unmixed : g.Unmixed)
    (step : Step pol d g d' g') : g'.Unmixed := by
  cases step with
  | meet | tell | report | register | unregister | settle | forget => exact unmixed
  | create _ scope => exact unmixed.create inv _ scope
  | link _ scope _ _ _ same grows after =>
    exact unmixed.link inv after scope (same.resolve_left hs) grows
  | remove | detach | detachQuiet =>
    exact unmixed.shrink (fun k x hl => by first | exact hl | exact hl.2) fun x id has => has.2

theorem Step.childrenLive (hs : ¬ pol.loose) (inv : g.Inv) (ha : g.ChildrenLive)
    (step : Step pol d g d' g') : g'.ChildrenLive := by
  obtain ⟨tag, shape⟩ := inv
  cases step with
  | meet | tell | report | register | unregister | settle | forget => exact ha
  | create =>
    rintro c f (⟨rfl, -, rfl⟩ | linked)
    · exact Or.inl ⟨rfl, rfl⟩
    · exact Or.inr (ha c f linked)
  | link _ _ hl _ _ _ grows =>
    intro c f linked
    rw [grows.children] at linked
    rw [grows.node]
    rcases linked with ⟨rfl, -, rfl⟩ | linked
    · exact hl
    · exact ha c f linked
  | remove _ hl _ _ told =>
    rintro c f ⟨hd, kept, linked⟩
    have cLive := ha c f linked
    refine ⟨?_, cLive⟩
    rintro rfl
    obtain ⟨sameKind, father⟩ := shape.children_known _ _ c f linked hl
    exact kept ⟨sameKind.symm, told.resolve_left hs f father, rfl⟩
  | detach | detachQuiet => exact fun c f linked => ha c f linked.2

theorem Step.widen {target : Ptr → Prop} {leaver : NodeID → Prop}
    (step : Step (pol.within target leaver) d g d' g') (targets : ∀ q, target q → pol.target q)
    (leavers : ∀ h, leaver h → pol.leaver h) : Step pol d g d' g' := by
  cases step with
  | meet h => exact .meet h
  | tell silent => exact .tell silent
  | report x outside told => exact .report x outside told
  | settle xs moot => exact .settle xs moot
  | forget included => exact .forget included
  | create growing => exact growing.elim
  | register growing => exact growing.elim
  | link growing => exact growing.elim
  | unregister target leaver live present =>
    exact .unregister (targets _ target) (leavers _ leaver) live present
  | remove target live childless unlisted told empty =>
    exact .remove (targets _ target) live childless unlisted told empty
  | detach target live childless father father' other tagged empty =>
    exact .detach (targets _ target) live childless father father' other tagged empty
  | detachQuiet target live childless father father' other tagged empty quiet =>
    exact .detachQuiet (targets _ target) live childless father father' other tagged empty quiet

/-- What is left of a graph after some hosts have left some nodes. -/
structure Shrinks (target : Ptr → Prop) (leaver : NodeID → Prop) (g g' : Graph) : Prop where
  node : ∀ k q, q ∈ g'.node k → q ∈ g.node k
  alive : ∀ k q, q ∈ g.node k → ¬ target q → q ∈ g'.node k
  strategy : ∀ k q, q ∈ g'.node k → g'.strategy q = g.strategy q
  root : ∀ q, ¬ target q → (q ∈ g'.root ↔ q ∈ g.root)
  fewerFathers : ∀ q f, f ∈ g'.fathers q → f ∈ g.fathers q
  fathers : ∀ q f, ¬ target q → f ∈ g.fathers q → f ∈ g'.fathers q
  fewerChildren : ∀ k q f, q ∈ g'.children k f → q ∈ g.children k f
  fewerIDs : ∀ q id, id ∈ g'.ids q → id ∈ g.ids q
  ids : ∀ q id, ¬ target q → id ∈ g.ids q → id ∈ g'.ids q
  fewerHosts : ∀ r q id h, h ∈ g'.hosts r q id → h ∈ g.hosts r q id
  hosts : ∀ r q id h, h ∈ g.hosts r q id → ¬ (target q ∧ leaver h) → h ∈ g'.hosts r q id
  known : ∀ h, h ∈ g.known → h ∈ g'.known

namespace Shrinks

variable {target target' : Ptr → Prop} {leaver leaver' : NodeID → Prop} {g g' g'' : Graph}

theorem refl (g : Graph) : Shrinks target leaver g g := by
  constructor <;> grind

theorem trans (first : Shrinks target leaver g g') (second : Shrinks target leaver g' g'') :
    Shrinks target leaver g g'' := by
  obtain ⟨⟩ := first
  obtain ⟨⟩ := second
  constructor <;> grind

end Shrinks

/-- Where nothing may be added, every step leaves a part of the graph. -/
theorem Step.shrinks (fixed : ¬ pol.growing) (step : Step pol d g d' g') :
    Shrinks pol.target pol.leaver g g' := by
  cases step with
  | meet h => exact { Shrinks.refl g with known := fun _ => Or.inr }
  | tell | report | settle | forget => exact { Shrinks.refl g with }
  | create growing | register growing | link growing => exact absurd growing fixed
  | unregister target leaver live hp =>
    have same : Shrinks pol.target pol.leaver g g := .refl g
    refine { same with fewerHosts := ?_, hosts := ?_ }
    · exact fun r q id h left => left.2
    rintro r q id h hp stays
    refine ⟨?_, hp⟩
    rintro ⟨rfl, rfl, rfl, rfl⟩
    exact stays ⟨target, leaver⟩
  | remove =>
    constructor <;>
      simp only [Graph.remove, Graph.free, Graph.unindex, Graph.drop, Graph.eraseChild] <;> grind
  | detach =>
    constructor <;>
      simp only [Graph.detach, Graph.removeIDs, Graph.unindex, Graph.eraseNames,
        eraseFather, eraseChild] <;> grind
  | detachQuiet =>
    constructor <;>
      simp only [Graph.detach, Graph.removeIDs, Graph.unindex, Graph.eraseNames,
        eraseFather, eraseChild] <;> grind

namespace Steps

variable {pol : Policy} {d d' d'' : Set Ptr} {g g' g'' : Graph}

theorem refl (d : Set Ptr) (g : Graph) : Steps pol d g d g := Relation.ReflTransGen.refl

theorem trans (first : Steps pol d g d' g') (second : Steps pol d' g' d'' g'') :
    Steps pol d g d'' g'' :=
  Relation.ReflTransGen.trans first second

theorem tail (first : Steps pol d g d' g') (last : Step pol d' g' d'' g'') :
    Steps pol d g d'' g'' :=
  Relation.ReflTransGen.tail first last

theorem keeps (held : Set Ptr → Graph → Prop) (steps : Steps pol d g d' g')
    (one : ∀ {d g d' g'}, g.Inv → held d g → Step pol d g d' g' → held d' g')
    (inv : g.Inv) (start : held d g) : g'.Inv ∧ held d' g' := by
  suffices general : ∀ final, Relation.ReflTransGen
      (fun a b : Set Ptr × Graph => Step pol a.1 a.2 b.1 b.2) (d, g) final →
      final.2.Inv ∧ held final.1 final.2 from general (d', g') steps
  intro final run
  induction run with
  | refl => exact ⟨inv, start⟩
  | tail _ step ih => exact ⟨step.inv ih.1, one ih.1 ih.2 step⟩

theorem inv (steps : Steps pol d g d' g') (inv : g.Inv) : g'.Inv :=
  (steps.keeps (fun _ _ => True) (fun _ _ _ => trivial) inv trivial).1

/-- Telling the match of `x` deals with it, unless `x` is under a known root scope. -/
theorem reported {x : Ptr} {pkts : List Out} (ht : g.Reports x pkts) :
    Steps pol d g { y ∈ d | y = x → g.Covered x } (g.send pkts) := by
  by_cases hc : g.Covered x
  · have silent : ∀ o ∈ pkts, ∀ y, o.about = some y → g.Covered y :=
      fun o hm y about => ht.1 o hm y about ▸ hc
    refine ((refl d g).tail (.tell silent)).tail (.forget fun y hm => ⟨hm, fun _ => hc⟩)
  · refine ((refl d g).tail (.report x hc ht)).tail (.forget ?_)
    rintro y ⟨hm, hd⟩
    exact ⟨hm, fun hs => absurd hs hd⟩

theorem forget {d1 : Set Ptr} (steps : Steps pol d g d1 g') (hi : d1 ⊆ d') : Steps pol d g d' g' :=
  steps.tail (.forget hi)

variable {target : Ptr → Prop} {leaver : NodeID → Prop}

theorem widen (steps : Steps (pol.within target leaver) d g d' g')
    (targets : ∀ q, target q → pol.target q) (leavers : ∀ h, leaver h → pol.leaver h) :
    Steps pol d g d' g' :=
  Relation.ReflTransGen.mono (fun _ _ step => Step.widen step targets leavers) _ _ steps

theorem shrinks (steps : Steps (pol.within target leaver) d g d' g') (inv : g.Inv) :
    Shrinks target leaver g g' :=
  (steps.keeps (fun _ now => Shrinks target leaver g now)
    (fun _ before step => before.trans (step.shrinks not_false)) inv (.refl g)).2

end Steps

/-- What the handlers rely on between and inside requests. -/
structure Sane (pol : Policy) (g : Graph) : Prop where
  inv : g.Inv
  unmixed : pol.mixed ∨ g.Unmixed
  childrenLive : pol.loose ∨ g.ChildrenLive

theorem Sane.steps (sane : Sane pol g) (steps : Steps pol d g d' g') : Sane pol g' := by
  refine ⟨steps.inv sane.inv, ?_, ?_⟩
  · by_cases mixed : pol.mixed
    · exact Or.inl mixed
    · have start := sane.unmixed.resolve_left mixed
      exact Or.inr (steps.keeps (fun _ g => g.Unmixed)
        (fun inv unmixed step => step.unmixed mixed inv unmixed) sane.inv start).2
  · by_cases loose : pol.loose
    · exact Or.inl loose
    · have start := sane.childrenLive.resolve_left loose
      exact Or.inr (steps.keeps (fun _ g => g.ChildrenLive)
        (fun inv ha step => step.childrenLive loose inv ha) sane.inv start).2

end Blackadder.Rendezvous
