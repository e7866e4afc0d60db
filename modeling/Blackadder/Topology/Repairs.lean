import Blackadder.Topology.Fids

namespace Blackadder.Topology

open List Function

open Std (TreeMap)
open Program Walks

/-- The last FIDs that the nodes have been sent. -/
abbrev Told : Type := Target → Node → Option Bitvector

/-- A publication reaches its node. -/
def hear (told : Told) : Publication → Told
  | .updateFID target node _ fid =>
    Function.update told target (Function.update (told target) node (some fid))
  | .affectedLID _ _ => told
  | .discoverFailure _ _ _ => told

def hearAll (told : Told) (sent : List Publication) : Told := sent.foldl hear told

@[simp] theorem hearAll_nil (told : Told) : hearAll told [] = told := rfl

theorem hearAll_append (told : Told) (sent more : List Publication) :
    hearAll told (sent ++ more) = hearAll (hearAll told sent) more :=
  foldl_append

/-- What is recorded of a node: the FID to it, the FIDs from it, and those it was sent. -/
structure Entry where
  route : Option Bitvector
  back : Target → Option Bitvector
  told : Target → Option Bitvector

namespace Entry

def setRoute (e : Entry) (fid : Bitvector) : Entry := { e with route := some fid }

def setBack (e : Entry) (target : Target) (fid : Bitvector) : Entry :=
  { e with back := Function.update e.back target (some fid) }

def tell (e : Entry) (target : Target) (fid : Bitvector) : Entry :=
  { e with told := Function.update e.told target (some fid) }

/-- The FID from a node to a target as it is recorded, and as the node knows it. -/
def held (e : Entry) (target : Target) : Option Bitvector × Option Bitvector :=
  (e.back target, e.told target)

theorem setRoute_eq {e : Entry} {fid : Bitvector} (hs : e.route = some fid) :
    e.setRoute fid = e := by
  rw [setRoute, ← hs]

end Entry

namespace TMIgraph

def entry (t : TMIgraph) (told : Told) (node : Node) : Entry where
  route := t.tmToNodeFID[node]?
  back target := (target.fids t)[node]?
  told target := told target node

/-- Only the FIDs have changed. -/
structure SameLinks (t t' : TMIgraph) : Prop where
  graph : t'.graph = t.graph
  reverseNodeIndex : t'.reverseNodeIndex = t.reverseNodeIndex
  nodeILID : t'.nodeILID = t.nodeILID
  edgeLID : t'.edgeLID = t.edgeLID
  freedLIDs : t'.freedLIDs = t.freedLIDs
  nodeID : t'.nodeID = t.nodeID
  rvNodeID : t'.rvNodeID = t.rvNodeID
  rmNodeID : t'.rmNodeID = t.rmNodeID

theorem SameLinks.refl (t : TMIgraph) : SameLinks t t := ⟨rfl, rfl, rfl, rfl, rfl, rfl, rfl, rfl⟩

variable {t t' t'' : TMIgraph} {node : Node} {more lids : List Bitvector}
  {calculated : Except Fault Bitvector}

theorem SameLinks.trans (first : SameLinks t t') (second : SameLinks t' t'') : SameLinks t t'' :=
  ⟨second.graph.trans first.graph, second.reverseNodeIndex.trans first.reverseNodeIndex,
    second.nodeILID.trans first.nodeILID, second.edgeLID.trans first.edgeLID,
    second.freedLIDs.trans first.freedLIDs, second.nodeID.trans first.nodeID,
    second.rvNodeID.trans first.rvNodeID, second.rmNodeID.trans first.rmNodeID⟩

theorem SameLinks.target (hs : SameLinks t t') (target : Target) :
    target.node t' = target.node t := by
  cases target with
  | rv => exact hs.rvNodeID
  | tm => exact hs.nodeID

theorem SameLinks.orTexts (hs : SameLinks t t') (path : List Vertex) (res : Bitvector) :
    t'.orTexts path res = t.orTexts path res := by
  have nums : t'.getEid = t.getEid := by
    unfold getEid
    rw [hs.graph]
  have texts : t'.textOf = t.textOf := by
    unfold textOf
    rw [hs.graph]
  induction path generalizing res with
  | nil => rfl
  | cons u tail ih =>
    cases tail with
    | nil => rfl
    | cons =>
      rw [TMIgraph.orTexts, TMIgraph.orTexts, nums, texts]
      simp only [ih]

theorem SameLinks.calculateFID [ShortestPaths Vertex] (hs : SameLinks t t') (src dst : Node) :
    t'.calculateFID src dst = t.calculateFID src dst := by
  unfold TMIgraph.calculateFID vertexOf shortestPath
  simp only [hs.orTexts, hs.graph, hs.reverseNodeIndex]

/-- Only what is recorded of one node has changed. -/
structure Touches (node : Node) (t t' : TMIgraph) (sent : List Publication) : Prop where
  links : SameLinks t t'
  others : ∀ (told : Told) (other : Node), other ≠ node →
    t'.entry (hearAll told sent) other = t.entry told other

theorem Touches.refl (node : Node) (t : TMIgraph) : Touches node t t [] :=
  ⟨SameLinks.refl t, fun _ _ _ => rfl⟩

theorem Touches.trans {sent more : List Publication} (first : Touches node t t' sent)
    (second : Touches node t' t'' more) : Touches node t t'' (sent ++ more) where
  links := first.links.trans second.links
  others told other hd := by
    rw [hearAll_append, second.others _ other hd, first.others _ other hd]

section

variable (t : TMIgraph) (told : Told) (node : Node) (fid : Bitvector)
variable (map : TreeMap Node Bitvector) (target : Target) (route : Bitvector) {other : Node}

theorem getElem?_insert_other (hd : other ≠ node) :
    (map.insert node fid)[other]? = map[other]? := by
  rw [NestedMap.getElem?_insert, if_neg hd]

theorem entry_setTMToNodeFID :
    (t.setTMToNodeFID node fid).entry told node = (t.entry told node).setRoute fid := by
  simp only [entry, setTMToNodeFID, Entry.setRoute, TreeMap.getElem?_insert_self,
    Entry.mk.injEq, true_and,
    and_true]
  funext target
  cases target with
  | rv => rfl
  | tm => rfl

theorem touches_setTMToNodeFID : Touches node t (t.setTMToNodeFID node fid) [] where
  links := ⟨rfl, rfl, rfl, rfl, rfl, rfl, rfl, rfl⟩
  others told other hd := by
    simp only [entry, setTMToNodeFID, hearAll_nil, getElem?_insert_other node fid _ hd,
      Entry.mk.injEq, true_and, and_true]
    funext target
    cases target with
    | rv => rfl
    | tm => rfl

theorem fids_set_self : (target.fids (target.set node fid t))[node]? = some fid := by
  cases target with
  | rv | tm => exact TreeMap.getElem?_insert_self

theorem fids_set_other {target other : Target} (hd : other ≠ target) :
    other.fids (target.set node fid t) = other.fids t := by
  cases target with
  | rv =>
    cases other with
    | rv => exact absurd rfl hd
    | tm => rfl
  | tm =>
    cases other with
    | rv => rfl
    | tm => exact absurd rfl hd

theorem fids_set_node (place : Target) (hd : other ≠ node) :
    (place.fids (target.set node fid t))[other]? = (place.fids t)[other]? := by
  by_cases hs : place = target
  · subst hs
    cases place with
    | rv | tm => exact getElem?_insert_other node fid _ hd
  · rw [fids_set_other t node fid hs]

theorem tmToNodeFID_set : (target.set node fid t).tmToNodeFID = t.tmToNodeFID := by
  cases target with
  | rv => rfl
  | tm => rfl

theorem sameLinks_set : SameLinks t (target.set node fid t) := by
  cases target with
  | rv | tm => exact ⟨rfl, rfl, rfl, rfl, rfl, rfl, rfl, rfl⟩

theorem entry_set :
    (target.set node fid t).entry told node = (t.entry told node).setBack target fid := by
  simp only [entry, Entry.setBack, tmToNodeFID_set, Entry.mk.injEq, true_and, and_true]
  funext place
  by_cases hs : place = target
  · subst hs
    rw [update_self, fids_set_self]
  · rw [update_of_ne hs, fids_set_other t node fid hs]

theorem touches_set : Touches node t (target.set node fid t) [] where
  links := sameLinks_set t node fid target
  others told other hd := by
    simp [entry, tmToNodeFID_set, fids_set_node t node fid target _ hd]

theorem entry_hear : t.entry (hear told (.updateFID target node route fid)) node =
      (t.entry told node).tell target fid := by
  simp only [entry, Entry.tell, hear, Entry.mk.injEq, true_and]
  funext place
  by_cases hs : place = target
  · subst hs
    rw [update_self, update_self, update_self]
  · rw [update_of_ne hs, update_of_ne hs]

theorem touches_hear : Touches node t t [.updateFID target node route fid] where
  links := SameLinks.refl t
  others told other hd := by
    simp only [entry, hearAll, foldl_cons, foldl_nil, hear, Entry.mk.injEq, true_and]
    funext place
    by_cases hs : place = target
    · subst hs
      rw [update_self, update_of_ne hd]
    · rw [update_of_ne hs]

end

theorem wp_getTMToNodeFID {post : Bitvector → TMIgraph → Prop}
    (next : ∀ fid, t.tmToNodeFID[node]? = some fid → post fid t) :
    wlp (getTMToNodeFID node) post t := by
  rw [getTMToNodeFID, wlp, wp_examine]
  exact ⟨fun fid hf => next fid (find_eq_ok.mp hf), fun _ _ => trivial⟩

/-- Calculated over the graph, or the old one, which none of the failed LIDs affects. -/
def Renewed (lids : List Bitvector) (calculated : Except Fault Bitvector) (old new : Bitvector) :
    Prop :=
  calculated = .ok new ∨ (new = old ∧ ∀ lid ∈ lids, ¬ Masks.Covers old lid)

theorem Renewed.trans {old middle new : Bitvector} (first : Renewed lids calculated old middle)
    (second : Renewed more calculated middle new) : Renewed (lids ++ more) calculated old new := by
  rcases second with hf | ⟨rfl, none⟩
  · exact .inl hf
  rcases first with hf | ⟨rfl, before⟩
  · exact .inl hf
  refine .inr ⟨rfl, fun lid hm => ?_⟩
  rcases mem_append.mp hm with early | late
  · exact before lid early
  · exact none lid late

/-- A FID from a node, with what the node was told. A new one has been sent. -/
def Resent (lids : List Bitvector) (calculated : Except Fault Bitvector)
    (old new : Option Bitvector × Option Bitvector) : Prop :=
  (∃ fid, calculated = .ok fid ∧ new = (some fid, some fid)) ∨
    (new = old ∧ ∀ fid, old.1 = some fid → ∀ lid ∈ lids, ¬ Masks.Covers fid lid)

theorem Resent.trans {old middle new : Option Bitvector × Option Bitvector}
    (first : Resent lids calculated old middle) (second : Resent more calculated middle new) :
    Resent (lids ++ more) calculated old new := by
  rcases second with hf | ⟨rfl, none⟩
  · exact .inl hf
  rcases first with hf | ⟨rfl, before⟩
  · exact .inl hf
  refine .inr ⟨rfl, fun fid held lid hm => ?_⟩
  rcases mem_append.mp hm with early | late
  · exact before fid held lid early
  · exact none fid held lid late

section

/-- A loop over all nodes that treats each of them on its own. -/
theorem wp_nodes {β : Type} (body : β → Node → Program TMIgraph Fault β)
    (published : β → List Publication) (relation : Node → Entry → Entry → Prop)
    (step : ∀ acc node fid t₁, SameLinks t t₁ → t₁.tmToNodeFID[node]? = some fid →
      wlp (body acc node) (fun acc' t2 => ∃ more, published acc' = published acc ++ more ∧
        Touches node t₁ t2 more ∧ ∀ told : Told,
          relation node (t₁.entry told node) (t2.entry (hearAll told more) node)) t₁)
    (init : β) (he : published init = []) :
    wlp (t.tmToNodeFID.keys.foldlM body init) (fun acc t' => SameLinks t t' ∧
      ∀ (told : Told) (node : Node), node ∈ t.tmToNodeFID →
        relation node (t.entry told node) (t'.entry (hearAll told (published acc)) node)) t := by
  refine wp_post (wp_foldlM_visited t.tmToNodeFID.keys body (fun seen acc t₁ =>
    SameLinks t t₁ ∧ ∀ (told : Told) (node : Node), (node ∈ seen → relation node (t.entry told node)
        (t₁.entry (hearAll told (published acc)) node)) ∧
      (node ∉ seen → t₁.entry (hearAll told (published acc)) node = t.entry told node))
    ?_ init t ⟨SameLinks.refl t, fun _ _ => ⟨nofun, fun _ => ?_⟩⟩) ?_
  · intro seen cur rest acc t₁ split ⟨links, entries⟩
    have hd := t.tmToNodeFID.nodup_keys
    rw [split] at hd
    have hf : cur ∉ seen := fun before =>
      (nodup_append.mp hd).2.2 cur before cur mem_cons_self rfl
    have hp : cur ∈ t.tmToNodeFID := by
      rw [← TreeMap.mem_keys, split]
      exact mem_append_right _ mem_cons_self
    obtain ⟨fid, ht⟩ := NestedMap.mem_iff_exists.mp hp
    have here : t₁.tmToNodeFID[cur]? = some fid :=
      (congrArg Entry.route ((entries (fun _ _ => none) cur).2 hf)).trans ht
    refine wp_post (step acc cur fid t₁ links here) ?_
    rintro acc' t2 ⟨more, added, touches, treated⟩
    refine ⟨links.trans touches.links, fun told node => ?_⟩
    rw [added, hearAll_append]
    by_cases hs : node = cur
    · subst hs
      refine ⟨fun _ => ?_, fun ho => absurd (mem_append_right _ (mem_singleton_self _)) ho⟩
      rw [← (entries told node).2 hf]
      exact treated _
    · rw [touches.others _ node hs, mem_append, mem_singleton]
      simp only [hs, or_false]
      exact entries told node
  · rw [he, hearAll_nil]
  · rintro acc t' ⟨links, entries⟩
    exact ⟨links, fun told node hp => (entries told node).1 (TreeMap.mem_keys.mpr hp)⟩

theorem hearAll_affectedLIDs (told : Told) (route : Bitvector) (lids : List Bitvector) :
    hearAll told (lids.map (.affectedLID route)) = told := by
  induction lids with
  | nil => rfl
  | cons lid rest ih => exact ih

variable [ShortestPaths Vertex]

/-- What the loops leave of a node after a failure. -/
structure Repaired (t : TMIgraph) (lids : List Bitvector) (node : Node) (old new : Entry) :
    Prop where
  route : ∃ before after, old.route = some before ∧ new.route = some after ∧
    Renewed lids (t.calculateFID t.nodeID node) before after
  back : new.route ≠ some 0 → ∀ target : Target,
    Resent lids (t.calculateFID node (target.node t)) (old.held target) (new.held target)

/-- What the loop leaves of a node after a restoration. -/
structure Reconnected (t : TMIgraph) (node : Node) (old new : Entry) : Prop where
  connected : old.route ≠ some 0 → new = old
  route : old.route = some 0 → ∃ fid, t.calculateFID t.nodeID node = .ok fid ∧
    new.route = some fid
  back : old.route = some 0 → new.route ≠ some 0 → ∀ target : Target,
    ∃ fid, t.calculateFID node (target.node t) = .ok fid ∧ new.held target = (some fid, some fid)

variable {t : TMIgraph} {node : Node}

theorem renew_spec (t : TMIgraph) (target : Target) (node : Node) :
    wlp (renew target node) (fun sent t' => Touches node t t' sent ∧
      ∃ fid, t.calculateFID node (target.node t) = .ok fid ∧ ∀ told : Told,
        t'.entry (hearAll told sent) node = ((t.entry told node).setBack target fid).tell target
          fid) t := by
  rw [renew, wlp, wp_bind, wp_examine]
  refine ⟨fun fid calculated => ?_, fun _ _ => trivial⟩
  rw [wp_bind, wp_update, wp_bind]
  apply wp_getTMToNodeFID
  intro route _
  have first := touches_set t node fid target
  have second := touches_hear (target.set node fid t) node fid target route
  refine ⟨first.trans second, fid, calculated, fun told => ?_⟩
  change (target.set node fid t).entry (hear told (.updateFID target node route fid)) node = _
  rw [entry_hear, entry_set]

open Touches

theorem recheck_spec (t : TMIgraph) (target : Target) (node : Node) (lid : Bitvector) :
    wlp (recheck target node lid) (fun sent t' => Touches node t t' sent ∧ ∀ told : Told,
      (t'.entry (hearAll told sent) node).route = (t.entry told node).route ∧
      Resent [lid] (t.calculateFID node (target.node t)) ((t.entry told node).held target)
        ((t'.entry (hearAll told sent) node).held target) ∧ ∀ other, other ≠ target →
        (t'.entry (hearAll told sent) node).held other = (t.entry told node).held other) t := by
  rw [recheck, wlp, wp_bind, wp_examine]
  refine ⟨fun fid hf => ?_, fun _ _ => trivial⟩
  rw [wp_ite]
  constructor
  · intro _
    refine wp_post (renew_spec t target node) ?_
    rintro sent t' ⟨touches, fid, calculated, entries⟩
    refine ⟨touches, fun told => ?_⟩
    rw [entries told]
    refine ⟨rfl, .inl ⟨fid, calculated, ?_⟩, fun other hd => ?_⟩
    · simp [Entry.held, Entry.tell, Entry.setBack]
    · simp only [Entry.held, Entry.tell, Entry.setBack, update_of_ne hd]
  · intro hu
    refine ⟨refl node t, fun told => ⟨rfl, .inr ⟨rfl, fun old held => ?_⟩, fun _ _ => rfl⟩⟩
    cases (find_eq_ok.mp hf).symm.trans held
    intro other hm
    rw [mem_singleton.mp hm]
    exact hu

variable {fid : Bitvector} {t₁ : TMIgraph} {old new : Entry}

theorem reroute_spec (hp : t.tmToNodeFID[node]? = some fid) (lid : Bitvector) :
    wlp (reroute node lid) (fun _ t' => Touches node t t' [] ∧
      ∃ new, Renewed [lid] (t.calculateFID t.nodeID node) fid new ∧ ∀ told : Told,
        t'.entry told node = (t.entry told node).setRoute new) t := by
  rw [reroute, wlp, wp_bind]
  apply wp_getTMToNodeFID
  intro old hf
  cases hp.symm.trans hf
  rw [wp_ite]
  constructor
  · intro _
    rw [wp_bind, wp_examine]
    refine ⟨fun new calculated => ?_, fun _ _ => trivial⟩
    exact ⟨touches_setTMToNodeFID t node new, new, .inl calculated,
      fun told => entry_setTMToNodeFID t told node new⟩
  · intro hu
    refine ⟨refl node t, fid, .inr ⟨rfl, fun other hm => ?_⟩, fun told => ?_⟩
    · rw [mem_singleton.mp hm]
      exact hu
    · exact (Entry.setRoute_eq hf).symm

theorem repairRoute_spec (hp : t.tmToNodeFID[node]? = some fid) (ucNotification : Bool)
    (lids : List Bitvector) :
    wlp (repairRoute ucNotification lids node) (fun sent t' => Touches node t t' sent ∧
      ∃ new, Renewed lids (t.calculateFID t.nodeID node) fid new ∧ ∀ told : Told,
        t'.entry (hearAll told sent) node = (t.entry told node).setRoute new) t := by
  refine wp_foldlM_visited lids _ (fun seen sent t' => Touches node t t' sent ∧
    ∃ new, Renewed seen (t.calculateFID t.nodeID node) fid new ∧ ∀ told : Told,
      t'.entry (hearAll told sent) node = (t.entry told node).setRoute new) ?_ [] t
    ⟨refl node t, fid, .inr ⟨rfl, nofun⟩, fun _ => (Entry.setRoute_eq hp).symm⟩
  intro seen lid rest sent t₁ _ ⟨touches, middle, renewed, entries⟩
  have here : t₁.tmToNodeFID[node]? = some middle := congrArg Entry.route (entries fun _ _ => none)
  refine wp_seq (reroute_spec here lid) ?_
  rintro _ t2 ⟨next, new, ha, after⟩
  rw [touches.links.calculateFID, touches.links.nodeID] at ha
  have hr : ∀ told : Told,
      t2.entry (hearAll told sent) node = (t.entry told node).setRoute new := by
    intro told
    rw [after, entries]
    rfl
  rw [wp_ite]
  constructor
  · intro _
    rw [wp_bind]
    apply wp_getTMToNodeFID
    intro route _
    have hq : Touches node t2 t2 [.affectedLID route lid] := ⟨SameLinks.refl _, fun _ _ _ => rfl⟩
    refine ⟨append_nil sent ▸ (touches.trans next).trans hq, new, renewed.trans ha, fun told => ?_⟩
    rw [hearAll_append]
    exact hr told
  · intro _
    exact ⟨append_nil sent ▸ touches.trans next, new, renewed.trans ha, hr⟩

/-- The node is sent each of its FIDs that has one of the LIDs anew. -/
theorem repairReturn_spec (t : TMIgraph) (lids : List Bitvector) (node : Node) :
    wlp (repairReturn lids node) (fun sent t' => Touches node t t' sent ∧ ∀ told : Told,
      (t'.entry (hearAll told sent) node).route = (t.entry told node).route ∧
      ∀ target : Target, Resent lids (t.calculateFID node (target.node t))
        ((t.entry told node).held target) ((t'.entry (hearAll told sent) node).held target)) t := by
  refine wp_foldlM_visited lids _ (fun seen sent t' => Touches node t t' sent ∧ ∀ told : Told,
      (t'.entry (hearAll told sent) node).route = (t.entry told node).route ∧
      ∀ target : Target, Resent seen (t.calculateFID node (target.node t))
        ((t.entry told node).held target) ((t'.entry (hearAll told sent) node).held target))
    ?_ [] t ⟨refl node t, fun _ => ⟨rfl, fun _ => .inr ⟨rfl, fun _ _ => nofun⟩⟩⟩
  intro seen lid rest sent t₁ _ ⟨touches, entries⟩
  refine wp_seq (recheck_spec t₁ .rv node lid) ?_
  rintro rv t2 ⟨first, rvEntry⟩
  refine wp_seq (recheck_spec t2 .tm node lid) ?_
  rintro tm t3 ⟨second, tmEntry⟩
  have links := touches.links.trans first.links
  simp only [touches.links.calculateFID, touches.links.target] at rvEntry
  simp only [links.calculateFID, links.target] at tmEntry
  refine ⟨touches.trans (first.trans second), fun told => ?_⟩
  rw [hearAll_append, hearAll_append]
  obtain ⟨route, back⟩ := entries told
  obtain ⟨rvRoute, rvBack, tmSame⟩ := rvEntry (hearAll told sent)
  obtain ⟨tmRoute, tmBack, rvSame⟩ := tmEntry (hearAll (hearAll told sent) rv)
  refine ⟨tmRoute.trans (rvRoute.trans route), fun target => ?_⟩
  cases target with
  | rv =>
    rw [rvSame .rv nofun]
    exact (back .rv).trans rvBack
  | tm =>
    rw [tmSame .tm nofun] at tmBack
    exact (back .tm).trans tmBack

theorem repairNode_spec (hp : t.tmToNodeFID[node]? = some fid) (ucNotification : Bool)
    (lids : List Bitvector) :
    wlp (repairNode ucNotification lids node) (fun sent t' => Touches node t t' sent ∧
      ∀ told : Told, Repaired t lids node (t.entry told node)
        (t'.entry (hearAll told sent) node)) t := by
  rw [repairNode]
  refine wp_seq (repairRoute_spec hp ucNotification lids) ?_
  rintro affected t₁ ⟨touches, new, renewed, entries⟩
  rw [wp_bind]
  apply wp_getTMToNodeFID
  intro route here
  cases here.symm.trans (congrArg Entry.route (entries fun _ _ => none))
  rw [wp_ite]
  constructor
  · intro _
    refine wp_seq (repairReturn_spec t₁ lids node) ?_
    rintro updates t2 ⟨next, after⟩
    simp only [touches.links.calculateFID, touches.links.target] at after
    refine ⟨touches.trans next, fun told => ?_⟩
    rw [hearAll_append]
    obtain ⟨hs, back⟩ := after (hearAll told affected)
    rw [entries told] at hs back
    exact ⟨⟨fid, new, hp, hs, renewed⟩, fun _ => back⟩
  · intro isolated
    have zero : new = 0 := not_not.mp isolated
    have rv := touches_set t₁ node 0 .rv
    have tm := touches_set (Target.rv.set node 0 t₁) node 0 .tm
    refine ⟨?_, fun told => ?_⟩
    · have both := touches.trans (rv.trans tm)
      rwa [append_nil, append_nil] at both
    · rw [entry_set, entry_set, entries told]
      refine ⟨⟨fid, new, hp, rfl, renewed⟩, fun hr => ?_⟩
      exact absurd (congrArg some zero) hr

/-- A node that was out of reach gets its FIDs where there is a way again. -/
theorem reconnectNode_spec (t : TMIgraph) (node : Node) :
    wlp (reconnectNode node) (fun sent t' => Touches node t t' sent ∧
      ∀ told : Told, Reconnected t node (t.entry told node)
        (t'.entry (hearAll told sent) node)) t := by
  rw [reconnectNode, wlp, wp_bind]
  apply wp_getTMToNodeFID
  intro old hp
  rw [wp_ite]
  constructor
  · rintro rfl
    rw [wp_bind, wp_examine]
    refine ⟨fun new calculated => ?_, fun _ _ => trivial⟩
    rw [wp_ite]
    constructor
    · intro _
      rw [wp_bind, wp_update, wp_bind]
      have touches := touches_setTMToNodeFID t node new
      refine wp_post (renew_spec (t.setTMToNodeFID node new) .rv node) ?_
      rintro rv t2 ⟨first, rvFID, rvCalculated, rvEntry⟩
      refine wp_seq (renew_spec t2 .tm node) ?_
      rintro tm t3 ⟨second, tmFID, tmCalculated, tmEntry⟩
      have links := touches.links.trans first.links
      rw [touches.links.calculateFID] at rvCalculated
      rw [links.calculateFID, links.target] at tmCalculated
      refine ⟨touches.trans (first.trans second), fun told => ?_⟩
      rw [hearAll_append, tmEntry, rvEntry, entry_setTMToNodeFID]
      refine ⟨absurd hp, fun _ => ⟨new, calculated, rfl⟩, fun _ _ target => ?_⟩
      cases target with
      | rv => exact ⟨rvFID, rvCalculated, rfl⟩
      | tm => exact ⟨tmFID, tmCalculated, rfl⟩
    · intro still
      have zero : new = 0 := not_not.mp still
      refine ⟨refl node t, fun told => ?_⟩
      exact ⟨absurd hp, fun _ => ⟨new, calculated, hp.trans (congrArg some zero.symm)⟩,
        fun _ hr => absurd hp hr⟩
  · intro hc
    have other : t.tmToNodeFID[node]? ≠ some 0 := by
      rw [hp]
      exact fun hs => hc (Option.some.inj hs)
    exact ⟨refl node t, fun told => ⟨fun _ => rfl, fun zero => absurd zero other,
      fun zero => absurd zero other⟩⟩

theorem Repaired.congr (hs : SameLinks t t₁) (repaired : Repaired t₁ lids node old new) :
    Repaired t lids node old new := by
  obtain ⟨route, back⟩ := repaired
  simp only [hs.calculateFID, hs.nodeID, hs.target] at route back
  exact ⟨route, back⟩

theorem Reconnected.congr (hs : SameLinks t t₁) (reconnected : Reconnected t₁ node old new) :
    Reconnected t node old new := by
  obtain ⟨hc, route, back⟩ := reconnected
  simp only [hs.calculateFID, hs.nodeID, hs.target] at route back
  exact ⟨hc, route, back⟩

theorem repairNodes_spec (t : TMIgraph) (ucNotification : Bool) (lids : List Bitvector) :
    wlp (repairNodes ucNotification lids) (fun res t' => SameLinks t t' ∧
      ∀ (told : Told) (node : Node), node ∈ t.tmToNodeFID →
        Repaired t lids node (t.entry told node) (t'.entry (hearAll told res.1) node)) t := by
  refine wp_nodes _ Prod.fst (Repaired t lids) ?_ ([], 0) rfl
  rintro ⟨sent, all⟩ node fid t₁ links hp
  refine wp_seq (repairNode_spec hp ucNotification lids) ?_
  rintro more t2 ⟨touches, repaired⟩
  rw [wp_bind]
  apply wp_getTMToNodeFID
  intro route _
  exact ⟨more, rfl, touches, fun told => (repaired told).congr links⟩

theorem reconnectNodes_spec (t : TMIgraph) : wlp reconnectNodes (fun sent t' => SameLinks t t' ∧
      ∀ (told : Told) (node : Node), node ∈ t.tmToNodeFID →
        Reconnected t node (t.entry told node) (t'.entry (hearAll told sent) node)) t := by
  refine wp_nodes _ id (Reconnected t) ?_ [] rfl
  intro sent node fid t₁ links _
  refine wp_seq (reconnectNode_spec t₁ node) ?_
  rintro more t2 ⟨touches, reconnected⟩
  exact ⟨more, rfl, touches, fun told => (reconnected told).congr links⟩

/-- What a notification does, where the links had the identifiers `lids` at the start. -/
inductive Step (lids : ICNEdge → Option Bitvector) (t : TMIgraph) (told : Told) :
    TMIgraph → Told → Prop
  | idle : Step lids t told t told
  | failure {t₁ t' : TMIgraph} {told' : Told} (faithful : t₁.Faithful lids)
      (nodes : SameNodes t t₁) (shrinks : Shrinks t t₁) (links : SameLinks t₁ t')
      (repaired : ∀ node ∈ t.tmToNodeFID,
        Repaired t₁ t₁.affectedLIDs node (t.entry told node) (t'.entry told' node)) :
      Step lids t told t' told'
  | restoration {t₁ t' : TMIgraph} {told' : Told} (faithful : t₁.Faithful lids)
      (nodes : SameNodes t t₁) (grows : Grows t t₁) (links : SameLinks t₁ t')
      (reconnected : ∀ node ∈ t.tmToNodeFID,
        Reconnected t₁ node (t.entry told node) (t'.entry told' node)) :
      Step lids t told t' told'

omit [ShortestPaths Vertex] in
theorem SameNodes.entry (hs : SameNodes t t₁) (told : Told) (node : Node) :
    t₁.entry told node = t.entry told node := by
  simp only [TMIgraph.entry, hs.tmToNodeFID, Entry.mk.injEq, true_and, and_true]
  funext target
  cases target with
  | rv => simp only [Target.fids, hs.rvFID]
  | tm => simp only [Target.fids, hs.tmFID]

variable {lids : ICNEdge → Option Bitvector} (faithful : t.Faithful lids) (moly : LinkReport → Bool)

include faithful moly

/-- A whole notification is one step of the routes and of what the nodes know. -/
theorem linkStateChanged_step (link : LinkUpdate) (ucNotification : Bool)
    (finish : List Bitvector → List Publication × Bitvector →
      Program TMIgraph Fault (List Publication))
    (hq : ∀ lids res (t₁ : TMIgraph), wlp (finish lids res) (fun sent t' => t' = t₁ ∧
      ∀ told : Told, hearAll told sent = hearAll told res.1) t₁) :
    wlp (linkStateChanged moly ucNotification link finish)
      (fun sent t' => ∀ told : Told, Step lids t told t' (hearAll told sent)) t := by
  rw [linkStateChanged]
  refine wp_seq (updateGraph_spec faithful moly link) ?_
  rintro update t₁ ⟨-, -, -, -, faithful', nodes, change, idle, -⟩
  have hk : ∀ node, node ∈ t.tmToNodeFID → node ∈ t₁.tmToNodeFID := by
    intro node hm
    rw [nodes.tmToNodeFID]
    exact hm
  rw [wp_ite]
  constructor
  · intro _
    rw [wp_ite]
    constructor
    · intro remove
      rw [if_pos remove] at change
      rw [wp_bind, wp_read]
      refine wp_seq (repairNodes_spec t₁ ucNotification t₁.affectedLIDs) ?_
      rintro res t2 ⟨links, repaired⟩
      refine wp_post (hq t₁.affectedLIDs res t2) ?_
      rintro sent _ ⟨rfl, hs⟩ told
      refine .failure faithful' nodes change links fun node hm => ?_
      rw [hs, ← nodes.entry]
      exact repaired told node (hk node hm)
    · intro add
      rw [if_neg add] at change
      refine wp_post (reconnectNodes_spec t₁) ?_
      rintro sent t2 ⟨links, reconnected⟩ told
      refine .restoration faithful' nodes change links fun node hm => ?_
      rw [← nodes.entry]
      exact reconnected told node (hk node hm)
  · intro hr told
    rw [idle (Bool.not_eq_true _ ▸ hr)]
    exact .idle

theorem pathManagement_step (ucNotification : Bool) (n : Notification) :
    wlp (pathManagement moly ucNotification n)
      (fun sent t' => ∀ told : Told, Step lids t told t' (hearAll told sent)) t := by
  apply linkStateChanged_step faithful
  intro lids res t₁
  refine ⟨rfl, fun told => ?_⟩
  split
  · rfl
  · rw [hearAll_append, hearAll_affectedLIDs]

theorem resilience_step (n : Notification) : wlp (resilience moly n)
      (fun sent t' => ∀ told : Told, Step lids t told t' (hearAll told sent)) t := by
  apply linkStateChanged_step faithful
  intro lids res t₁
  rw [wlp, wp_bind, wp_read, wp_bind]
  apply wp_getTMToNodeFID
  intro route _
  refine ⟨rfl, fun told => ?_⟩
  rw [hearAll_append]
  rfl

end

end TMIgraph

end Blackadder.Topology
