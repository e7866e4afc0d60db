import Blackadder.Topology.State

/-!
What a call of `updateGraph` can do, whatever the monitoring agent answers. The identifiers that
the links had at the start are a partial function `lids` of the pairs of vertices.
-/

namespace Blackadder.Topology

open List Option Link Masks

open Std (TreeMap)
open EdgeList NestedMap Program

variable {link : Link}

namespace TMIgraph

/-- Nothing but the edges, their identifiers and the reports has changed. -/
structure SameNodes (t t' : TMIgraph) : Prop where
  vertices : t'.graph.vertices = t.graph.vertices
  reverseNodeIndex : t'.reverseNodeIndex = t.reverseNodeIndex
  nodeILID : t'.nodeILID = t.nodeILID
  nodeID : t'.nodeID = t.nodeID
  rvNodeID : t'.rvNodeID = t.rvNodeID
  rmNodeID : t'.rmNodeID = t.rmNodeID
  tmToNodeFID : t'.tmToNodeFID = t.tmToNodeFID
  rvFID : t'.rvFID = t.rvFID
  tmFID : t'.tmFID = t.tmFID

theorem SameNodes.refl (t : TMIgraph) : SameNodes t t := by
  constructor <;> rfl

variable {t' t'' : TMIgraph} {edge : ICNEdge} {lid : Bitvector} {eid : Nat} {t : TMIgraph}

theorem SameNodes.trans (first : SameNodes t t') (second : SameNodes t' t'') : SameNodes t t'' :=
  ⟨second.vertices.trans first.vertices, second.reverseNodeIndex.trans first.reverseNodeIndex,
    second.nodeILID.trans first.nodeILID, second.nodeID.trans first.nodeID,
    second.rvNodeID.trans first.rvNodeID, second.rmNodeID.trans first.rmNodeID,
    second.tmToNodeFID.trans first.tmToNodeFID, second.rvFID.trans first.rvFID,
    second.tmFID.trans first.tmFID⟩

/-- All that is recorded of a link is the identifier it had at the start. -/
structure Faithful (lids : ICNEdge → Option Bitvector) (t : TMIgraph) : Prop where
  labels : ∀ link ∈ t.graph.edges, ∀ lid, Link.bits link = some lid → lids link.ends = some lid
  freed : ∀ (edge : ICNEdge) (lid : Bitvector), t.freedLIDs[edge]? = some lid → lids edge = some lid
  numbered : ∀ (number : Nat) (lid : Bitvector), t.edgeLID[number]? = some (some lid) →
    ∃ link, t.graph.edges[number]? = some link ∧ Link.bits link = some lid

/-- Edges have gone, with their identifiers to `freedLIDs`. -/
structure Shrinks (t t' : TMIgraph) : Prop where
  old : ∀ link ∈ t'.graph.edges, link ∈ t.graph.edges
  gone : ∀ link ∈ t.graph.edges, link ∈ t'.graph.edges ∨
    ∃ lid, Link.bits link = some lid ∧ t'.freedLIDs[link.ends]? = some lid

/-- Every edge that has an identifier is still there. -/
def Grows (t t' : TMIgraph) : Prop :=
  ∀ link ∈ t.graph.edges, (Link.bits link).isSome → link ∈ t'.graph.edges

theorem Shrinks.refl (t : TMIgraph) : Shrinks t t := ⟨fun _ hs => hs, fun _ hs => .inl hs⟩

theorem Grows.trans (first : Grows t t') (second : Grows t' t'') : Grows t t'' :=
  fun link hm hl => second link (first link hm hl) hl

theorem Grows.congr (hg : Grows t t') (hs : t''.graph.edges = t'.graph.edges) : Grows t t'' :=
  fun link hm hl => hs ▸ hg link hm hl

variable {lids : ICNEdge → Option Bitvector} {t : TMIgraph}

theorem lookup_insertIfNew {map : TreeMap ICNEdge Bitvector}
    (hk : ∀ old, map[edge]? = some old → old = lid) : (map.insertIfNew edge lid)[edge]? = some lid ∧
      ∀ other found, (map.insertIfNew edge lid)[other]? = some found →
        (other = edge ∧ found = lid) ∨ map[other]? = some found := by
  constructor
  · rw [getElem?_insertIfNew]
    split
    · rfl
    rename_i hp
    have hm : edge ∈ map := by simpa using hp
    obtain ⟨old, ht⟩ := mem_iff_exists.mp hm
    rw [ht, hk old ht]
  · intro other found hl
    rw [getElem?_insertIfNew] at hl
    split at hl
    · rename_i hf
      exact .inl ⟨hf.1, (Option.some.inj hl).symm⟩
    · exact .inr hl

theorem Faithful.free (faithful : t.Faithful lids) (identifier : lids edge = some lid) :
    Faithful lids (t.free edge lid) where
  labels := faithful.labels
  freed other found hl := by
    have hk : ∀ old, t.freedLIDs[edge]? = some old → old = lid := by
      intro old ht
      have hs := (faithful.freed edge old ht).symm.trans identifier
      exact Option.some.inj hs
    rcases (lookup_insertIfNew hk).2 other found hl with ⟨rfl, rfl⟩ | before
    · exact identifier
    · exact faithful.freed other found before
  numbered := faithful.numbered

/-- The identifier of a numbered edge is recorded under its ends, by this call or before. -/
theorem Faithful.free_found (faithful : t.Faithful lids) (identifier : lids edge = some lid) :
    (t.free edge lid).freedLIDs[edge]? = some lid := by
  refine (lookup_insertIfNew fun old ht => ?_).1
  exact Option.some.inj ((faithful.freed edge old ht).symm.trans identifier)

theorem free_keeps (edge : ICNEdge) (lid : Bitvector) {other : ICNEdge} {found : Bitvector}
    (hl : t.freedLIDs[other]? = some found) : (t.free edge lid).freedLIDs[other]? = some found := by
  rw [TMIgraph.free, getElem?_insertIfNew, if_neg, hl]
  rintro ⟨rfl, ha⟩
  exact ha (mem_iff_exists.mpr ⟨found, hl⟩)

section

variable (faithful : t.Faithful lids)

include faithful

theorem Faithful.report (msg : LinkReport) :
    Faithful lids (t.report msg) :=
  ⟨faithful.labels, faithful.freed, faithful.numbered⟩

theorem Faithful.updateTMStates : Faithful lids t.updateTMStates where
  labels := faithful.labels
  freed := faithful.freed
  numbered number lid found := by
    simp only [TMIgraph.updateTMStates, List.getElem?_map, map_eq_some_iff] at found
    exact found

theorem Faithful.deleteEdges (nums : List Nat) :
    Faithful lids (t.deleteEdges nums).updateTMStates where
  labels link hm := faithful.labels link ((delete_sublist _ nums).subset hm)
  freed := faithful.freed
  numbered number lid found := by
    simp only [TMIgraph.updateTMStates, List.getElem?_map, map_eq_some_iff] at found
    exact found

theorem Faithful.addEdges (edges : List ICNEdge) :
    Faithful lids (t.addEdges edges) where
  labels link hm lid bits := by
    rcases mem_append.mp hm with old | new
    · exact faithful.labels link old lid bits
    · obtain ⟨ends, -, rfl⟩ := mem_map.mp new
      cases bits
  freed := faithful.freed
  numbered number lid found := by
    obtain ⟨link, ht, bits⟩ := faithful.numbered number lid found
    have hi := (List.getElem?_eq_some_iff.mp ht).1
    exact ⟨link, by rw [TMIgraph.addEdges, setEdges, List.getElem?_append_left hi, ht], bits⟩

end

theorem bits_toText (ends : ICNEdge) (lid : Bitvector) :
    bits ⟨ends, some (toText lid)⟩ = some lid := by
  rw [bits, map_some, ofText_toText]

section

variable (faithful : t.Faithful lids) (freed : t.freedLIDs[edge]? = some lid)
  (found : number t.graph.edges edge = some eid)

include faithful freed found

theorem Faithful.getElem?_setLID {place : Nat} (here : t.graph.edges[place]? = some link)
    (hl : (bits link).isSome) : (t.setLID edge eid lid).graph.edges[place]? = some link := by
  rw [setLID, setEdges, getElem?_relabel]
  split
  · rename_i hi
    subst hi
    obtain ⟨old, ht, ends⟩ := number_eq_some found
    rw [here] at ht
    cases ht
    obtain ⟨bits, before⟩ := isSome_iff_exists.mp hl
    have hk := faithful.labels link (mem_of_getElem? here) bits before
    rw [ends, faithful.freed edge lid freed] at hk
    obtain ⟨text, has, rfl⟩ := map_eq_some_iff.mp before
    rw [here, map_some, Option.some.inj hk, toText_ofText, ← has]
  · exact here

theorem Faithful.setLID : Faithful lids (t.setLID edge eid lid) where
  labels link hm bits has := by
    rcases mem_relabel hm with before | ⟨old, here, rfl⟩
    · exact faithful.labels link before bits has
    obtain ⟨link, ht, ends⟩ := number_eq_some found
    rw [ht] at here
    cases here
    rw [bits_toText] at has
    rw [ends, faithful.freed edge lid freed, has]
  freed other bits hl := by
    simp only [TMIgraph.setLID, TreeMap.getElem?_erase] at hl
    split at hl
    · cases hl
    · exact faithful.freed other bits hl
  numbered place bits hl := by
    obtain ⟨link, here, has⟩ := faithful.numbered place bits hl
    exact ⟨link, faithful.getElem?_setLID freed found here (by rw [has]; rfl), has⟩

theorem Faithful.grows_setLID : Grows t (t.setLID edge eid lid) := by
  intro link hm hl
  obtain ⟨place, here⟩ := mem_iff_getElem?.mp hm
  exact mem_of_getElem? (faithful.getElem?_setLID freed found here hl)

end

theorem grows_addEdges (t : TMIgraph) (edges : List ICNEdge) : Grows t (t.addEdges edges) :=
  fun _ hm _ => mem_append_left _ hm

theorem shrinks_deleteEdges {t1 : TMIgraph} (hs : t1.graph.edges = t.graph.edges) (nums : List Nat)
    (freed : ∀ number ∈ nums, ∀ link, t.graph.edges[number]? = some link → ∃ lid, bits link =
      some lid ∧ t1.freedLIDs[link.ends]? = some lid) :
    Shrinks t (t1.deleteEdges nums).updateTMStates where
  old _ hm := hs ▸ (delete_sublist _ nums).subset hm
  gone link hm := by
    obtain ⟨number, ht⟩ := mem_iff_getElem?.mp hm
    by_cases hc : number ∈ nums
    · exact .inr (freed number hc link ht)
    · exact .inl (mem_delete.mpr ⟨number, hs ▸ ht, hc⟩)

end TMIgraph

/-- The identifiers that the edges of a topology have. -/
def Graph.lids (g : Graph) (edge : ICNEdge) : Option Bitvector :=
  (g.edges.find? fun link => link.ends = edge).bind Link.bits

variable {g : Graph}

theorem Graph.lids_of_mem (hu : g.adjacency.Nodup) (hm : link ∈ g.edges) :
    g.lids link.ends = bits link := by
  unfold Graph.lids
  cases found : g.edges.find? fun other => other.ends = link.ends with
  | none =>
    have other := List.find?_eq_none.mp found link hm
    exact absurd (decide_eq_true rfl) other
  | some other =>
    have hi := List.find?_some found
    have hs : other.ends = link.ends := of_decide_eq_true hi
    rw [inj_on_of_nodup_map hu (mem_of_find?_eq_some found) hm hs]
    rfl

namespace TMIgraph

theorem faithful_readTopology (hu : g.adjacency.Nodup) (nid rv : Node) :
    Faithful g.lids (readTopology g nid rv) where
  labels link hm lid bits := (Graph.lids_of_mem hu hm).trans bits
  freed edge lid hl := by
    cases hl
  numbered number lid hl := by
    simp only [readTopology, List.getElem?_map, map_eq_some_iff] at hl
    exact hl

variable {lids : ICNEdge → Option Bitvector} {t : TMIgraph}

section

variable {post : Bitvector → TMIgraph → Prop}

theorem wp_usedLID (eid : Option Nat) (faithful : t.Faithful lids)
    (next : ∀ (number : Nat) (link : Link) (lid : Bitvector), eid = some number →
      t.graph.edges[number]? = some link → bits link = some lid → post lid t) :
    wlp (usedLID eid) post t := by
  simp only [usedLID, wp_bind, wp_expect, implies_true, and_true]
  intro number found entry ht lid here
  subst here
  obtain ⟨link, edge, bits⟩ := faithful.numbered number lid ht
  exact next number link lid found edge bits

theorem wp_restore (edge : ICNEdge)
    (next : ∀ eid lid, t.freedLIDs[edge]? = some lid → number t.graph.edges edge = some eid →
      post lid (t.setLID edge eid lid)) : wlp (restore edge) post t := by
  simp only [restore, wp_bind, wp_expect, implies_true, and_true]
  intro lid freed eid found
  exact next eid lid freed found

/-- The identifier used for an edge found by its ends is the one that it had at the start. -/
theorem Faithful.identifier (faithful : t.Faithful lids) {edge : ICNEdge} {eid : Nat}
    {lid : Bitvector} (found : number t.graph.edges edge = some eid)
    (ht : t.graph.edges[eid]? = some link) (bits : bits link = some lid) :
    link.ends = edge ∧ lids edge = some lid := by
  obtain ⟨other, here, ends⟩ := number_eq_some found
  rw [ht] at here
  cases here
  exact ⟨ends, ends ▸ faithful.labels link (mem_of_getElem? ht) lid bits⟩

/-- The messages of an update to the monitoring agent: for one direction of the link or for both. -/
inductive Messages (lids : ICNEdge → Option Bitvector) (link : LinkUpdate)
    (forward backward : ICNEdge) : List LinkReport → Prop
  | none : Messages lids link forward backward []
  | one {lid : Bitvector} (known : lids forward = some lid) (state : LinkState) :
      Messages lids link forward backward
        [⟨firstOne 32 (Masks.toText lid), link.destination, link.source, state⟩]
  | two {lid back : Bitvector} (known : lids forward = some lid)
    (backKnown : lids backward = some back)
      (state : LinkState) :
      Messages lids link forward backward
        [⟨firstOne 32 (Masks.toText lid), link.destination, link.source, state⟩,
          ⟨if link.remove then (firstOne 256 (Masks.toText back)).or
            (firstOne 32 (Masks.toText lid))
            else some 0, link.source, link.destination, state⟩]

/-- A removal frees the identifiers of the edges that go, an addition leaves all others, and `false`
means that nothing was done. -/
structure Updated (lids : ICNEdge → Option Bitvector) (link : LinkUpdate)
    (forward backward : ICNEdge)
    (t : TMIgraph) (updated : Bool) (t' : TMIgraph) : Prop where
  faithful : Faithful lids t'
  nodes : SameNodes t t'
  change : if link.remove then Shrinks t t' else Grows t t'
  idle : updated = false → t' = t
  reports : ∃ sent, t'.reports = t.reports ++ sent ∧ Messages lids link forward backward sent

section

variable (faithful : t.Faithful lids) (moly : LinkReport → Bool) (link : LinkUpdate)

include faithful moly

/-- The graph only shrinks, and the LIDs of the links stay those of the start. -/
theorem removeEdges_spec {link : LinkUpdate} (remove : link.remove = true)
    (forward backward : ICNEdge) (eid : Nat) (found : number t.graph.edges forward = some eid) :
    wlp (removeEdges moly link forward backward eid) (Updated lids link forward backward t) t := by
  obtain ⟨src, dst, bidirectional, _⟩ := link
  obtain rfl := remove
  rw [removeEdges, wlp, wp_bind]
  apply wp_usedLID _ faithful
  intro number edge lid hs ht bits
  cases hs
  obtain ⟨rfl, identifier⟩ := faithful.identifier found ht bits
  have hr := faithful.free_found identifier
  have freed := (faithful.free identifier).report ⟨firstOne 32 (toText lid), dst, src, .down⟩
  simp only [wp_ite, wp_bind, wp_pure]
  refine ⟨fun _ => ⟨fun _ => ?_, fun _ => ?_⟩, fun _ => ?_⟩
  · apply wp_usedLID _ freed
    intro back backEdge backLid hs backThere backBits
    obtain ⟨rfl, backIdentifier⟩ := freed.identifier hs backThere backBits
    have both := freed.free backIdentifier
    refine ⟨fun _ =>
      ⟨(both.report _).deleteEdges _, ?_, ?_, Bool.noConfusion, _, append_assoc _ _ _,
        .two identifier backIdentifier .down⟩,
      fun _ => ⟨both.report _, ?_, ?_, Bool.noConfusion, _, append_assoc _ _ _,
        .two identifier backIdentifier .down⟩⟩
    · constructor <;> rfl
    · refine shrinks_deleteEdges (by rfl) _ ?_
      intro number hc other here
      rw [hs, toList_some, mem_cons, mem_singleton] at hc
      rcases hc with rfl | rfl
      · rw [ht] at here
        cases here
        exact ⟨lid, bits, free_keeps backEdge.ends backLid hr⟩
      · cases backThere.symm.trans here
        exact ⟨backLid, backBits, freed.free_found backIdentifier⟩
    · constructor <;> rfl
    · exact ⟨fun _ hs => hs, fun _ hs => .inl hs⟩
  · refine ⟨freed.deleteEdges [eid], ?_, ?_, Bool.noConfusion, _, rfl, .one identifier .down⟩
    · constructor <;> rfl
    · refine shrinks_deleteEdges (by rfl) _ ?_
      intro number hc other here
      rw [mem_singleton] at hc
      subst hc
      rw [ht] at here
      cases here
      exact ⟨lid, bits, hr⟩
  · refine ⟨freed, ?_, ?_, Bool.noConfusion, _, rfl, .one identifier .down⟩
    · constructor <;> rfl
    · exact ⟨fun _ hs => hs, fun _ hs => .inl hs⟩

/-- The graph only grows, by links with their LIDs of the start. -/
theorem addBrokenEdges_spec {link : LinkUpdate} (add : link.remove = false)
    (forward backward : ICNEdge) :
    wlp (addBrokenEdges moly link forward backward) (Updated lids link forward backward t) t := by
  obtain ⟨src, dst, bidirectional, _⟩ := link
  obtain rfl := add
  rw [addBrokenEdges, wlp, wp_bind, wp_update, wp_bind]
  have added := faithful.addEdges (if bidirectional then [forward, backward] else [forward])
  have more := grows_addEdges t (if bidirectional then [forward, backward] else [forward])
  apply wp_restore
  intro eid lid freed found
  have restored := (added.setLID freed found).report ⟨firstOne 32 (toText lid), dst, src, .up⟩
  have still := more.trans (added.grows_setLID freed found)
  have identifier := added.freed _ lid freed
  simp only [wp_ite, wp_bind]
  refine ⟨fun _ => ⟨fun _ => ?_, fun _ => ?_⟩, fun _ => ?_⟩
  · apply wp_restore
    intro back backLid backFreed backFound
    have both := restored.setLID backFreed backFound
    have all := still.trans (restored.grows_setLID backFreed backFound)
    have backIdentifier := restored.freed _ backLid backFreed
    exact ⟨fun _ => ⟨(both.report _).updateTMStates,
        by constructor <;> rfl, all.congr rfl, Bool.noConfusion, _, append_assoc _ _ _,
        .two identifier backIdentifier .up⟩,
      fun _ => ⟨both.report _, by constructor <;> rfl, all.congr rfl, Bool.noConfusion, _,
        append_assoc _ _ _, .two identifier backIdentifier .up⟩⟩
  · exact ⟨restored.updateTMStates, by constructor <;> rfl,
      still.congr rfl, Bool.noConfusion, _, rfl, .one identifier .up⟩
  · exact ⟨restored, by constructor <;> rfl, still.congr rfl, Bool.noConfusion, _, rfl,
      .one identifier .up⟩

theorem updateGraph_spec : wlp (updateGraph moly link) (fun updated t' => ∃ src dst,
      t.reverseNodeIndex[link.source]? = some src ∧
      t.reverseNodeIndex[link.destination]? = some dst ∧
      Updated lids link (src, dst) (dst, src) t updated t') t := by
  have idle : ∀ forward backward, Updated lids link forward backward t false t := by
    refine fun _ _ => ⟨faithful, SameNodes.refl t, ?_, fun _ => rfl, [], (append_nil _).symm, .none⟩
    split
    · exact Shrinks.refl t
    · exact fun _ hm _ => hm
  simp only [updateGraph, wp_bind, wp_read, wp_expect, implies_true, and_true]
  intro src head dst tail
  split
  · rename_i eid found
    rw [wp_ite]
    refine ⟨fun remove => ?_, fun _ => ⟨_, _, head, tail, idle _ _⟩⟩
    refine wp_post (removeEdges_spec faithful moly remove _ _ eid found) fun _ _ res => ?_
    exact ⟨_, _, head, tail, res⟩
  · rw [wp_ite]
    refine ⟨fun test => ?_, fun _ => ⟨_, _, head, tail, idle _ _⟩⟩
    rw [Bool.and_eq_true, Bool.not_eq_true'] at test
    refine wp_post (addBrokenEdges_spec faithful moly test.1 _ _) fun _ _ res => ?_
    exact ⟨_, _, head, tail, res⟩

end

end

end TMIgraph

end Blackadder.Topology
