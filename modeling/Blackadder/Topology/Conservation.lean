import Blackadder.Topology.Steps

namespace Blackadder.Topology

open List Masks Link Bool Option

open Std (TreeMap)
open EdgeList NestedMap Program

/-- Every edge is between vertices of the graph and has an identifier, and none is there twice. -/
structure Graph.Simple (g : Graph) : Prop where
  inside : ∀ link ∈ g.edges, link.ends.1 < g.vertices.length ∧ link.ends.2 < g.vertices.length
  labelled : ∀ link ∈ g.edges, ∃ lid, Link.bits link = some lid
  unique : g.adjacency.Nodup

theorem Graph.Simple.eq_of_ends {g : Graph} (hs : g.Simple) {link other : Link}
    (hm : link ∈ g.edges) (ho : other ∈ g.edges) (same : link.ends = other.ends) : link = other :=
  inj_on_of_nodup_map hs.unique hm ho same

variable {lid : Bitvector}

theorem Link.eq_of_bits {link : Link} (bits : bits link = some lid) :
    link = ⟨link.ends, some (toText lid)⟩ := by
  obtain ⟨text, label, rfl⟩ := map_eq_some_iff.mp bits
  rw [toText_ofText, ← label]

namespace TMIgraph

/-- Each edge of the topology is either in the graph or in `freedLIDs`, with its LID, and none
twice. -/
structure Conserved (g : Graph) (t : TMIgraph) : Prop where
  located : ∀ link ∈ g.edges,
    Xor (link ∈ t.graph.edges) (t.freedLIDs[link.ends]? = Link.bits link)
  only : ∀ link ∈ t.graph.edges, link ∈ g.edges
  once : t.graph.adjacency.Nodup

/-- Besides, nothing else is freed, and the first numbers of `edge_LID` are those of the edges. -/
structure Kept (g : Graph) (t : TMIgraph) : Prop extends Conserved g t where
  freed : ∀ (edge : ICNEdge) (lid : Bitvector), t.freedLIDs[edge]? = some lid →
    ∃ link ∈ g.edges, link.ends = edge ∧ Link.bits link = some lid
  numbered : t.edgeLID <+: t.graph.edges.map Link.bits

variable {g : Graph} {t : TMIgraph}

theorem kept_readTopology (hs : g.Simple) (nid rv : Node) : Kept g (readTopology g nid rv) where
  located link hm := by
    obtain ⟨lid, bits⟩ := hs.labelled link hm
    refine .inl ⟨hm, ?_⟩
    rw [bits]
    rintro ⟨⟩
  only _ hm := hm
  once := hs.unique
  freed edge lid hl := by
    cases hl
  numbered := prefix_rfl

theorem Kept.not_freed (kept : t.Kept g) (hs : g.Simple) {link : Link}
    (hm : link ∈ t.graph.edges) : t.freedLIDs[link.ends]? = none := by
  cases hl : t.freedLIDs[link.ends]? with
  | none => rfl
  | some lid =>
    obtain ⟨other, ho, ends, bits⟩ := kept.freed link.ends lid hl
    have same := hs.eq_of_ends ho (kept.only link hm) ends
    subst same
    rcases kept.located other ho with ⟨-, ha⟩ | ⟨-, ha⟩
    · exact absurd (hl.trans bits.symm) ha
    · exact absurd hm ha

variable {edge : ICNEdge}

theorem Kept.freed_link (kept : t.Kept g) (hl : t.freedLIDs[edge]? = some lid) :
    (⟨edge, some (toText lid)⟩ : Link) ∈ g.edges ∧
      (⟨edge, some (toText lid)⟩ : Link) ∉ t.graph.edges := by
  obtain ⟨link, hm, rfl, bits⟩ := kept.freed edge lid hl
  rw [← eq_of_bits bits]
  refine ⟨hm, ?_⟩
  rcases kept.located link hm with ⟨-, ha⟩ | ⟨-, ha⟩
  · exact absurd (hl.trans bits.symm) ha
  · exact ha

theorem Kept.number_eq_none (kept : t.Kept g) (hs : g.Simple) (hl : t.freedLIDs[edge]? = some lid) :
    number t.graph.edges edge = none := by
  rw [EdgeList.number_eq_none]
  rintro link hm rfl
  rw [kept.not_freed hs hm] at hl
  cases hl

section

variable (moly : LinkReport → Bool) (link : LinkUpdate)

/-- The condition under which the removal of an edge that exists goes well. -/
def SafeRemoval (t : TMIgraph) (backward : ICNEdge)
    (eid : Nat) : Prop :=
  ∃ lid, t.edgeLID[eid]? = some (some lid) ∧
    moly ⟨firstOne 32 (Masks.toText lid), link.destination, link.source, .down⟩ = true ∧
    (link.bidirectional = true → ∃ (back : Nat) (backLid : Bitvector),
      number t.graph.edges backward = some back ∧ t.edgeLID[back]? = some (some backLid) ∧
      moly ⟨(firstOne 256 (Masks.toText backLid)).or (firstOne 32 (Masks.toText lid)),
        link.source, link.destination, .down⟩ = true)

/-- The condition under which the restoration of removed edges goes well. -/
def SafeAddition (t : TMIgraph)
    (forward backward : ICNEdge) : Prop :=
  link.bidirectional = true → forward ≠ backward ∧
    ∀ lid, t.freedLIDs[forward]? = some lid →
      moly ⟨firstOne 32 (Masks.toText lid), link.destination, link.source, .up⟩ = true

/-- The agent accepts the reports before the last change of the graph, the backward edge of a
removal exists, and a restored pair of edges is not a loop. -/
def Safe (t : TMIgraph) : Prop :=
  ∀ source destination, t.reverseNodeIndex[link.source]? = some source →
    t.reverseNodeIndex[link.destination]? = some destination →
    (∀ eid, number t.graph.edges (source, destination) = some eid → link.remove = true →
      SafeRemoval moly link t (destination, source) eid) ∧
    (number t.graph.edges (source, destination) = none → link.remove = false →
      t.broken link.bidirectional (source, destination) (destination, source) = true →
      SafeAddition moly link t (source, destination) (destination, source))

/-- The code knows both nodes. -/
def Known (t : TMIgraph) : Prop :=
  link.source ∈ t.reverseNodeIndex ∧ link.destination ∈ t.reverseNodeIndex

/-- A report of the call from `t` to `t'` has been refused. -/
def Refused (t t' : TMIgraph) : Prop :=
  ∃ message ∈ t'.reports.drop t.reports.length, moly message = false

variable {sent : List LinkReport}

theorem refused_of_sent {moly : LinkReport → Bool} {t' : TMIgraph}
    (reports : t'.reports = t.reports ++ sent) {msg : LinkReport} (hm : msg ∈ sent)
    (hr : ¬ moly msg = true) : Refused moly t t' := by
  refine ⟨msg, ?_, not_eq_true _ ▸ hr⟩
  rw [reports, drop_left]
  exact hm

/-- `edge_LID` has the numbers of all edges. -/
def Renumbered (t : TMIgraph) : Prop := t.edgeLID = t.graph.edges.map Link.bits

/-- The edges are where they should be, and unless a report has been refused all have numbers. -/
def Settled (g : Graph) (moly : LinkReport → Bool) (t t' : TMIgraph) : Prop :=
  Kept g t' ∧ (Renumbered t → Renumbered t' ∨ Refused moly t t')

variable {eid : Nat}

theorem Kept.usedLID (kept : t.Kept g) (entry : t.edgeLID[eid]? = some (some lid)) :
    ∃ link, t.graph.edges[eid]? = some link ∧ bits link = some lid := by
  obtain ⟨more, nums⟩ := kept.numbered
  have hi := (List.getElem?_eq_some_iff.mp entry).1
  have among : (t.edgeLID ++ more)[eid]? = some (some lid) :=
    (List.getElem?_append_left hi).trans entry
  rw [nums, List.getElem?_map, map_eq_some_iff] at among
  exact among

/-- The edges with some numbers have been recorded in `freedLIDs`; they are still in the graph. -/
structure Freeing (g : Graph) (t t₁ : TMIgraph) (numbers : List Nat) : Prop where
  edges : t₁.graph.edges = t.graph.edges
  freed : ∀ (edge : ICNEdge) (lid : Bitvector), t₁.freedLIDs[edge]? = some lid →
    ∃ link ∈ g.edges, link.ends = edge ∧ Link.bits link = some lid
  moved : ∀ link ∈ g.edges, t₁.freedLIDs[link.ends]? = Link.bits link ↔
    t.freedLIDs[link.ends]? = Link.bits link ∨
      ∃ number ∈ numbers, t.graph.edges[number]? = some link

theorem Kept.freeing (kept : t.Kept g) : Freeing g t t [] :=
  ⟨rfl, kept.freed, fun link _ => by simp⟩

section

variable {t₁ : TMIgraph} {nums : List Nat} (freeing : Freeing g t t₁ nums)

include freeing

theorem Freeing.report (msg : LinkReport) : Freeing g t (t₁.report msg) nums :=
  ⟨freeing.edges, freeing.freed, freeing.moved⟩

variable {number : Nat}

theorem Freeing.free (kept : t.Kept g) (hs : g.Simple) {link : Link}
    (ht : t.graph.edges[number]? = some link) (bits : bits link = some lid) :
    Freeing g t (t₁.free link.ends lid) (nums ++ [number]) := by
  have hm := kept.only link (mem_of_getElem? ht)
  have hk : ∀ old, t₁.freedLIDs[link.ends]? = some old → old = lid := by
    intro old hl
    obtain ⟨other, ho, ends, otherBits⟩ := freeing.freed _ _ hl
    rw [hs.eq_of_ends ho hm ends, bits] at otherBits
    exact (some.inj otherBits).symm
  obtain ⟨hr, others⟩ := lookup_insertIfNew hk
  refine ⟨freeing.edges, ?_, ?_⟩
  · intro edge found hl
    rcases others edge found hl with ⟨rfl, rfl⟩ | before
    · exact ⟨link, hm, rfl, bits⟩
    · exact freeing.freed edge found before
  intro other ho
  have before := freeing.moved other ho
  by_cases same : other = link
  · subst same
    refine iff_of_true (hr.trans bits.symm) (.inr ⟨number, by simp, ht⟩)
  have hd : other.ends ≠ link.ends := fun ends => same (hs.eq_of_ends ho hm ends)
  have unchanged : (t₁.free link.ends lid).freedLIDs[other.ends]? = t₁.freedLIDs[other.ends]? := by
    rw [TMIgraph.free, getElem?_insertIfNew, if_neg fun both => hd both.1]
  rw [unchanged, before]
  simp only [mem_append, mem_singleton]
  constructor
  · rintro (hf | ⟨place, hc, here⟩)
    · exact .inl hf
    · exact .inr ⟨place, .inl hc, here⟩
  · rintro (hf | ⟨place, hc | rfl, here⟩)
    · exact .inl hf
    · exact .inr ⟨place, hc, here⟩
    · exact absurd (some.inj (here.symm.trans ht)) same

theorem Freeing.kept (kept : t.Kept g) : Kept g (t₁.deleteEdges nums).updateTMStates where
  located link hm := by
    have nodup : t₁.graph.edges.Nodup := by
      rw [freeing.edges]
      exact kept.once.of_map _
    have hp : link ∈ (t₁.deleteEdges nums).updateTMStates.graph.edges ↔
        link ∈ t₁.graph.edges ∧ ¬ ∃ number ∈ nums, t₁.graph.edges[number]? = some link :=
      mem_delete_of_nodup nodup
    have hg : (∃ number ∈ nums, t.graph.edges[number]? = some link) → link ∈ t.graph.edges := by
      rintro ⟨number, -, ht⟩
      exact mem_of_getElem? ht
    have before := kept.located link hm
    rw [freeing.edges] at hp
    change Xor _ (t₁.freedLIDs[link.ends]? = bits link)
    rw [hp, freeing.moved link hm]
    unfold Xor at before ⊢
    generalize (∃ number ∈ nums, t.graph.edges[number]? = some link) = moved at hg ⊢
    tauto
  only link hm := by
    apply kept.only
    rw [← freeing.edges]
    exact (delete_sublist _ nums).subset hm
  once := by
    have nodup : (t₁.graph.edges.map Edge.ends).Nodup := by
      rw [freeing.edges]
      exact kept.once
    exact nodup.sublist ((delete_sublist _ nums).map _)
  freed := freeing.freed
  numbered := prefix_rfl

/-- An edge whose identifier is recorded and that is still in the graph is in two places. -/
theorem Freeing.not_conserved {link : Link} (hc : number ∈ nums)
    (ht : t.graph.edges[number]? = some link) : ¬ t₁.Conserved g := by
  intro conserved
  have hp : link ∈ t₁.graph.edges := by
    rw [freeing.edges]
    exact mem_of_getElem? ht
  have hm := conserved.only link hp
  have hr := (freeing.moved link hm).mpr (.inr ⟨number, hc, ht⟩)
  rcases conserved.located link hm with ⟨-, ha⟩ | ⟨-, ha⟩
  · exact ha hr
  · exact ha hp

end

variable {post : Bitvector → TMIgraph → Prop} {fault : Fault → Prop}

theorem wp_usedLID_entry (eid : Option Nat)
    (next : ∀ number lid, eid = some number → t.edgeLID[number]? = some (some lid) → post lid t)
    (missing : (∀ number lid, eid = some number → t.edgeLID[number]? ≠ some (some lid)) → ∀ reason,
      fault reason) : wp (usedLID eid) post fault t := by
  simp only [usedLID, wp_bind, wp_expect]
  refine ⟨fun number hf => ⟨fun entry ht => ⟨fun lid here => ?_, fun ha => ?_⟩,
    fun ha => ?_⟩, fun ha => ?_⟩
  · subst here
    exact next number lid hf ht
  all_goals
    apply missing
    intro other lid same entry
    simp_all

/-- Where a call is safe the edges are where they should be, and after a refused report they never
are. -/
structure Outcome (g : Graph) (moly : LinkReport → Bool) (safe : Prop)
    (t : TMIgraph) (updated : Bool)
    (t' : TMIgraph) : Prop where
  settled : safe → Settled g moly t t'
  broken : ¬ safe → ¬ Conserved g t' ∧ Refused moly t t'
  refused : Refused moly t t' → updated = true ∧ ¬ (Conserved g t' ∧ Renumbered t')
  idle : updated = false → t' = t

variable {safe : Prop} {moly : LinkReport → Bool} {t' : TMIgraph}

theorem Outcome.of_accepted (hh : safe) (kept : Kept g t') (hn : Renumbered t')
    (reports : t'.reports = t.reports ++ sent) (ha : ∀ msg ∈ sent, moly msg = true) :
    Outcome g moly safe t true t' where
  settled _ := ⟨kept, fun _ => .inl hn⟩
  broken bad := absurd hh bad
  refused := by
    rintro ⟨msg, hm, refused⟩
    rw [reports, drop_left] at hm
    rw [ha msg hm] at refused
    cases refused
  idle := nofun

theorem Outcome.of_refused (fails : ¬ safe) (lost : ¬ Conserved g t')
    (refused : Refused moly t t') : Outcome g moly safe t true t' where
  settled hh := absurd hh fails
  broken _ := ⟨lost, refused⟩
  refused _ := ⟨rfl, fun both => lost both.1⟩
  idle := nofun

variable {forward backward : ICNEdge}

/-- A removal that is not safe has a fault, or a refused report leaves an edge in two places. -/
theorem removeEdges_outcome (kept : t.Kept g) (hs : g.Simple) (moly : LinkReport → Bool)
    (link : LinkUpdate) (hf : number t.graph.edges forward = some eid) :
    wp (removeEdges moly link forward backward eid)
      (Outcome g moly (SafeRemoval moly link t backward eid) t)
      (fun _ => ¬ SafeRemoval moly link t backward eid) t := by
  rw [removeEdges, wp_bind]
  apply wp_usedLID_entry
  swap
  · rintro missing - ⟨lid, entry, -⟩
    exact missing eid lid rfl entry
  intro number lid same entry
  cases same
  obtain ⟨edge, ht, bits⟩ := kept.usedLID entry
  obtain ⟨other, here, rfl⟩ := number_eq_some hf
  cases ht.symm.trans here
  have freeing := (kept.freeing.free kept hs ht bits).report
    ⟨firstOne 32 (toText lid), link.destination, link.source, .down⟩
  simp only [wp_bind, wp_ite, wp_pure]
  refine ⟨fun ha => ⟨fun bidirectional => ?_, fun single => ?_⟩, fun hr => ?_⟩
  · apply wp_usedLID_entry
    swap
    · rintro missing - ⟨_, _, _, both⟩
      obtain ⟨back, backLid, backFound, backEntry, -⟩ := both bidirectional
      exact missing back backLid backFound backEntry
    intro back backLid backFound backEntry
    obtain ⟨backEdge, backThere, backBits⟩ := kept.usedLID backEntry
    obtain ⟨other, here, rfl⟩ := number_eq_some backFound
    cases backThere.symm.trans here
    have freeingBoth := (freeing.free kept hs backThere backBits).report
      ⟨(firstOne 256 (toText backLid)).or (firstOne 32 (toText lid)),
        link.source, link.destination, .down⟩
    refine ⟨fun backAccepted => ?_, fun hr => ?_⟩
    · have place : number t.graph.edges backEdge.ends = some back := backFound
      simp only [report_graph, free_graph, place]
      refine .of_accepted ⟨lid, entry, ha, fun _ => ⟨back, backLid, backFound, backEntry,
        backAccepted⟩⟩ (freeingBoth.kept kept) rfl (append_assoc _ _ _) ?_
      simp [ha, backAccepted]
    · refine .of_refused ?_ (freeingBoth.not_conserved (by simp) ht)
        (refused_of_sent (append_assoc _ _ _) (by simp) hr)
      rintro ⟨lid', entry', -, both⟩
      cases entry.symm.trans entry'
      obtain ⟨back', backLid', backFound', backEntry', backAccepted⟩ := both bidirectional
      cases backFound.symm.trans backFound'
      cases backEntry.symm.trans backEntry'
      exact hr backAccepted
  · refine .of_accepted ⟨lid, entry, ha, fun both => absurd both single⟩ (freeing.kept kept) rfl
      rfl ?_
    simp [ha]
  · refine .of_refused ?_ (freeing.not_conserved (by simp) ht)
      (refused_of_sent rfl (mem_singleton_self _) hr)
    rintro ⟨lid', entry', ha, -⟩
    cases entry.symm.trans entry'
    exact hr ha

theorem relabel_added (before after : List Link) (edge : ICNEdge) (text : LidText) :
    relabel (before ++ ⟨edge, none⟩ :: after) before.length (some text) =
      before ++ ⟨edge, some text⟩ :: after := by
  rw [← Nat.add_zero before.length, relabel_append]
  rfl

/-- An edge comes back while its identifier is erased. -/
theorem Kept.setEdge (kept : t.Kept g) (hs : g.Simple) (hr : t.freedLIDs[edge]? = some lid)
    {t₁ : TMIgraph} (edges : t₁.graph.edges = t.graph.edges ++ [⟨edge, some (toText lid)⟩])
    (erased : t₁.freedLIDs = t.freedLIDs.erase edge)
    (numbered : t₁.edgeLID <+: t₁.graph.edges.map bits) : Kept g t₁ where
  located link hm := by
    rw [edges, mem_append, mem_singleton, erased, getElem?_erase]
    by_cases same : link.ends = edge
    · obtain rfl := hs.eq_of_ends hm (kept.freed_link hr).1 same
      rw [if_pos rfl]
      exact .inl ⟨.inr rfl, nofun⟩
    · have other : link ≠ ⟨edge, some (toText lid)⟩ := by
        rintro rfl
        exact same rfl
      rw [if_neg same, or_iff_left other]
      exact kept.located link hm
  only link hm := by
    rw [edges, mem_append, mem_singleton] at hm
    rcases hm with old | rfl
    · exact kept.only link old
    · exact (kept.freed_link hr).1
  once := by
    rw [Graph.adjacency, edges, map_append]
    refine nodup_append.mpr ⟨kept.once, nodup_singleton _, ?_⟩
    rintro _ hp _ returned rfl
    obtain ⟨link, hm, ends⟩ := mem_map.mp hp
    have hg := kept.not_freed hs hm
    rw [ends, mem_singleton.mp returned] at hg
    cases hr.symm.trans hg
  freed other lid' hl := by
    rw [erased, getElem?_erase] at hl
    split at hl
    · cases hl
    · exact kept.freed other lid' hl
  numbered := numbered

theorem Kept.numbered_append (kept : t.Kept g) (more : List Link) :
    t.edgeLID <+: (t.graph.edges ++ more).map bits := by
  rw [map_append]
  exact kept.numbered.trans (prefix_append _ _)

theorem lookup_of_broken {bidirectional : Bool}
    (broken : t.broken bidirectional forward backward = true) :
    (∃ lid, t.freedLIDs[forward]? = some lid) ∧
      (bidirectional = true → ∃ lid, t.freedLIDs[backward]? = some lid) := by
  have hl : ∀ edge : ICNEdge, t.freedLIDs.contains edge = true →
      ∃ lid, t.freedLIDs[edge]? = some lid := by
    intro edge hi
    exact mem_iff_exists.mp (TreeMap.contains_iff_mem.mp hi)
  rw [TMIgraph.broken, and_eq_true, or_eq_true] at broken
  refine ⟨hl forward broken.1, fun both => hl backward ?_⟩
  rcases broken.2 with single | hi
  · rw [both] at single
    cases single
  · exact hi

theorem wp_restore_some (t : TMIgraph) (eid : Nat) (lid : Bitvector)
    (freed : t.freedLIDs[edge]? = some lid) (hf : number t.graph.edges edge = some eid) :
    wp (restore edge) post fault t ↔ post lid (t.setLID edge eid lid) := by
  simp only [restore, wp_bind, wp_read, freed, wp_expect_some, hf, wp_update, wp_pure]

theorem number_added {before : List Link} (after : List Link) (fresh : number before edge = none) :
    number (before ++ ⟨edge, none⟩ :: after) edge = some before.length := by
  rw [number_append, fresh]
  simp [number, List.findIdx?_cons]

/-- A restoration whose last report is refused leaves edges without numbers. -/
theorem Outcome.of_unnumbered (kept : t.Kept g) (hh : safe) (kept' : Kept g t')
    (same : t'.edgeLID = t.edgeLID) (more : t.graph.edges.length < t'.graph.edges.length)
    (refused : Refused moly t t') : Outcome g moly safe t true t' where
  settled _ := ⟨kept', fun _ => .inr refused⟩
  broken bad := absurd hh bad
  refused _ := by
    refine ⟨rfl, fun both => ?_⟩
    have fewer := kept.numbered.length_le
    rw [← same, both.2, length_map, length_map] at fewer
    omega
  idle := nofun

/-- A restoration that is not safe has a fault, or a refused report leaves an edge without
identifier. -/
theorem addBrokenEdges_outcome (kept : t.Kept g) (hs : g.Simple) (moly : LinkReport → Bool)
    (link : LinkUpdate) (broken : t.broken link.bidirectional forward backward = true) :
    wp (addBrokenEdges moly link forward backward)
      (Outcome g moly (SafeAddition moly link t forward backward) t)
      (fun _ => ¬ SafeAddition moly link t forward backward) t := by
  obtain ⟨⟨lid, freed⟩, both⟩ := lookup_of_broken broken
  have fresh := kept.number_eq_none hs freed
  cases bidirectional : link.bidirectional with
  | false =>
    have safe : SafeAddition moly link t forward backward := by
      rw [SafeAddition, bidirectional]
      exact nofun
    have hf := number_added [] fresh
    have edges := relabel_added t.graph.edges [] forward (toText lid)
    simp only [addBrokenEdges, bidirectional, false_eq_true, if_false, wp_bind]
    refine (wp_restore_some (t.addEdges [forward]) _ lid freed hf).mpr ?_
    simp only [wp_ite, wp_pure]
    refine ⟨fun ha => ?_, fun hr => ?_⟩
    · exact .of_accepted safe (kept.setEdge hs freed edges rfl prefix_rfl)
        rfl rfl (by simpa using ha)
    have nums := kept.numbered_append [⟨forward, some (toText lid)⟩]
    rw [← edges] at nums
    refine .of_unnumbered kept safe (kept.setEdge hs freed edges rfl nums) rfl ?_
      (refused_of_sent rfl (mem_singleton_self _) hr)
    exact (congrArg List.length edges).symm ▸ (by simp)
  | true =>
    obtain ⟨backLid, backFreed⟩ := both bidirectional
    have hf := number_added [⟨backward, none⟩] fresh
    have edges := (relabel_added t.graph.edges [⟨backward, none⟩] forward (toText lid)).trans
      (append_cons _ _ _)
    simp only [addBrokenEdges, bidirectional, if_true, wp_bind]
    refine (wp_restore_some (t.addEdges [forward, backward]) _ lid freed hf).mpr ?_
    simp only [wp_ite, wp_bind, wp_pure]
    refine ⟨fun ha => ?_, fun hr => ?_⟩
    swap
    · refine .of_refused (fun safe => hr ((safe bidirectional).2 lid freed))
        (fun conserved => ?_) (refused_of_sent rfl (mem_singleton_self _) hr)
      have hm : (⟨backward, none⟩ : Link) ∈ (TMIgraph.setLID forward t.graph.edges.length lid
          (TMIgraph.addEdges [forward, backward] t)).graph.edges := by
        rw [setLID_edges]
        refine edges ▸ ?_
        simp
      obtain ⟨bits, none⟩ := hs.labelled _ (conserved.only _ hm)
      cases none
    by_cases apart : forward = backward
    · subst apart
      refine wp_mono (wp_restore _ fun eid other hl => ?_) (fun _ _ => id)
        fun _ _ safe => (safe bidirectional).1 rfl
      rw [report_freedLIDs, setLID_freedLIDs, getElem?_erase, if_pos rfl] at hl
      cases hl
    have safe : SafeAddition moly link t forward backward := by
      refine fun _ => ⟨apart, fun other hl => ?_⟩
      cases freed.symm.trans hl
      exact ha
    have stillFreed : (t.freedLIDs.erase forward)[backward]? = some backLid := by
      rw [getElem?_erase, if_neg (Ne.symm apart), backFreed]
    have middle : Kept g { t with
        graph := ⟨t.graph.vertices, t.graph.edges ++ [⟨forward, some (toText lid)⟩]⟩
        freedLIDs := t.freedLIDs.erase forward } :=
      kept.setEdge hs freed rfl rfl (kept.numbered_append _)
    have backFresh := middle.number_eq_none hs stillFreed
    have backFound := number_added [] backFresh
    have backEdges := relabel_added (t.graph.edges ++ [⟨forward, some (toText lid)⟩]) [] backward
      (toText backLid)
    generalize (t.graph.edges ++ [(⟨forward, some (toText lid)⟩ : Link)]).length = place
      at backFound backEdges
    rw [← edges] at backFound backEdges
    refine (wp_restore_some _ place backLid stillFreed backFound).mpr ?_
    refine ⟨fun backAccepted => ?_, fun hr => ?_⟩
    · refine .of_accepted safe (middle.setEdge hs stillFreed backEdges rfl prefix_rfl) rfl
        (append_assoc _ _ _) ?_
      simp [ha, backAccepted]
    · have nums := middle.numbered_append [⟨backward, some (toText backLid)⟩]
      rw [← backEdges] at nums
      refine .of_unnumbered kept safe (middle.setEdge hs stillFreed backEdges rfl nums) rfl ?_
        (refused_of_sent (append_assoc _ _ _) (by simp) hr)
      exact (congrArg List.length backEdges).symm ▸ (by simp)

variable {link : LinkUpdate}

theorem Known.vertices (hk : Known link t) :
    ∃ src dst, t.reverseNodeIndex[link.source]? = some src ∧
      t.reverseNodeIndex[link.destination]? = some dst := by
  obtain ⟨src, head⟩ := mem_iff_exists.mp hk.1
  obtain ⟨dst, tail⟩ := mem_iff_exists.mp hk.2
  exact ⟨src, dst, head, tail⟩

/-- A safe update leaves the edges where they should be, and only an unsafe one fails. -/
theorem updateGraph_outcome (kept : t.Kept g) (hs : g.Simple) (moly : LinkReport → Bool)
    (hk : Known link t) : wp (updateGraph moly link) (Outcome g moly (Safe moly link t) t)
      (fun _ => ¬ Safe moly link t) t := by
  obtain ⟨src, dst, head, tail⟩ := hk.vertices
  have safe : Safe moly link t ↔ (∀ eid, number t.graph.edges (src, dst) = some eid →
      link.remove = true → SafeRemoval moly link t (dst, src) eid) ∧
    (number t.graph.edges (src, dst) = none → link.remove = false →
      t.broken link.bidirectional (src, dst) (dst, src) = true →
      SafeAddition moly link t (src, dst) (dst, src)) := by
    simp [Safe, head, tail]
  have idle : Safe moly link t → Outcome g moly (Safe moly link t) t false t := by
    refine fun hh => ⟨fun _ => ⟨kept, .inl⟩, absurd hh, ?_, fun _ => rfl⟩
    rintro ⟨msg, hm, -⟩
    simp at hm
  simp only [updateGraph, wp_bind, wp_read, head, tail, wp_expect_some]
  cases hf : number t.graph.edges (src, dst) with
  | some eid =>
    rw [wp_ite]
    refine ⟨fun remove => ?_, fun add => idle (by simp [safe, hf, add])⟩
    simpa [safe, hf, remove] using removeEdges_outcome kept hs moly link hf
  | none =>
    rw [wp_ite, and_eq_true, not_eq_true']
    refine ⟨fun both => ?_, fun test => idle (safe.mpr ⟨by simp [hf], ?_⟩)⟩
    · obtain ⟨add, broken⟩ := both
      simpa [safe, hf, add, broken] using addBrokenEdges_outcome kept hs moly link broken
    · exact fun _ add broken => absurd ⟨add, broken⟩ test

theorem updateGraph_kept (kept : t.Kept g) (hs : g.Simple) (moly : LinkReport → Bool)
    (hk : Known link t) (safe : Safe moly link t) :
    wp (updateGraph moly link) (fun _ => Settled g moly t) (fun _ => False) t :=
  wp_mono (updateGraph_outcome kept hs moly hk) (fun _ _ outcome => outcome.settled safe)
    fun _ bad => bad safe

/-- The states after safe calls with known nodes. -/
inductive SafeRun (start : TMIgraph) : TMIgraph → Prop
  | start : SafeRun start start
  | call {t t' : TMIgraph} {updated : Bool} (moly : LinkReport → Bool) (link : LinkUpdate)
      (run : SafeRun start t) (known : Known link t) (safe : Safe moly link t)
      (returns : updateGraph moly link t = .ok (updated, t')) : SafeRun start t'

theorem SafeRun.kept (hs : g.Simple) {nid rv : Node}
    (run : SafeRun (readTopology g nid rv) t) : t.Kept g := by
  induction run with
  | start => exact kept_readTopology hs nid rv
  | call moly link run hk safe hr ih =>
    have settled := wp_ok (updateGraph_kept ih hs moly hk safe) hr
    exact settled.1

/-- The call returns, and every edge is where it should be afterwards. -/
def KeepsLinks (g : Graph) (moly : LinkReport → Bool) (link : LinkUpdate) (t : TMIgraph) : Prop :=
  ∃ updated t', updateGraph moly link t = .ok (updated, t') ∧ t'.Conserved g

/-- Through every run of safe calls each edge is either in the graph or in `freedLIDs`, with its
LID, and a further call keeps it so exactly when it is safe. -/
theorem links_conserved (g : Graph) (simple : g.Simple) (nodeID rvNodeID : Node) (t : TMIgraph)
    (run : SafeRun (readTopology g nodeID rvNodeID) t) :
    t.Conserved g ∧ ∀ moly link, Known link t → (KeepsLinks g moly link t ↔ Safe moly link t) := by
  have kept := run.kept simple
  refine ⟨kept.toConserved, fun moly link hk => ⟨fun keeps => ?_, fun safe => ?_⟩⟩
  · obtain ⟨updated, t', hr, conserved⟩ := keeps
    by_contra notSafe
    exact ((wp_ok (updateGraph_outcome kept simple moly hk) hr).broken notSafe).1 conserved
  · obtain ⟨updated, t', hr, after⟩ :=
      wp_returns (updateGraph_kept kept simple moly hk safe) fun _ => id
    exact ⟨updated, t', hr, after.1.toConserved⟩

/-- A call that does not update leaves everything as it was, and one that does has finished. -/
def Survives (g : Graph) (t : TMIgraph) (updated : Bool) (t' : TMIgraph) : Prop :=
  if updated then t'.Conserved g ∧ t'.Renumbered
  else t'.graph = t.graph ∧ t'.edgeLID = t.edgeLID ∧ t'.freedLIDs = t.freedLIDs

/-- The topology survives a call exactly if no report is refused. -/
theorem survives_iff_not_refused (g : Graph) (simple : g.Simple) (t : TMIgraph) (kept : t.Kept g)
    (renumbered : t.Renumbered) (moly : LinkReport → Bool)
      (link : LinkUpdate) (known : Known link t)
    (updated : Bool) (t' : TMIgraph) (returns : updateGraph moly link t = .ok (updated, t')) :
    Survives g t updated t' ↔ ¬ Refused moly t t' := by
  have outcome := wp_ok (updateGraph_outcome kept simple moly known) returns
  constructor
  · intro survives hr
    obtain ⟨rfl, wrong⟩ := outcome.refused hr
    exact wrong survives
  · intro ha
    have safe : Safe moly link t := by
      by_contra bad
      exact ha (outcome.broken bad).2
    obtain ⟨kept', nums⟩ := outcome.settled safe
    cases updated with
    | false =>
      cases outcome.idle rfl
      exact ⟨rfl, rfl, rfl⟩
    | true => exact ⟨kept'.toConserved, (nums renumbered).resolve_right ha⟩

/-- Two nodes joined by a link in each direction. -/
def samplePair : Graph where
  vertices := [⟨smallFragment 49, Masks.toText (BitVec.twoPow 256 0)⟩,
    ⟨smallFragment 50, Masks.toText (BitVec.twoPow 256 1)⟩]
  edges := [⟨(0, 1), some (Masks.toText (BitVec.twoPow 256 2))⟩,
    ⟨(1, 0), some (Masks.toText (BitVec.twoPow 256 3))⟩]

def pairStart : TMIgraph := readTopology samplePair (smallFragment 49) (smallFragment 49)

/-- The link from the second node to the first fails. -/
def backwardFails : LinkUpdate := ⟨smallFragment 50, smallFragment 49, false, true⟩

/-- Both directions are reported to fail. -/
def bothFail : LinkUpdate := ⟨smallFragment 49, smallFragment 50, true, true⟩

theorem samplePair_simple : samplePair.Simple where
  inside := by decide
  labelled link hm := by
    rcases mem_pair.mp hm with rfl | rfl
    · exact ⟨_, rfl⟩
    · exact ⟨_, rfl⟩
  unique := by decide

theorem pairStart_vertices : pairStart.reverseNodeIndex[smallFragment 49]? = some 0 ∧
    pairStart.reverseNodeIndex[smallFragment 50]? = some 1 := by
  decide +kernel

theorem backwardFails_known : Known backwardFails pairStart :=
  ⟨mem_iff_exists.mpr ⟨1, pairStart_vertices.2⟩, mem_iff_exists.mpr ⟨0, pairStart_vertices.1⟩⟩

theorem backwardFails_safe : Safe (fun _ => true) backwardFails pairStart := by
  intro src dst head tail
  cases pairStart_vertices.2.symm.trans head
  cases pairStart_vertices.1.symm.trans tail
  refine ⟨fun eid hf _ => ?_, fun _ => nofun⟩
  have one : number pairStart.graph.edges (1, 0) = some 1 := by decide
  cases one.symm.trans hf
  exact ⟨_, rfl, rfl, nofun⟩

/-- After the first failure the second report looks up the number -1 in `edge_LID`. -/
theorem both_fail_after_one : ∃ updated t,
    updateGraph (fun _ => true) backwardFails pairStart = .ok (updated, t) ∧
      Known bothFail t ∧ ¬ KeepsLinks samplePair (fun _ => true) bothFail t := by
  have stops : outcome (updateGraph (fun _ => true) backwardFails >>= fun _ =>
      updateGraph (fun _ => true) bothFail) (fun _ => ()) pairStart = .error .endDereferenced := by
    decide +kernel
  have kept := kept_readTopology samplePair_simple (smallFragment 49) (smallFragment 49)
  obtain ⟨updated, t, hr, -⟩ := wp_returns
    (updateGraph_kept kept samplePair_simple _ backwardFails_known backwardFails_safe) fun _ => id
  obtain ⟨_, _, -, -, res⟩ := wp_ok (updateGraph_spec
    (faithful_readTopology samplePair_simple.unique _ _) _ _) hr
  have hk : Known bothFail t := by
    rw [Known, res.nodes.reverseNodeIndex]
    exact ⟨backwardFails_known.2, backwardFails_known.1⟩
  refine ⟨updated, t, hr, hk, ?_⟩
  rintro ⟨again, t', ends, -⟩
  have run : (updateGraph (fun _ => true) backwardFails >>= fun _ =>
      updateGraph (fun _ => true) bothFail) pairStart = .ok (again, t') := by
    change (updateGraph _ backwardFails _).bind _ = _
    rw [pairStart, hr]
    exact ends
  rw [stops_of_outcome stops] at run
  cases run

theorem links_conserved_pair : ∃ t, SafeRun pairStart t ∧ t.Conserved samplePair ∧
    ∀ moly link, Known link t → (KeepsLinks samplePair moly link t ↔ Safe moly link t) := by
  have kept := kept_readTopology samplePair_simple (smallFragment 49) (smallFragment 49)
  obtain ⟨updated, t, hr, -⟩ := wp_returns
    (updateGraph_kept kept samplePair_simple _ backwardFails_known backwardFails_safe) fun _ => id
  have run : SafeRun pairStart t :=
    .call _ backwardFails .start backwardFails_known backwardFails_safe hr
  exact ⟨t, run, links_conserved samplePair samplePair_simple _ _ t run⟩

theorem backwardFails_refused : ∃ updated t,
    updateGraph (fun _ => false) backwardFails pairStart = .ok (updated, t) ∧
      t.graph.adjacency = [(0, 1), (1, 0)] ∧ t.freedLIDs.contains (1, 0) = true ∧
      Refused (fun _ => false) pairStart t := by
  have ends : outcome (updateGraph (fun _ => false) backwardFails) (fun t : TMIgraph =>
      (t.graph.adjacency, t.freedLIDs.contains (1, 0), t.reports.length)) pairStart =
        .ok ([(0, 1), (1, 0)], true, 1) := by
    decide +kernel
  obtain ⟨updated, t, hr, read⟩ := exists_of_outcome ends
  simp only [Prod.mk.injEq] at read
  obtain ⟨msg, sent⟩ := length_eq_one_iff.mp read.2.2
  refine ⟨updated, t, hr, read.1, read.2.1, msg, ?_, rfl⟩
  exact sent ▸ mem_singleton_self msg

/-- The agent refuses the report of a failure, and the call says that it has updated the graph. -/
theorem refused_report_returns_true : ∃ t, updateGraph (fun _ => false) backwardFails pairStart =
    .ok (true, t) ∧ t.graph.adjacency = [(0, 1), (1, 0)] ∧ t.freedLIDs.contains (1, 0) = true ∧
      ¬ Survives samplePair pairStart true t := by
  obtain ⟨updated, t, returns, graph, hf, hr⟩ := backwardFails_refused
  have kept := kept_readTopology samplePair_simple (smallFragment 49) (smallFragment 49)
  have res := wp_ok (updateGraph_outcome kept samplePair_simple _ backwardFails_known) returns
  obtain ⟨rfl, wrong⟩ := res.refused hr
  exact ⟨t, returns, graph, hf, wrong⟩

theorem survives_iff_not_refused_pair : ∃ updated t,
    updateGraph (fun _ => false) backwardFails pairStart = .ok (updated, t) ∧
      (Survives samplePair pairStart updated t ↔ ¬ Refused (fun _ => false) pairStart t) := by
  obtain ⟨updated, t, hr, -⟩ := backwardFails_refused
  exact ⟨updated, t, hr, survives_iff_not_refused samplePair samplePair_simple pairStart
    (kept_readTopology samplePair_simple _ _) rfl _ backwardFails backwardFails_known updated t hr⟩

end

end TMIgraph

end Blackadder.Topology
