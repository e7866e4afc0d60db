import Blackadder.Rendezvous.Abstraction
import Blackadder.Rendezvous.Steps

namespace Blackadder.Rendezvous

open Program HashTable Rendezvous.Graph Node

theorem send_nil (g : Graph) : g.send [] = g := by simp [send]

theorem send_send (g : Graph) (first second : List Out) :
    (g.send first).send second = g.send (first ++ second) := by simp [send]

variable [IterationOrder] {s : LocalRV} {p f : Ptr} {k : Kind} {r : Role} {id : ID} {h : NodeID}
  {fault : Fault → Prop} {tag : Ptr → Fragment}

/-- From `s` to `s'` all matches are dealt with. -/
def Settles (pol : Policy) (s s' : LocalRV) : Prop := ∀ d, Steps pol d (graph s) d (graph s')

namespace Settles

variable {pol : Policy} {s s1 s2 : LocalRV}

omit [IterationOrder]

theorem refl (s : LocalRV) : Settles pol s s := fun d => .refl d _

theorem trans (first : Settles pol s s1) (second : Settles pol s1 s2) : Settles pol s s2 :=
  fun d => (first d).trans (second d)

theorem told {pkts : List Out} (hs : ∀ o ∈ pkts, o.about = none)
    (told : graph s1 = (graph s).send pkts) : Settles pol s s1 := by
  refine fun d => told ▸ (Steps.refl d _).tail (.tell fun o hm y about => ?_)
  rw [hs o hm] at about
  cases about

end Settles

/-- All matches are dealt with unless the run stops. -/
abbrev Handles {α : Type} (pol : Policy) (short : Prop) (s : LocalRV) (m : RV α) : Prop :=
  wp m (fun _ => Settles pol s) (Stops pol.loose short) s

omit [IterationOrder] in
theorem notifySubscribers_spec (type : MessageType) (ids : HashSet ID) (strat : Strategy)
    (subs : HashSet NodeID) : wp (notifySubscribers type ids strat subs)
      (fun _ s' => ∃ pkts, (∀ o ∈ pkts, o.about = none) ∧
        graph s' = (graph s).send pkts) fault s := by
  have nothing : graph s = (graph s).send [] := by simp [send]
  simp only [notifySubscribers, wp_ite, wp_bind, wp_pure]
  refine ⟨fun _ => ⟨fun _ => ?_, fun _ => ?_⟩, fun _ => ⟨fun _ => ?_, fun _ => ?_⟩⟩
  · exact ⟨_, by simp [Out.about], rfl⟩
  · exact ⟨[], by simp, nothing⟩
  · exact ⟨_, by simp [Out.about], rfl⟩
  · exact ⟨[], by simp, nothing⟩

section

variable {n : Node} {post : Bool → LocalRV → Prop}

theorem mem_getRootScopes {acc : HashSet ID} {root : ID} :
    root ∈ n.getRootScopes acc ↔ (∃ id ∈ n.ids, rootFragment id = root) ∨ root ∈ acc := by
  simp [getRootScopes, mem_keys]

/-- The test of the first root scope is the test of some root scope in the set. -/
theorem firstIsKnown_spec {roots : HashSet ID} (inhabited : ∃ root, root ∈ roots)
    (next : ∀ root ∈ roots, ∀ known : Bool, (known = true ↔ root = httpRootScope ∨ root =
      ipRootScope) → post known s) : wp (firstIsKnown roots) post fault s := by
  obtain ⟨root, hm⟩ := inhabited
  obtain ⟨first, isFirst⟩ := HashTable.first?_isSome hm
  simp only [firstIsKnown, isFirst]
  refine next first (mem_of_first? isFirst) _ ?_
  rw [decide_eq_true_iff, mem_knownRootScopes]

theorem rootsKnown_spec (shape : Shape tag ∅ (graph s)) (hf : s.heap p = some n)
    (next : ∀ id ∈ (graph s).ids p, ∀ known : Bool, (known = true ↔ KnownRoot id) → post known s) :
    wp (firstIsKnown (n.getRootScopes ∅)) post fault s := by
  obtain ⟨id, has⟩ := shape.named n.kind p ((mem_node hf).mpr rfl)
  refine firstIsKnown_spec ⟨rootFragment id, ?_⟩ fun root hm known test => ?_
  · exact mem_getRootScopes.mpr (Or.inl ⟨id, (mem_ids hf).mp has, rfl⟩)
  · rcases mem_getRootScopes.mp hm with ⟨id', has', rfl⟩ | he
    · exact next id' ((mem_ids hf).mpr has') known test
    · exact absurd he (not_mem_empty root)

theorem mem_collect (hf : s.heap p = some n) {acc : HashSet NodeID} :
    h ∈ n.collectHosts r acc ↔ h ∈ acc ∨ ∃ id, h ∈ (graph s).hosts r p id := by
  simp only [mem_collectHosts, mem_hosts hf]

theorem allSubscribers_spec (shape : Graph.Shape tag ∅ (graph s))
    (hl : p ∈ (graph s).node .item) {post : HashSet NodeID → LocalRV → Prop}
    (next : ∀ subs : HashSet NodeID, (∀ h, h ∈ subs ↔ h ∈ (graph s).subscribers p) → post subs s) :
    wp (allSubscribers p) post fault s := by
  simp only [allSubscribers]
  refine deref_bind hl fun n hf _ => ?_
  -- the fold only reads, and adds the subscribers of one father after the other
  refine wp_post (wp_foldlM_visited n.fatherScopes.keys _ (fun seen acc s' => s' = s ∧
    ∀ h, h ∈ acc ↔ (∃ id, h ∈ (graph s).hosts .subscriber p id) ∨
      ∃ f ∈ seen, ∃ id, h ∈ (graph s).hosts .subscriber f id) ?_ _ s ⟨rfl, ?_⟩) ?_
  · rintro seen f rest acc s' split ⟨rfl, content⟩
    have father : f ∈ (graph s').fathers p := by
      rw [mem_fathers hf, ← mem_keys, split]
      simp
    refine deref_bind (shape.fathers_live .item p f hl father).1 fun node found _ => ?_
    refine ⟨rfl, fun h => ?_⟩
    rw [getSubscribers, mem_collect found, content]
    simp [or_assoc]
  · intro h
    rw [getSubscribers, mem_collect hf]
    simp
  · rintro subs s' ⟨rfl, content⟩
    refine next subs fun h => ?_
    rw [content]
    simp [Graph.subscribers, mem_fathers hf, mem_keys]

end

variable (shape : Shape tag ∅ (graph s)) (hl : p ∈ (graph s).node .item) (upd : Bool)

include shape hl upd

/-- A rendezvous tells the Topology Manager the publishers and the given subscribers. -/
theorem rendezvous_spec {subs : HashSet NodeID}
    (cur : (graph s).Channel p → ∀ h, h ∈ subs ↔ h ∈ (graph s).subscribers p) :
    wp (rendezvous p subs upd)
      (fun _ s' => ∃ pkts, (graph s).Reports p pkts ∧ graph s' = (graph s).send pkts) fault s := by
  simp only [rendezvous]
  refine deref_bind hl fun n hf _ => ?_
  have content : ∀ h, h ∈ n.getPublishers ∅ ↔ h ∈ (graph s).publishers p := by
    intro h
    rw [getPublishers, mem_collect hf]
    simp [publishers]
  rw [wp_ite, size_pos]
  constructor
  · rintro ⟨pub, published⟩
    rw [wp_ite]
    constructor
    · intro nodeLocal
      simp only [notifyLocalPublisher]
      refine deref_bind hl fun _ _ _ => ⟨_, ⟨?_, ?_⟩, rfl⟩
      · simp [Out.about]
      intro chan
      have clash := chan.1
      rw [strategy_eq hf, nodeLocal] at clash
      exact absurd clash (by decide)
    · intro _
      rw [wp_ite]
      refine ⟨fun domainLocal => ?_, fun other => ⟨[], ⟨by simp, ?_⟩, (send_nil _).symm⟩⟩
      · rw [wp_bind]
        refine rootsKnown_spec shape hf fun id has known test => ?_
        rw [wp_ite]
        constructor
        · intro hk
          refine wp_post (wp_forM _ _ (fun s' => ∃ pkts,
            (∀ o ∈ pkts, ∀ y, o.about = some y → y = p) ∧
            graph s' = (graph s).send pkts) ?_ s ⟨[], by simp, (send_nil _).symm⟩) ?_
          · rintro host _ s' ⟨pkts, about, hr⟩
            refine ⟨pkts ++ [.unicastRequest p (requestType upd) host subs.keys n.ids.keys], ?_, ?_⟩
            · intro o hm y isAbout
              rcases List.mem_append.mp hm with before | last
              · exact about o before y isAbout
              · rw [List.mem_singleton.mp last] at isAbout
                exact (Option.some_inj.mp isAbout).symm
            · rw [← send_send, ← hr]
              rfl
          · rintro _ s' ⟨pkts, about, hr⟩
            exact ⟨pkts, ⟨about, fun chan => absurd ⟨id, has, test.mp hk⟩ chan.2⟩, hr⟩
        · intro _
          let pkt := Out.matchRequest p (requestType upd) (n.getPublishers ∅).keys
            subs.keys n.ids.keys
          refine ⟨[pkt], ⟨?_, fun chan _ => ⟨[], pkt, rfl, rfl, ?_⟩⟩, rfl⟩
          · intro o hm y isAbout
            rw [List.mem_singleton.mp hm] at isAbout
            exact (Option.some_inj.mp isAbout).symm
          · exact ⟨content, cur chan⟩
      · intro chan
        exact absurd (chan.1.symm.trans (strategy_eq hf)).symm other
  · intro none
    refine ⟨[], ⟨by simp, fun _ published => ?_⟩, (send_nil _).symm⟩
    obtain ⟨pub, isPublisher⟩ := published
    exact absurd ⟨pub, (content pub).mpr isPublisher⟩ none

theorem rendezvousAll_spec : wp (rendezvousAll p upd)
      (fun _ s' => ∃ pkts, (graph s).Reports p pkts ∧ graph s' = (graph s).send pkts) fault s := by
  simp only [rendezvousAll, wp_bind]
  refine allSubscribers_spec shape hl fun subs content => ?_
  exact rendezvous_spec shape hl upd fun _ => content

end Blackadder.Rendezvous
