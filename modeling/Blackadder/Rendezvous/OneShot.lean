import Blackadder.Rendezvous.Create
import Blackadder.Rendezvous.Withdraw

namespace Blackadder.Rendezvous

open Program Steps HashTable

namespace Graph

/-- All publishers of the item are registered under the one identifier. -/
def OnlyAt (g : Graph) (p : Ptr) (fullID : ID) : Prop :=
  ∀ i x, x ∈ g.hosts .publisher p i → i = fullID

/-- Nobody subscribes to the item or to one of its fathers. -/
def Unsubscribed (g : Graph) (p : Ptr) : Prop := ∀ x, x ∉ g.subscribers p

end Graph

variable {pol : Policy} {s s' : LocalRV} {p : Ptr} {h : NodeID} {short : Prop}
  {fault : Fault → Prop}

variable {pkts : List Out}

/-- Telling the match deals with a channel, but not under a known root scope. -/
theorem Steps.settleTold {g : Graph} (ht : g.Reports p pkts)
    (done : g.Covered p → pol.mixed ∨ pol.lasting ∨ g.Unsubscribed p) (d : Set Ptr) :
    Steps pol (d ∪ {p}) g d (g.send pkts) := by
  by_cases hc : g.Covered p
  · refine ((reported ht).tail (.settle {p} ?_)).forget ?_
    · rintro x rfl
      rcases done hc with mixed | rest
      · exact .inl mixed
      · exact .inr (.inr (.inr ⟨hc, rest⟩))
    · rintro x ⟨⟨hi | same, -⟩, hd⟩
      · exact hi
      · exact absurd same hd
  · refine (reported ht).forget ?_
    rintro x ⟨hi | same, hs⟩
    · exact hi
    · exact absurd (hs same) hc

variable {leaver : NodeID → Prop}

/-- A match under a known root scope is dealt with once nobody publishes the item any more. -/
theorem Withdraws.settleOnce (fullID : ID) (withdraws : Withdraws pol (· = p) leaver s s')
    (hu : pol.Unbounded) (sane : Sane pol (graph s)) (hl : p ∈ (graph s).node .item)
    (hc : pol.mixed ∨ (graph s).Covered p)
    (once : pol.mixed ∨ pol.lasting ∨ (graph s).Unsubscribed p ∨
      ((graph s).OnlyAt p fullID ∧ ∀ h, h ∉ (graph s').hosts .publisher p fullID)) (d : Set Ptr) :
    Steps pol (d ∪ {p}) (graph s) d (graph s') := by
  have hs := withdraws.shrinks sane
  have ⟨tag', shape'⟩ := (withdraws.sane sane).inv
  refine ((withdraws.steps hu _).tail (.settle {p} ?_)).forget ?_
  · rintro x rfl
    by_cases ha : x ∈ (graph s').node .item
    · have hc' : pol.mixed ∨ (graph s').Covered x := by
        rcases hc with mixed | ⟨id, has, hk⟩
        · exact .inl mixed
        · refine sane.unmixed.imp_right fun unmixed => ?_
          obtain ⟨id', has'⟩ := shape'.named _ x ha
          exact ⟨id', has', (unmixed _ x id id' hl has (hs.fewerIDs x id' has')).mp hk⟩
      rcases hc' with mixed | hc'
      · exact .inl mixed
      rcases once with mixed | lasting | unsubscribed | ⟨only, hg⟩
      · exact .inl mixed
      · exact .inr (.inr (.inr ⟨hc', .inl lasting⟩))
      · refine .inr (.inr (.inr ⟨hc', .inr ?_⟩))
        rintro h (⟨i, host⟩ | ⟨f, father, i, host⟩)
        · exact unsubscribed h (.inl ⟨i, hs.fewerHosts _ _ _ _ host⟩)
        · exact unsubscribed h (.inr ⟨f, hs.fewerFathers _ _ father, i, hs.fewerHosts _ _ _ _ host⟩)
      · refine .inr (.inr (.inl ?_))
        rintro h ⟨i, host⟩
        exact hg h (only i h (hs.fewerHosts _ _ _ _ host) ▸ host)
    · exact .inr (.inl ha)
  · rintro x ⟨hi | same, hd⟩
    · exact hi
    · exact absurd same hd

section

theorem Withdraws.ofReports (ht : (graph s).Reports p pkts) (hr : graph s' = (graph s).send pkts) :
    Withdraws pol (· = p) leaver s s' :=
  fun _ => hr ▸ (reported ht).forget fun _ hm => hm.1

variable [IterationOrder] {t : Fragment} {pre : ID} {strat : Strategy}

/-- The namespace of the first identifier. The value `NAMESPACE_IP` is never returned. -/
theorem getRootNamespace_spec {n : Node} (inv : (graph s).Inv) (hf : s.heap p = some n)
    {post : UInt8 → LocalRV → Prop} (goOn : ∀ id ∈ (graph s).ids p, ∀ ns,
      (ns = namespaceHttp ∧ rootFragment id = httpRootScope) ∨
        (ns = namespaceUnknown ∧ rootFragment id ≠ httpRootScope) → post ns s) :
    wp (getRootNamespace n) post fault s := by
  obtain ⟨tag, shape⟩ := inv
  simp only [getRootNamespace, wp_bind]
  refine firstID_of_ids hf (shape.named n.kind p ((mem_node hf).mpr rfl)) fun id has => ?_
  refine goOn id has _ ?_
  have hd : httpRootScope ≠ ipRootScope := by decide
  simp only [rootScopeNamespaceIndex, getD, get_findInsert]
  by_cases http : rootFragment id = httpRootScope
  · left
    rw [http]
    simp [hd]
    decide
  · right
    by_cases ip : rootFragment id = ipRootScope
    · rw [ip]
      simp [hd.symm]
      decide
    · simp [http, ip]

theorem getHTTPgw_spec (inv : (graph s).Inv) (subs : HashSet NodeID) :
    wp (getHTTPgw subs) (fun _ s' => s' = s) fault s := by
  obtain ⟨tag, shape⟩ := inv
  refine wp_lookup_present .item httpDefaultIid (fun _ => ?_) fun pub hf => ?_
  · rfl
  · exact deref_bind (shape.indexed hf).1 fun _ _ _ => rfl

variable {subs : HashSet NodeID}
variable (hu : pol.Unbounded) (sane : Sane pol (graph s)) (hl : p ∈ (graph s).node .item)

include hu sane hl

theorem publishOnce_spec (hc : (graph s).Covered p) (names : (graph s).Addresses p [t] pre strat)
    (he : ¬ 0 < subs.size → (graph s).Unsubscribed p)
    (once : pol.mixed ∨ pol.lasting ∨ (graph s).Unsubscribed p ∨ (graph s).OnlyAt p (pre ++
      [t])) (upd : Bool) : wp (publishOnce p subs [t] pre strat upd)
      (fun _ s' => ∀ d, Steps pol (d ∪ {p}) (graph s) d (graph s')) (Stops pol.loose short) s := by
  have ⟨tag, shape⟩ := sane.inv
  simp only [publishOnce]
  refine wp_seq (rendezvous_spec shape hl upd fun chan =>
    absurd hc chan.2) ?_
  rintro _ s1 ⟨pkts, ht, hr⟩
  rw [wp_ite]
  constructor
  · intro _
    have sends : Withdraws pol (· = p) (fun _ => True) s s1 := .ofReports ht hr
    refine wp_post (unpublishAll_spec (sends.sane sane) (hr ▸ hl) strat
      (by rw [hr]; exact names.1) upd) ?_
    rintro _ s' ⟨withdraws, hg⟩
    refine Withdraws.settleOnce (pre ++ [t]) (sends.trans withdraws) hu sane hl (.inr hc) ?_
    rcases once with mixed | lasting | unsubscribed | only
    · exact .inl mixed
    · exact .inr (.inl lasting)
    · exact .inr (.inr (.inl unsubscribed))
    · exact .inr (.inr (.inr ⟨only, hg (by rw [hr]; exact names)⟩))
  · intro none d
    rw [hr]
    exact settleTold ht (fun _ => .inr (.inr (he none))) d

/-- Only items under the IP root scope, and those published under other identifiers too, can stay
published although there is a subscriber. -/
theorem matchPublication_spec (names : (graph s).Addresses p [t] pre strat)
    (cur : ∀ h, h ∈ subs ↔ h ∈ (graph s).subscribers p)
    (once : (graph s).Covered p → pol.mixed ∨ pol.lasting ∨ (graph s).Unsubscribed p ∨ ((∀ id ∈
      (graph s).ids p, rootFragment id ≠ ipRootScope) ∧ (graph s).OnlyAt p (pre ++ [t])))
    (upd : Bool) : wp (matchPublication p subs [t] pre strat upd)
      (fun _ s' => ∀ d, Steps pol (d ∪ {p}) (graph s) d (graph s')) (Stops pol.loose short) s := by
  have ⟨tag, shape⟩ := sane.inv
  simp only [matchPublication, wp_bind]
  refine deref_spec hl fun n hf _ => ?_
  refine getRootNamespace_spec sane.inv hf fun id has ns classified => ?_
  rw [wp_ite]
  constructor
  · intro isHttp
    have http : rootFragment id = httpRootScope := by
      rcases classified with ⟨-, http⟩ | ⟨isUnknown, -⟩
      · exact http
      · exact absurd (isHttp.symm.trans isUnknown) (by decide)
    have hc : (graph s).Covered p := ⟨id, has, .inl http⟩
    have ready := (once hc).imp_right (Or.imp_right (Or.imp_right And.right))
    rw [wp_ite]
    constructor
    · intro zero
      have unsubscribed : (graph s).Unsubscribed p :=
        fun h subscribed => size_eq_zero.mp zero h ((cur h).mpr subscribed)
      refine wp_seq (getHTTPgw_spec sane.inv subs) ?_
      rintro gateways _ rfl
      exact publishOnce_spec hu sane hl hc names (fun _ => unsubscribed) ready upd
    · intro nonzero
      exact publishOnce_spec hu sane hl hc names
        (fun zero => absurd (Nat.eq_zero_of_not_pos zero) nonzero) ready upd
  · intro notHttp
    obtain ⟨rfl, other⟩ : ns = namespaceUnknown ∧ rootFragment id ≠ httpRootScope :=
      classified.resolve_left fun both => notHttp both.1
    refine wp_post (rendezvous_spec shape hl upd fun _ => cur) ?_
    rintro _ s' ⟨pkts, ht, hr⟩ d
    rw [hr]
    refine settleTold ht (fun hc => ?_) d
    rcases once hc with mixed | lasting | unsubscribed | ⟨noIp, -⟩
    · exact .inl mixed
    · exact .inr (.inl lasting)
    · exact .inr (.inr unsubscribed)
    · -- the first identifier is not under a known root scope, some other one is
      refine .inl (sane.unmixed.resolve_right fun unmixed => ?_)
      obtain ⟨id', has', hk⟩ := hc
      rcases (unmixed _ p id' id hl has' has).mp hk with http | ip
      · exact other http
      · exact noIp id has ip

/-- An item under a known root scope is unpublished under the identifier at hand. -/
theorem matchOnce_spec (cur : ∀ h, h ∈ subs ↔ h ∈ (graph s).subscribers p) {known : Bool}
    (test : pol.mixed ∨ (known = true ↔ (graph s).Covered p)) (fullID : ID) {unpublish : RV Unit}
    (each : ∀ s1 pkts, graph s1 = (graph s).send pkts → Sane pol (graph s1) → wp unpublish
      (fun _ s' => Withdraws pol (· = p) (fun _ => True) s1 s' ∧ ∀ h, h ∉ (graph s').hosts
      .publisher p fullID) (Stops pol.loose short) s1)
    (once : (graph s).Covered p → pol.mixed ∨ pol.lasting ∨ (graph s).OnlyAt p fullID)
    (upd : Bool) : wp (rendezvous p subs upd >>= fun _ => if known then unpublish else pure ())
      (fun _ s' => Withdraws pol (· = p) (fun _ => True) s s' ∧
        ∀ d, Steps pol (d ∪ {p}) (graph s) d (graph s')) (Stops pol.loose short) s := by
  have ⟨tag, shape⟩ := sane.inv
  refine wp_seq (rendezvous_spec shape hl upd fun _ => cur) ?_
  rintro _ s1 ⟨pkts, ht, hr⟩
  have sends : Withdraws pol (· = p) (fun _ => True) s s1 := .ofReports ht hr
  rw [wp_ite]
  constructor
  · intro hk
    refine wp_post (each s1 pkts hr (sends.sane sane)) ?_
    rintro _ s' ⟨withdraws, hg⟩
    have both := sends.trans withdraws
    have hc := test.imp_right fun same => same.mp hk
    refine ⟨both, both.settleOnce fullID hu sane hl hc ?_⟩
    rcases hc with mixed | hc
    · exact .inl mixed
    · exact (once hc).imp_right (Or.imp_right fun only => .inr ⟨only, hg⟩)
  · refine fun notKnown => ⟨sends, fun d => ?_⟩
    rw [hr]
    exact settleTold ht (fun hc => .inl (test.resolve_right fun same =>
      notKnown (same.mpr hc))) d

end

end Blackadder.Rendezvous
