import Blackadder.Deployment.Lids
import Blackadder.Library.Combinations
import Mathlib.Data.Nat.Choose.Factorization

namespace Blackadder.Deployment

open Blackadder.Topology (Bitvector)
open Forwarding Combinations List
open scoped Nat

structure NetworkConnection where
  bridge : List Char
  srcPt : List Char
  /-- The port of the fast failover group, or nothing. -/
  ffPt : List Char
  lid : Bitvector

/-- `bridge_connections`: the connections of a node that are on a bridge. -/
def bridgeConnections (node : List NetworkConnection) (bridge : List Char) :
    List NetworkConnection :=
  node.filter fun nc => nc.bridge = bridge

inductive Action
  | output (port : List Char)
  | group (groupId : List Char)
  /-- `resubmit` or `go-to-table`. -/
  | resubmit (table : Nat)
  | drop
deriving DecidableEq

/-- A rule for packets of IPv6. The addresses are the values and the masks. -/
structure Flow where
  table : Nat
  priority : Nat
  addresses : Option (List Char × List Char)
  actions : List Action
deriving DecidableEq

/-- `writeOFlows`, or `configureOdlController` for the node with some index. -/
inductive Tool
  | ovs
  | odl (index : Nat)

def groupId (index : Nat) (srcPt : List Char) : List Char :=
  (Nat.repr (index + 1)).toList ++ srcPt

def Tool.action (nc : NetworkConnection) : Tool → Action
  | .ovs => .output nc.srcPt
  | .odl index => if nc.ffPt = [] then .output nc.srcPt else .group (groupId index nc.srcPt)

/-- A group of type fast failover. -/
structure Group where
  groupId : List Char
  buckets : List (List Char)

def Tool.groups (connections : List NetworkConnection) : Tool → List Group
  | .ovs => []
  | .odl index => (connections.filter fun nc => nc.ffPt ≠ []).map fun nc =>
    ⟨groupId index nc.srcPt, [nc.srcPt, nc.ffPt]⟩

/-- The match of a rule for a LID. -/
def addressesOf (lid : Bitvector) : List Char × List Char := (ipv6H1 lid, ipv6H2 lid)

/-- A ratio rounded to 53 binary digits, in units of `2 ^ -200`. -/
def double (num den : Nat) : Nat :=
  let unit := den * 2 ^ (Nat.log2 (num * 2 ^ 200 / den) - 52)
  let mantissa := num * 2 ^ 200 / unit
  let rest := 2 * (num * 2 ^ 200 % unit)
  let up := rest > unit ∨ rest = unit ∧ mantissa % 2 = 1
  (if up then mantissa + 1 else mantissa) * 2 ^ (Nat.log2 (num * 2 ^ 200 / den) - 52)

/-- `boost::math::factorial<double>`. -/
def factorialDouble (n : Nat) : Nat := double n ! 1

/-- `priority_coef`, computed in doubles. -/
def priorityCoef (n f : Nat) : Nat :=
  double (factorialDouble n)
    (double (factorialDouble f * factorialDouble (n - f)) (2 ^ 400)) / 2 ^ 200

/-- `priority_counter` before the rules are made. -/
def priorityCounter (n : Nat) : Nat → Nat
  | 0 => 0
  | f + 1 => priorityCounter n f + priorityCoef n (f + 1)

/-- `int combinations = pow(2, n)`; a number that does not fit becomes the least `int`. -/
def combinations (n : Nat) : Int := if n < 31 then 2 ^ n else -2 ^ 31

/-- The rule for the connections whose bits are set in a number. -/
def combinationFlow (tool : Tool) (connections : List NetworkConnection)
    (j priority : Nat) : Flow :=
  let chosen := (positions connections.length j).filterMap fun k => connections[k]?
  { table := 0
    priority := 1000 + priority
    addresses := some (addressesOf (chosen.foldl (fun mcFID nc => mcFID ||| nc.lid) 0))
    actions := chosen.map fun nc => tool.action nc }

/-- The rules of a bridge, for its connections. -/
def bridgeFlows (tool : Tool) (connections : List NetworkConnection) : List Flow :=
  let n := connections.length
  let numbers := List.range' 1 (combinations n - 1).toNat
  (match tool with
    | .ovs => [⟨0, 500, none, [.drop]⟩]
    | .odl _ => []) ++
  (handOut (fun j => size n j - 1) (priorityCounter n) numbers).map fun entry =>
    combinationFlow tool connections entry.1 entry.2

/-- The rules of the tables, from some connection on. -/
def tableFlows (tool : Tool) : Nat → List NetworkConnection → List Flow
  | _, [] => []
  | j, [nc] =>
    ⟨j, 1000, some (addressesOf nc.lid), [tool.action nc]⟩ ::
      match tool with
      | .ovs => [⟨j, 500, none, [.drop]⟩]
      | .odl _ => []
  | j, nc :: later =>
    ⟨j, 500, none, [.resubmit (j + 1)]⟩ ::
      ⟨j, 1000, some (addressesOf nc.lid), [tool.action nc, .resubmit (j + 1)]⟩ ::
        tableFlows tool (j + 1) later

/-- A rule matches the packet with some FID in the place of its addresses. -/
def Flow.Matches (flow : Flow) (fid : Bitvector) : Prop :=
  match flow.addresses with
  | none => True
  | some (h1, h2) =>
    MatchesField (readIpv6 h1) (readIpv6 h1) ((fidBytes fid).take 16) ∧
      MatchesField (readIpv6 h2) (readIpv6 h2) ((fidBytes fid).drop 16)

instance (value mask field : List UInt8) : Decidable (MatchesField value mask field) :=
  inferInstanceAs (Decidable (_ = _))

instance (flow : Flow) (fid : Bitvector) : Decidable (flow.Matches fid) :=
  match flow with
  | ⟨_, _, none, _⟩ => isTrue trivial
  | ⟨_, _, some _, _⟩ => inferInstanceAs (Decidable (_ ∧ _))

/-- A switch with groups and ports, of which some are up. -/
structure Switch where
  flows : List Flow
  groups : List Group
  up : List Char → Bool

/-- The rule that a switch applies: one of the highest priority. -/
def Switch.lookup (switch : Switch) (fid : Bitvector) (table : Nat) : Option Flow :=
  (switch.flows.filter fun flow => flow.table = table ∧ flow.Matches fid).argmax Flow.priority

/-- The port of the first bucket whose port is up. -/
def Switch.port (switch : Switch) (id : List Char) : List (List Char) :=
  ((switch.groups.find? fun group => group.groupId = id).bind fun group =>
    group.buckets.find? switch.up).toList

/-- What an action does with a packet. -/
def Switch.perform (switch : Switch) (resubmit : Nat → List (List Char)) : Action → List (List Char)
  | .output port => [port]
  | .group id => switch.port id
  | .resubmit next => resubmit next
  | .drop => []

/-- What the rule that was found, if there is one, does with a packet. -/
def Switch.apply (switch : Switch) (resubmit : Nat → List (List Char)) :
    Option Flow → List (List Char)
  | none => []
  | some flow => flow.actions.flatMap (switch.perform resubmit)

/-- The ports to which a packet goes from a table on. -/
def Switch.run (switch : Switch) (fid : Bitvector) : (tables : Nat) → Nat → List (List Char)
  | 0, _ => []
  | tables + 1, table => switch.apply (switch.run fid tables) (switch.lookup fid table)

/-- The connections whose LID is in the FID. -/
def matched (connections : List NetworkConnection) (fid : Bitvector) : List NetworkConnection :=
  connections.filter fun nc => Masks.Covers fid nc.lid

/-- The rules of a bridge forward as the FID says, and no two of them have the same priority. -/
structure Forwards (switch : Switch) (connections : List NetworkConnection) : Prop where
  distinct : (switch.flows.map Flow.priority).Nodup
  exact : ∀ fid, ∀ best ∈ switch.flows, best.Matches fid →
    (∀ other ∈ switch.flows, other.Matches fid → other.priority ≤ best.priority) →
    switch.apply (fun _ => []) (some best) =
      (matched connections fid).map NetworkConnection.srcPt
  unmatched : ∀ fid, (∀ flow ∈ switch.flows, flow.addresses ≠ none → ¬ flow.Matches fid) ↔
    matched connections fid = []

variable {nc : NetworkConnection} {flow : Flow}

section

variable {fid : Bitvector} {tool : Tool} {ncs : List NetworkConnection}

theorem matches_iff {lid : Bitvector} (ha : flow.addresses = some (addressesOf lid)) :
    flow.Matches fid ↔ Masks.Covers fid lid := by
  obtain ⟨first, _⟩ := length_readIpv6 lid
  have half : ((fidBytes fid).take 16).length = 16 := by
    rfl
  rw [← matchesField_fidBytes, ← take_append_drop 16 (fidBytes fid), ← readIpv6_lid,
    ← matchesField_append rfl (by rw [half, first]), Flow.Matches, ha]
  rfl

theorem covers_foldl {chosen : List NetworkConnection} {mask : Bitvector} :
    Masks.Covers fid (chosen.foldl (fun mcFID nc => mcFID ||| nc.lid) mask) ↔
      Masks.Covers fid mask ∧ ∀ nc ∈ chosen, Masks.Covers fid nc.lid := by
  induction chosen generalizing mask with
  | nil => simp
  | cons nc chosen ih =>
    rw [foldl_cons, ih, Masks.covers_or_iff]
    simp [and_assoc]

theorem perform_action {switch : Switch} (hm : nc ∈ ncs)
    (groups : switch.groups = tool.groups ncs) (up : switch.up nc.srcPt = true)
    (resubmit : Nat → List (List Char)) :
    switch.perform resubmit (tool.action nc) = [nc.srcPt] := by
  cases tool with
  | ovs => rfl
  | odl idx =>
    rw [Tool.action]
    by_cases plain : nc.ffPt = []
    · rw [if_pos plain]
      rfl
    rw [if_neg plain, Switch.perform, Switch.port, groups, Tool.groups]
    cases hf : ((ncs.filter fun nc => nc.ffPt ≠ []).map fun nc =>
        (⟨groupId idx nc.srcPt, [nc.srcPt, nc.ffPt]⟩ : Group)).find?
        fun group => group.groupId = groupId idx nc.srcPt with
    | none =>
      have ht := find?_eq_none.mp hf ⟨groupId idx nc.srcPt, [nc.srcPt, nc.ffPt]⟩
        (mem_map.mpr ⟨nc, mem_filter.mpr ⟨hm, decide_eq_true plain⟩, rfl⟩)
      exact absurd (decide_eq_true rfl) ht
    | some group =>
      obtain ⟨other, _, rfl⟩ := mem_map.mp (mem_of_find?_eq_some hf)
      have hs := find?_some hf
      simp only [decide_eq_true_eq] at hs
      have port : other.srcPt = nc.srcPt := append_cancel_left hs
      rw [Option.bind_some, port, find?_cons_of_pos up]
      rfl

end

open Masks NetworkConnection Deployment.Flow

variable {tool : Tool} {connections : List NetworkConnection} {fid : Bitvector} {switch : Switch}

/-- The connections of a number. -/
def chosen (connections : List NetworkConnection) (j : Nat) : List NetworkConnection :=
  (positions connections.length j).filterMap fun k => connections[k]?

/-- The connection at a position is one of the FID. -/
def wanted (connections : List NetworkConnection) (fid : Bitvector) (k : Nat) : Bool :=
  (connections[k]?).any fun nc => Masks.Covers fid nc.lid

theorem filterMap_range (connections : List NetworkConnection) :
    (List.range connections.length).filterMap (fun k => connections[k]?) = connections := by
  induction connections with
  | nil => rfl
  | cons nc later ih =>
    rw [length_cons, range_succ_eq_map, filterMap_cons, filterMap_map]
    exact congrArg (nc :: ·) ih

theorem filterMap_wanted :
    ((List.range connections.length).filter (wanted connections fid)).filterMap
      (fun k => connections[k]?) = matched connections fid := by
  conv_rhs => rw [matched, ← filterMap_range connections, filter_filterMap]
  rw [filterMap_filter]
  congr 1
  funext k
  rw [wanted]
  cases connections[k]? with
  | none => rfl
  | some nc => simp [Option.filter]

theorem exists_matched (ncs : List NetworkConnection) (fid : Bitvector) :
    ∃ j < 2 ^ ncs.length, chosen ncs j = matched ncs fid := by
  obtain ⟨j, low, hs⟩ := exists_positions ncs.length (wanted ncs fid)
  exact ⟨j, low, by rw [chosen, hs, filterMap_wanted]⟩

theorem length_chosen (ncs : List NetworkConnection) (j : Nat) :
    (chosen ncs j).length = size ncs.length j := by
  rw [chosen, size, length_filterMap_eq_countP, countP_eq_length]
  intro k hm
  have hi := mem_range.mp (mem_of_mem_filter hm)
  rw [List.getElem?_eq_getElem hi]
  rfl

theorem chosen_sublist {j : Nat} (all : ∀ nc ∈ chosen connections j, Covers fid nc.lid) :
    (chosen connections j).Sublist (matched connections fid) := by
  have hs : chosen connections j = (chosen connections j).filter fun nc =>
      Covers fid nc.lid := by
    rw [filter_eq_self.mpr]
    intro nc hm
    exact decide_eq_true (all nc hm)
  rw [hs]
  apply List.Sublist.filter
  conv_rhs => rw [← filterMap_range connections]
  exact (filter_sublist).filterMap _

section

/-- The numbers of the rules with their priorities. -/
def entries (n : Nat) : List (Nat × Nat) :=
  handOut (fun j => size n j - 1) (priorityCounter n) (List.range' 1 (combinations n - 1).toNat)

/-- The counters of the sizes have room for all the rules. -/
def Roomy (n : Nat) : Prop := n < 31 ∧ ∀ f ≤ n, 0 < f → n.choose f ≤ priorityCoef n f

theorem mem_bridgeFlows : flow ∈ bridgeFlows tool connections ↔
    (tool = .ovs ∧ flow = ⟨0, 500, none, [.drop]⟩) ∨ ∃ entry ∈ entries connections.length,
        flow = combinationFlow tool connections entry.1 entry.2 := by
  cases tool with
  | ovs | odl idx => simp [bridgeFlows, entries, eq_comm]

variable {j num : Nat} {entry : Nat × Nat} {node : List NetworkConnection}

theorem matches_combination : (combinationFlow tool connections j num).Matches fid ↔
      ∀ nc ∈ chosen connections j, Covers fid nc.lid := by
  rw [matches_iff rfl, covers_foldl]
  exact and_iff_right BitVec.and_zero

variable {n : Nat}

theorem numbers_eq (small : n < 31) : (combinations n - 1).toNat = 2 ^ n - 1 := by
  rw [combinations]
  have cast : (2 ^ n : Int) = ((2 ^ n : Nat) : Int) := by push_cast; rfl
  omega

theorem number_of_entry (small : n < 31) (hm : entry ∈ entries n) :
    0 < entry.1 ∧ entry.1 < 2 ^ n := by
  have hi : entry.1 ∈ List.range' 1 (2 ^ n - 1) := by
    have first := mem_map_of_mem (f := Prod.fst) hm
    rwa [entries, map_fst_handOut, numbers_eq small] at first
  have bounds := mem_range'_1.mp hi
  omega

theorem exists_entry (small : n < 31) (hp : 0 < j) (low : j < 2 ^ n) :
    ∃ num, (j, num) ∈ entries n := by
  have hi : j ∈ (entries n).map Prod.fst := by
    rw [entries, map_fst_handOut, numbers_eq small]
    exact mem_range'_1.mpr (by omega)
  obtain ⟨⟨_, num⟩, hm, rfl⟩ := mem_map.mp hi
  exact ⟨num, hm⟩

theorem size_pos (small : n < 31) (hm : entry ∈ entries n) : 0 < size n entry.1 := by
  obtain ⟨hp, low⟩ := number_of_entry small hm
  apply Nat.pos_of_ne_zero
  intro he
  have zero := eq_zero_of_size low he
  omega

theorem Roomy.ranges (roomy : Roomy n) (k : Nat) :
    priorityCounter n k + (List.range' 1 (combinations n - 1).toNat).countP
      (fun j => size n j - 1 = k) ≤ priorityCounter n (k + 1) := by
  rw [numbers_eq roomy.1, countP_nonempty]
  apply Nat.add_le_add_left
  by_cases hi : k + 1 ≤ n
  · exact roomy.2 (k + 1) hi (Nat.succ_pos k)
  · rw [Nat.choose_eq_zero_of_lt (by omega)]
    exact Nat.zero_le _

theorem monotone_priorityCounter (n : Nat) : Monotone (priorityCounter n) :=
  monotone_nat_of_le_succ fun _ => Nat.le_add_right _ _

theorem Roomy.increasing (roomy : Roomy n) {less more : Nat × Nat} (first : less ∈ entries n)
    (second : more ∈ entries n) (sizes : size n less.1 < size n more.1) : less.2 < more.2 := by
  have most := (number_bounds first).2
  have least := (number_bounds second).1
  have range := roomy.ranges (size n less.1 - 1)
  have hp := size_pos roomy.1 first
  have order : priorityCounter n (size n less.1 - 1 + 1) ≤ priorityCounter n (size n more.1 - 1) :=
    monotone_priorityCounter n (by omega)
  omega

theorem Roomy.distinct (roomy : Roomy connections.length) :
    ((bridgeFlows tool connections).map priority).Nodup := by
  have nums : ((entries connections.length).map Prod.snd).Nodup :=
    nodup_handOut fun k => ⟨Nat.le_refl _, roomy.ranges k⟩
  have rules : (((entries connections.length).map fun entry =>
      combinationFlow tool connections entry.1 entry.2).map priority).Nodup := by
    have shifted := nums.map (f := fun num => 1000 + num) fun _ _ => Nat.add_left_cancel
    rwa [map_map] at shifted ⊢
  cases tool with
  | odl idx => exact rules
  | ovs =>
    apply nodup_cons.mpr
    constructor
    · intro ha
      obtain ⟨flow, hm, hs⟩ := mem_map.mp ha
      obtain ⟨entry, _, rfl⟩ := mem_map.mp hm
      change 1000 + entry.2 = 500 at hs
      omega
    · exact rules

theorem exists_rule (small : connections.length < 31) (some : matched connections fid ≠ []) :
    ∃ entry ∈ entries connections.length, chosen connections entry.1 = matched connections fid := by
  obtain ⟨j, low, hs⟩ := exists_matched connections fid
  have hp : 0 < j := by
    apply Nat.pos_of_ne_zero
    rintro rfl
    apply some
    rw [← hs, ← length_eq_zero_iff, length_chosen, size, positions, filter_eq_nil_iff.mpr]
    · rfl
    · simp
  obtain ⟨num, hm⟩ := exists_entry small hp low
  exact ⟨(j, num), hm, hs⟩

theorem covers_matched (hm : nc ∈ matched connections fid) : Covers fid nc.lid :=
  of_decide_eq_true (mem_filter.mp hm).2

theorem unmatched_iff (small : connections.length < 31) :
    (∀ flow ∈ bridgeFlows tool connections, flow.addresses ≠ none → ¬ flow.Matches fid) ↔
      matched connections fid = [] := by
  constructor
  · intro single
    by_contra some
    obtain ⟨entry, hm, hs⟩ := exists_rule small some
    refine single _ (mem_bridgeFlows.mpr (.inr ⟨entry, hm, rfl⟩)) (Option.some_ne_none _) ?_
    rw [matches_combination, hs]
    exact fun nc => covers_matched
  · intro none flow hm ha hh
    rcases mem_bridgeFlows.mp hm with ⟨_, rfl⟩ | ⟨entry, hg, rfl⟩
    · exact ha rfl
    have sub := chosen_sublist (matches_combination.mp hh)
    have short := sub.length_le
    have hp := size_pos small hg
    rw [none, length_chosen, length_nil] at short
    omega

theorem outputs_combination (own : ∀ nc ∈ connections, nc ∈ node)
    (groups : switch.groups = tool.groups node) (up : ∀ nc ∈ node, switch.up nc.srcPt = true)
    (resubmit : Nat → List (List Char)) :
    switch.apply resubmit (some (combinationFlow tool connections j num)) =
      (chosen connections j).map srcPt := by
  change ((chosen connections j).map _).flatMap _ = _
  rw [flatMap_map, map_eq_flatMap]
  apply flatMap_congr
  intro nc hm
  obtain ⟨k, _, hf⟩ := mem_filterMap.mp hm
  have hi := own nc (mem_of_getElem? hf)
  exact perform_action hi groups (up nc hi) resubmit

/-- The rules forward where the priorities leave room for all combinations. -/
theorem Roomy.forwards (roomy : Roomy connections.length)
    (flows : switch.flows = bridgeFlows tool connections) (own : ∀ nc ∈ connections, nc ∈ node)
    (groups : switch.groups = tool.groups node) (up : ∀ nc ∈ node, switch.up nc.srcPt = true) :
    Forwards switch connections where
  distinct := by
    rw [flows]
    exact roomy.distinct
  unmatched := by
    rw [flows]
    exact fun fid => unmatched_iff roomy.1
  exact := by
    rw [flows]
    intro fid best hm hh highest
    rcases mem_bridgeFlows.mp hm with ⟨_, rfl⟩ | ⟨entry, hg, rfl⟩
    · -- The rule that drops has a lower priority than every other one.
      rw [(@unmatched_iff tool connections fid roomy.1).mp]
      · rfl
      · intro flow other ha again
        have hl := highest flow other again
        rcases mem_bridgeFlows.mp other with ⟨_, rfl⟩ | ⟨entry, _, rfl⟩
        · exact ha rfl
        · change 1000 + entry.2 ≤ 500 at hl
          omega
    · have sub := chosen_sublist (matches_combination.mp hh)
      have some : matched connections fid ≠ [] := by
        intro none
        have short := sub.length_le
        have hp := size_pos roomy.1 hg
        rw [none, length_chosen, length_nil] at short
        omega
      obtain ⟨full, ht, hs⟩ := exists_rule roomy.1 some
      have hl : 1000 + full.2 ≤ 1000 + entry.2 := by
        apply highest _ (mem_bridgeFlows.mpr (.inr ⟨full, ht, rfl⟩))
        rw [matches_combination, hs]
        exact fun nc => covers_matched
      have long : (matched connections fid).length ≤ (chosen connections entry.1).length := by
        rw [← hs, length_chosen, length_chosen]
        by_contra more
        have order := roomy.increasing hg ht (Nat.lt_of_not_le more)
        omega
      rw [outputs_combination own groups up, sub.eq_of_length_le long]

/-- The last rules of a counter without room get the priorities of the next size. -/
theorem repeated_number {k : Nat} (small : n < 31) (hi : k + 2 ≤ n)
    (tight : priorityCoef n (k + 1) < n.choose (k + 1)) : ¬ ((entries n).map Prod.snd).Nodup := by
  intro nodup
  rw [← countP_nonempty] at tight
  have next : 0 < (List.range' 1 (2 ^ n - 1)).countP (fun j => size n j - 1 = k + 1) := by
    rw [countP_nonempty]
    exact Nat.choose_pos hi
  obtain ⟨before, a, after, split, key, count⟩ := exists_rank tight
  obtain ⟨before', b, after', split', key', count'⟩ := exists_rank next
  have last : (a, priorityCounter n (k + 1)) ∈ entries n := by
    rw [entries, numbers_eq small, mem_handOut]
    refine ⟨before, after, split, ?_⟩
    rw [of_decide_eq_true key, count, priorityCounter]
  have first : (b, priorityCounter n (k + 1)) ∈ entries n := by
    rw [entries, numbers_eq small, mem_handOut]
    refine ⟨before', after', split', ?_⟩
    rw [of_decide_eq_true key', count']
    exact (Nat.add_zero (priorityCounter n (k + 1))).symm
  have hs := inj_on_of_nodup_map nodup last first rfl
  have sizes := of_decide_eq_true key
  rw [(Prod.mk.inj hs).1, of_decide_eq_true key'] at sizes
  omega

theorem nodup_entries (distinct : ((bridgeFlows tool connections).map priority).Nodup) :
    ((entries connections.length).map Prod.snd).Nodup := by
  have rules : (((entries connections.length).map fun entry =>
      combinationFlow tool connections entry.1 entry.2).map priority).Nodup := by
    cases tool with
    | odl idx => exact distinct
    | ovs => exact (nodup_cons.mp distinct).2
  rw [map_map] at rules
  apply List.Nodup.of_map (fun num => 1000 + num)
  rwa [map_map]

theorem entries_eq_nil (large : 31 ≤ n) : entries n = [] := by
  rw [entries, combinations, if_neg (Nat.not_lt.mpr large)]
  rfl

theorem matched_allOnes (connections : List NetworkConnection) :
    matched connections (BitVec.allOnes _) = connections := by
  rw [matched, filter_eq_self]
  intro nc _
  exact decide_eq_true BitVec.allOnes_and

theorem Forwards.small (forwards : Forwards switch connections)
    (flows : switch.flows = bridgeFlows tool connections) : connections.length < 31 := by
  by_contra large
  have none : matched connections (BitVec.allOnes _) = [] := by
    apply (forwards.unmatched _).mp
    intro flow hm ha
    rw [flows] at hm
    rcases mem_bridgeFlows.mp hm with ⟨_, rfl⟩ | ⟨entry, hg, _⟩
    · exact absurd rfl ha
    · rw [entries_eq_nil (Nat.le_of_not_lt large)] at hg
      cases hg
  rw [matched_allOnes] at none
  rw [none] at large
  exact large (by decide)

/-- The coefficients in doubles are large enough, for all numbers of connections but two. -/
theorem factorials_le_priorityCoef : ∀ n < 31, n ≠ 24 → n ≠ 29 → ∀ f ≤ n, 0 < f →
    n ! / (f ! * (n - f)!) ≤ priorityCoef n f := by
  decide +kernel

theorem roomy_of_small (small : n < 31) (first : n ≠ 24) (second : n ≠ 29) : Roomy n := by
  refine ⟨small, fun f hi hp => ?_⟩
  rw [Nat.choose_eq_factorial_div_factorial hi]
  exact factorials_le_priorityCoef n small first second f hi hp

/-- The quotient of the factorials is rounded to a number below 24, and below 475020. -/
theorem priorityCoef_tight :
    priorityCoef 24 23 < Nat.choose 24 23 ∧ priorityCoef 29 6 < Nat.choose 29 6 := by
  decide +kernel

theorem forwards_iff (flows : switch.flows = bridgeFlows tool connections)
    (own : ∀ nc ∈ connections, nc ∈ node) (groups : switch.groups = tool.groups node)
    (up : ∀ nc ∈ node, switch.up nc.srcPt = true) : Forwards switch connections ↔
      connections.length < 31 ∧ connections.length ≠ 24 ∧ connections.length ≠ 29 := by
  constructor
  · intro forwards
    have small := forwards.small flows
    have distinct := forwards.distinct
    rw [flows] at distinct
    have nums := nodup_entries distinct
    refine ⟨small, fun count => ?_, fun count => ?_⟩
    · rw [count] at nums
      exact repeated_number (by decide) (by decide) priorityCoef_tight.1 nums
    · rw [count] at nums
      exact repeated_number (by decide) (by decide) priorityCoef_tight.2 nums
  · rintro ⟨small, first, second⟩
    exact (roomy_of_small small first second).forwards flows own groups up

end

section

variable {j : Nat}

theorem lookup_eq {before here after : List Flow} (flows : switch.flows = before ++ here ++ after)
    (earlier : ∀ flow ∈ before, flow.table < j) (later : ∀ flow ∈ after, j < flow.table)
    (all : ∀ flow ∈ here, flow.table = j) :
    switch.lookup fid j = (here.filter fun flow => flow.Matches fid).argmax priority := by
  have first : before.filter (fun flow => flow.table = j ∧ flow.Matches fid) = [] := by
    rw [filter_eq_nil_iff]
    intro flow hm
    have low := earlier flow hm
    simp only [decide_eq_true_eq]
    omega
  have last : after.filter (fun flow => flow.table = j ∧ flow.Matches fid) = [] := by
    rw [filter_eq_nil_iff]
    intro flow hm
    have high := later flow hm
    simp only [decide_eq_true_eq]
    omega
  have own : here.filter (fun flow => flow.table = j ∧ flow.Matches fid) =
      here.filter fun flow => flow.Matches fid := by
    apply filter_congr
    intro flow hm
    simp [all flow hm]
  rw [Switch.lookup, flows, filter_append, filter_append, first, last, own, nil_append, append_nil]

theorem matched_cons (nc : NetworkConnection) (later : List NetworkConnection) :
    matched (nc :: later) fid = (if Covers fid nc.lid then [nc] else []) ++ matched later fid := by
  by_cases hc : Covers fid nc.lid
  · simp [hc, matched]
  · simp [hc, matched]

def tableRules (tool : Tool) (j : Nat) (nc : NetworkConnection) : (more : Bool) → List Flow
  | true => [⟨j, 500, none, [.resubmit (j + 1)]⟩,
      ⟨j, 1000, some (addressesOf nc.lid), [tool.action nc, .resubmit (j + 1)]⟩]
  | false => ⟨j, 1000, some (addressesOf nc.lid), [tool.action nc]⟩ ::
      match tool with
      | .ovs => [⟨j, 500, none, [.drop]⟩]
      | .odl _ => []

theorem tableFlows_cons (nc : NetworkConnection) (later : List NetworkConnection) :
    tableFlows tool j (nc :: later) =
      tableRules tool j nc (!later.isEmpty) ++ tableFlows tool (j + 1) later := by
  cases later with
  | nil => exact (append_nil _).symm
  | cons => rfl

variable {flow : Flow}

theorem table_of_mem_rules {more : Bool} (hm : flow ∈ tableRules tool j nc more) :
    flow.table = j := by
  cases more with
  | true =>
    rcases mem_cons.mp hm with rfl | hm
    · rfl
    · rw [mem_singleton.mp hm]
  | false =>
    rcases mem_cons.mp hm with rfl | hm
    · rfl
    · cases tool with
      | ovs => rw [mem_singleton.mp hm]
      | odl idx => cases hm

theorem table_of_mem (hm : flow ∈ tableFlows tool j connections) : j ≤ flow.table := by
  induction connections generalizing j with
  | nil => cases hm
  | cons nc later ih =>
    rw [tableFlows_cons] at hm
    rcases mem_append.mp hm with here | after
    · exact Nat.le_of_eq (table_of_mem_rules here).symm
    · exact Nat.le_of_succ_le (ih after)

theorem apply_rules {nc : NetworkConnection} {more : Bool} {resubmit : Nat → List (List Char)}
    (sends : switch.perform resubmit (tool.action nc) = [nc.srcPt]) : switch.apply resubmit
      (((tableRules tool j nc more).filter fun flow => flow.Matches fid).argmax priority) =
      (if Covers fid nc.lid then [nc.srcPt] else []) ++ if more then resubmit (j + 1) else [] := by
  have rule : ∀ actions, Flow.Matches ⟨j, 1000, some (addressesOf nc.lid), actions⟩ fid ↔
      Covers fid nc.lid := fun actions => matches_iff rfl
  have default : ∀ actions, Flow.Matches ⟨j, 500, none, actions⟩ fid := fun actions => trivial
  by_cases hc : Covers fid nc.lid
  · have all : (tableRules tool j nc more).filter (fun flow => flow.Matches fid) =
        tableRules tool j nc more := by
      cases more with
      | true => simp [tableRules, rule, default, hc]
      | false => cases tool <;> simp [tableRules, rule, default, hc]
    rw [all, if_pos hc]
    cases more with
    | true =>
      change switch.perform resubmit (tool.action nc) ++ (resubmit (j + 1) ++ []) = _
      rw [sends, append_nil]
      rfl
    | false =>
      cases tool <;>
      · change switch.perform resubmit _ ++ [] = _
        rw [sends]
        rfl
  · rw [if_neg hc]
    cases more with
    | true =>
      rw [tableRules, filter_cons_of_pos (by simp [default]),
        filter_cons_of_neg (by simp [rule, hc])]
      exact append_nil _
    | false =>
      cases tool with
      | ovs =>
        rw [tableRules, filter_cons_of_neg (by simp [rule, hc])]
        rfl
      | odl idx =>
        rw [tableRules, filter_cons_of_neg (by simp [rule, hc])]
        rfl

/-- The pipeline from a table on sends to the ports of the connections from there on. -/
theorem run_tables {node : List NetworkConnection} {before : List Flow} {tables : Nat}
    (flows : switch.flows = before ++ tableFlows tool j connections)
    (earlier : ∀ flow ∈ before, flow.table < j) (own : ∀ nc ∈ connections, nc ∈ node)
    (groups : switch.groups = tool.groups node) (up : ∀ nc ∈ node, switch.up nc.srcPt = true)
    (he : connections.length ≤ tables) :
    switch.run fid tables j = (matched connections fid).map srcPt := by
  induction connections generalizing j before tables with
  | nil =>
    cases tables with
    | zero => rfl
    | succ =>
      have none := @lookup_eq fid switch j before [] []
        (by rw [flows, tableFlows, append_nil, append_nil]) earlier (by simp) (by simp)
      rw [Switch.run, none]
      rfl
  | cons nc later ih =>
    cases tables with
    | zero => cases he
    | succ tables =>
      rw [tableFlows_cons, ← append_assoc] at flows
      have hf := @lookup_eq fid switch j _ _ _ flows earlier
        (fun flow hm => table_of_mem hm) (fun flow hm => table_of_mem_rules hm)
      have hi := own nc mem_cons_self
      have rest := @ih (j + 1) _ tables flows (by
          intro flow hm
          rcases mem_append.mp hm with first | here
          · exact Nat.lt_succ_of_lt (earlier flow first)
          · rw [table_of_mem_rules here]
            exact Nat.lt_succ_self j)
        (fun nc hm => own nc (mem_cons_of_mem _ hm))
        (Nat.le_of_succ_le_succ he)
      have step := @apply_rules tool fid switch j nc (!later.isEmpty) _
        (perform_action hi groups (up nc hi) (switch.run fid tables))
      rw [← hf] at step
      rw [Switch.run, step, rest, matched_cons, map_append, apply_ite (List.map srcPt)]
      cases later with
      | nil => rfl
      | cons => rfl

end

/-- The rules forward as the FID asks for up to 30 connections, except 24 and 29. -/
theorem rules_forward_iff (tool : Tool) (node : List NetworkConnection) (bridge : List Char)
    (up : List Char → Bool) (allUp : ∀ nc ∈ node, up nc.srcPt = true) :
    (Forwards ⟨bridgeFlows tool (bridgeConnections node bridge), tool.groups node, up⟩
        (bridgeConnections node bridge) ↔
      (bridgeConnections node bridge).length < 31 ∧
        (bridgeConnections node bridge).length ≠ 24 ∧
        (bridgeConnections node bridge).length ≠ 29) ∧
    ∀ fid, Switch.run ⟨tableFlows tool 0 node, tool.groups node, up⟩ fid node.length 0 =
      (matched node fid).map NetworkConnection.srcPt := by
  constructor
  · exact forwards_iff rfl (fun nc hm => mem_of_mem_filter hm) rfl allUp
  · intro fid
    exact @run_tables tool node fid _ 0 node [] node.length rfl (by simp) (fun nc hm => hm)
      rfl allUp (Nat.le_refl _)

/-- A node with some ports on one bridge, each with a bit of its own. -/
def star (n : Nat) : List NetworkConnection :=
  (List.range n).map fun k => ⟨[], (Nat.repr k).toList, [], BitVec.ofNat 256 (2 ^ k)⟩

theorem rules_forward_iff_star : (∀ nc ∈ star 2, (fun _ => true) nc.srcPt = true) ∧
    (Forwards ⟨bridgeFlows .ovs (bridgeConnections (star 2) []), [], fun _ => true⟩
        (bridgeConnections (star 2) []) ↔
      (bridgeConnections (star 2) []).length < 31 ∧
        (bridgeConnections (star 2) []).length ≠ 24 ∧
        (bridgeConnections (star 2) []).length ≠ 29) ∧
    ∀ fid, Switch.run ⟨tableFlows .ovs 0 (star 2), [], fun _ => true⟩ fid 2 0 =
      (matched (star 2) fid).map NetworkConnection.srcPt :=
  ⟨fun _ _ => rfl, rules_forward_iff .ovs (star 2) [] (fun _ => true) fun _ _ => rfl⟩

theorem length_bridgeConnections_star (n : Nat) : (bridgeConnections (star n) []).length = n := by
  have all : bridgeConnections (star n) [] = star n := by
    rw [bridgeConnections, filter_eq_self]
    intro nc hm
    obtain ⟨k, _, rfl⟩ := mem_map.mp hm
    rfl
  rw [all, star, length_map, length_range]

/-- With 31 ports there is no rule but the one that drops; with 24 two have the same priority. -/
theorem ports_without_rules :
    bridgeFlows .ovs (bridgeConnections (star 31) []) = [⟨0, 500, none, [.drop]⟩] ∧
    (matched (bridgeConnections (star 31) []) (BitVec.allOnes _)).length = 31 ∧
    ¬ ((bridgeFlows .ovs (bridgeConnections (star 24) [])).map Flow.priority).Nodup := by
  refine ⟨?_, ?_, ?_⟩
  · have none := entries_eq_nil (Nat.le_refl 31)
    rw [entries] at none
    rfl
  · rw [matched_allOnes, length_bridgeConnections_star]
  · intro distinct
    have nums := nodup_entries distinct
    exact repeated_number (by decide) (by decide) priorityCoef_tight.1 nums

end Blackadder.Deployment
