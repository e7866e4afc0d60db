import Blackadder.Library.NestedMap
import Mathlib.Algebra.Group.Nat.Defs

/-!
The routing prefixes of IP-over-ICN, in a map keyed by their network addresses as these are in
memory. `Ip` takes the first match from the end of the map.
-/

namespace Blackadder.Nap

open List
open Std (TreeMap)

structure Octets where
  a : UInt8
  b : UInt8
  c : UInt8
  d : UInt8
deriving DecidableEq

/-- `s_addr`: the first octet is in the first byte of memory. -/
def Octets.uint (octets : Octets) : UInt32 :=
  octets.a.toUInt32 ||| octets.b.toUInt32 <<< 8 ||| octets.c.toUInt32 <<< 16 |||
    octets.d.toUInt32 <<< 24

/-- What an octet adds to `_cidrUint`. -/
def cidrOctet (octet : UInt8) : UInt8 :=
  if octet = 0x80 then 1 else if octet = 0xC0 then 2 else if octet = 0xE0 then 3
  else if octet = 0xF0 then 4 else if octet = 0xF8 then 5 else if octet = 0xFC then 6
  else if octet = 0xFE then 7 else if octet = 0xFF then 8 else 0

def Octets.cidr (netmask : Octets) : UInt8 :=
  cidrOctet netmask.a + cidrOctet netmask.b + cidrOctet netmask.c + cidrOctet netmask.d

structure RoutingPrefix where
  networkAddress : Octets
  netmask : Octets
  routingPrefixUint : UInt32
deriving DecidableEq

def RoutingPrefix.of (networkAddress netmask : Octets) : RoutingPrefix :=
  ⟨networkAddress, netmask, networkAddress.uint &&& netmask.uint⟩

abbrev RoutingPrefixes : Type := TreeMap UInt32 RoutingPrefix

variable (stored : RoutingPrefixes)

/-- One round of the loop of `Configuration`; `insert` keeps an entry that is there. -/
def store (setting : Octets × Octets) : RoutingPrefixes :=
  let routingPrefix := RoutingPrefix.of setting.1 setting.2
  stored.insertIfNew routingPrefix.routingPrefixUint routingPrefix

/-- The map that `Configuration` makes of network addresses and netmasks. -/
def configure (settings : List (Octets × Octets)) : RoutingPrefixes := settings.foldl store ∅

def RoutingPrefix.Matches (routingPrefix : RoutingPrefix) (ipAddress : UInt32) : Prop :=
  ipAddress &&& routingPrefix.netmask.uint = routingPrefix.routingPrefixUint

instance (routingPrefix : RoutingPrefix) (ipAddress : UInt32) :
    Decidable (routingPrefix.Matches ipAddress) :=
  inferInstanceAs (Decidable (_ = _))

def routingPrefix? (ipAddress : UInt32) : Option RoutingPrefix :=
  (stored.toList.reverse.find? fun entry => entry.2.Matches ipAddress).map Prod.snd

def netmaskOf (length : Nat) : Octets :=
  let octet (i : Nat) : UInt8 := UInt8.ofNat (256 - 2 ^ (8 - (length - 8 * i)))
  ⟨octet 0, octet 1, octet 2, octet 3⟩

def Contiguous (netmask : Octets) : Prop := ∃ length ≤ 32, netmask = netmaskOf length

theorem cidr_netmaskOf {len : Nat} (short : len ≤ 32) : (netmaskOf len).cidr.toNat = len := by
  have all : ∀ len : Fin 33, (netmaskOf len).cidr.toNat = len := by decide
  exact all ⟨len, by omega⟩

theorem netmaskOf_and {short long : Nat} (order : short ≤ long) (hb : long ≤ 32) :
    (netmaskOf long).uint &&& (netmaskOf short).uint = (netmaskOf short).uint := by
  have all : ∀ long : Fin 33, ∀ short : Fin 33, short ≤ long →
      (netmaskOf long).uint &&& (netmaskOf short).uint = (netmaskOf short).uint := by
    decide +kernel
  exact all ⟨long, by omega⟩ ⟨short, by omega⟩ order

/-- Every prefix is under its own key. -/
def Sound : Prop :=
  ∀ (key : UInt32) (routingPrefix : RoutingPrefix), stored[key]? = some routingPrefix →
    key = routingPrefix.routingPrefixUint ∧ Contiguous routingPrefix.netmask

theorem sound_store {stored : RoutingPrefixes} (sound : Sound stored) {setting : Octets × Octets}
    (contiguous : Contiguous setting.2) : Sound (store stored setting) := by
  intro key routingPrefix hf
  rw [store, TreeMap.getElem?_insertIfNew] at hf
  split at hf
  · rename_i new
    cases hf
    exact ⟨NestedMap.compare_eq_iff.mp new.1, contiguous⟩
  · exact sound key routingPrefix hf

theorem sound_configure {settings : List (Octets × Octets)}
    (contiguous : ∀ setting ∈ settings, Contiguous setting.2) : Sound (configure settings) := by
  have initial : Sound ∅ := nofun
  rw [configure]
  generalize (∅ : RoutingPrefixes) = stored at initial
  induction settings generalizing stored with
  | nil => exact initial
  | cons setting _ ih =>
    apply ih fun other hm => contiguous other (.tail _ hm)
    exact sound_store initial (contiguous setting (.head _))

theorem key_le_of_cidr_le {ipAddress : UInt32} {short long : RoutingPrefix}
    (shortMask : Contiguous short.netmask) (longMask : Contiguous long.netmask)
    (first : short.Matches ipAddress) (second : long.Matches ipAddress)
    (order : short.netmask.cidr ≤ long.netmask.cidr) :
    short.routingPrefixUint ≤ long.routingPrefixUint := by
  obtain ⟨m, best, shortIs⟩ := shortMask
  obtain ⟨n, hb, longIs⟩ := longMask
  rw [UInt8.le_iff_toNat_le, shortIs, longIs, cidr_netmaskOf best, cidr_netmaskOf hb] at order
  have part : long.routingPrefixUint &&& short.netmask.uint = short.routingPrefixUint := by
    rw [← first, ← second, UInt32.and_assoc, longIs, shortIs, netmaskOf_and order hb]
  rw [UInt32.le_iff_toNat_le, ← part]
  exact Nat.and_le_left

/-- `Ip` finds a prefix that matches an address if there is one, and then a longest one. -/
theorem longest_prefix_match (settings : List (Octets × Octets))
    (contiguous : ∀ setting ∈ settings, Contiguous setting.2) (ipAddress : UInt32) :
    (routingPrefix? (configure settings) ipAddress = none ↔
      ∀ (key : UInt32) (other : RoutingPrefix), (configure settings)[key]? = some other →
        ¬ other.Matches ipAddress) ∧
    ∀ chosen, routingPrefix? (configure settings) ipAddress = some chosen →
      (∃ key : UInt32, (configure settings)[key]? = some chosen) ∧ chosen.Matches ipAddress ∧
      ∀ (key : UInt32) (other : RoutingPrefix), (configure settings)[key]? = some other →
        other.Matches ipAddress → other.netmask.cidr ≤ chosen.netmask.cidr := by
  have sound := sound_configure contiguous
  generalize configure settings = hs at sound
  have hl : ∀ (key : UInt32) (other : RoutingPrefix),
      (key, other) ∈ hs.toList.reverse ↔ hs[key]? = some other := by
    intro key other
    rw [mem_reverse, TreeMap.mem_toList_iff_getElem?_eq_some]
  have descending : hs.toList.reverse.Pairwise fun one two => two.1 < one.1 := by
    rw [pairwise_reverse]
    exact TreeMap.ordered_keys_toList.imp Std.compare_eq_lt.mp
  constructor
  · rw [routingPrefix?, Option.map_eq_none_iff, find?_eq_none]
    constructor
    · intro none key other hf matching
      exact none (key, other) ((hl key other).mpr hf) (decide_eq_true matching)
    · intro none entry hm matching
      exact none entry.1 entry.2 ((hl entry.1 entry.2).mp hm) (of_decide_eq_true matching)
  · intro chosen hf
    obtain ⟨⟨key, routingPrefix⟩, first, rfl⟩ := Option.map_eq_some_iff.mp hf
    obtain ⟨matching, before, after, order, passed⟩ := find?_eq_some_iff_append.mp first
    have here := (hl key routingPrefix).mp (mem_of_find?_eq_some first)
    have matches_ := of_decide_eq_true matching
    refine ⟨⟨key, here⟩, matches_, ?_⟩
    intro key' other ht otherMatches
    have hm := (hl key' other).mpr ht
    rw [order, mem_append, mem_cons] at hm
    rcases hm with earlier | same | later
    · -- those with larger keys do not match
      have unmatched := passed (key', other) earlier
      simp [otherMatches] at unmatched
    · cases same
      exact UInt8.le_refl _
    · -- one with a smaller key is not longer
      rw [order, pairwise_append, pairwise_cons] at descending
      have smaller : key' < key := descending.2.1.1 (key', other) later
      obtain ⟨keyIs, contiguousMask⟩ := sound key routingPrefix here
      obtain ⟨otherKeyIs, otherMask⟩ := sound key' other ht
      apply UInt8.not_lt.mp
      intro longer
      have order := key_le_of_cidr_le contiguousMask otherMask matches_ otherMatches
        (UInt8.le_of_lt longer)
      rw [← keyIs, ← otherKeyIs] at order
      exact UInt32.not_lt.mpr order smaller

/-- `10.0.0.0/8` and `10.1.0.0/16`, for `10.1.2.3`. -/
theorem longest_prefix_match_nested :
    routingPrefix? (configure [(⟨10, 0, 0, 0⟩, netmaskOf 8), (⟨10, 1, 0, 0⟩, netmaskOf 16)])
        (Octets.mk 10 1 2 3).uint = some (.of ⟨10, 1, 0, 0⟩ (netmaskOf 16)) ∧
      ∀ (key : UInt32) (other : RoutingPrefix),
        (configure [(⟨10, 0, 0, 0⟩, netmaskOf 8), (⟨10, 1, 0, 0⟩, netmaskOf 16)])[key]? =
          some other → other.Matches (Octets.mk 10 1 2 3).uint → other.netmask.cidr ≤ 16 := by
  have hf : routingPrefix? (configure [(⟨10, 0, 0, 0⟩, netmaskOf 8), (⟨10, 1, 0, 0⟩, netmaskOf 16)])
      (Octets.mk 10 1 2 3).uint = some (.of ⟨10, 1, 0, 0⟩ (netmaskOf 16)) := by decide +kernel
  refine ⟨hf, ?_⟩
  have longest := longest_prefix_match [(⟨10, 0, 0, 0⟩, netmaskOf 8), (⟨10, 1, 0, 0⟩, netmaskOf 16)]
    (by
      intro setting hm
      simp only [mem_cons, not_mem_nil, or_false] at hm
      rcases hm with rfl | rfl
      · exact ⟨8, by decide, rfl⟩
      · exact ⟨16, by decide, rfl⟩)
    (Octets.mk 10 1 2 3).uint
  exact (longest.2 _ hf).2.2

end Blackadder.Nap
