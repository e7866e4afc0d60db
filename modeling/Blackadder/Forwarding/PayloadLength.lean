import Blackadder.Forwarding.Delivery

/-!
The length field of the frames for SDN switches, which look like IPv6: the FID completes a header of
40 bytes.
-/

namespace Blackadder.Forwarding

open List hiding Vector

/-- The length field, read in network order, is the number of bytes behind the header of IPv6. -/
def LengthRight (frame : List UInt8) : Prop :=
  ((protoAt (14 + 4) frame).toNat : Int) = frame.length - (14 + 40)

instance (frame : List UInt8) : Decidable (LengthRight frame) :=
  inferInstanceAs (Decidable (_ = _))

variable {fw : Forwarder} {sums : Checksums} {fe : ForwardingEntry} {p rest : List UInt8}
variable (proto len : UInt16)

theorem protoAt_macHeader (rest : List UInt8) :
    protoAt 12 (macHeader fe ++ htons proto.toNat ++ rest) = proto := by
  rw [macHeader, append_assoc, append_assoc]
  exact protoAt_mac proto rest Vector.length_toList Vector.length_toList

/-- The field is stored in the order of the host, so that its bytes come out the other way. -/
theorem protoAt_sdnHeader (rest : List UInt8) :
    (protoAt (14 + 4) (macHeader fe ++ htons proto.toNat ++ sdnHeader len ++ rest)).toNat =
      len.toNat % 256 * 256 + len.toNat / 256 := by
  have before : (macHeader fe ++ htons proto.toNat ++ [0x60, 0, 0, 0]).length = 14 + 4 := by
    simp [macHeader, htons]
  have high : len.toNat / 256 < 256 := Nat.div_lt_of_lt_mul len.toNat_lt
  have split : macHeader fe ++ htons proto.toNat ++ sdnHeader len ++ rest =
      (macHeader fe ++ htons proto.toNat ++ [0x60, 0, 0, 0]) ++
        (LittleEndian.encode 2 len.toNat ++ ([59, 0xff] ++ rest)) := by
    simp [sdnHeader]
  rw [split, protoAt_append before]
  simp only [protoAt, LittleEndian.encode, drop_zero, cons_append,
    UInt16.toNat_ofNat', UInt8.toNat_ofNat']
  rw [Nat.mod_eq_of_lt high]
  omega

theorem length_sdnFrame (rest : List UInt8) :
    (macHeader fe ++ htons proto.toNat ++ sdnHeader len ++ rest).length = 22 + rest.length := by
  simp [macHeader, htons, sdnHeader]
  omega

theorem payloadLen_eq (p : List UInt8) : ∃ laps : Nat, (payloadLen p).toNat < 65536 ∧
    p.length + 65536 = (payloadLen p).toNat + 46 + 65536 * laps := by
  refine ⟨(p.length + 65536 - 14 - 32) / 65536, (payloadLen p).toNat_lt, ?_⟩
  rw [payloadLen, UInt16.toNat_ofNat']
  omega

/-- What the proxy sends has no Ethernet header yet whose length could be subtracted. -/
theorem not_lengthRight_of_proxy (p : List UInt8) :
    ¬ LengthRight (macHeader fe ++ htons proto.toNat ++ sdnHeader (payloadLen p) ++ p) := by
  rw [LengthRight, protoAt_sdnHeader, length_sdnFrame]
  obtain ⟨laps, hs, val⟩ := payloadLen_eq p
  omega

theorem lengthRight_of_ba_iff (long : 14 ≤ p.length) :
    LengthRight (macHeader fe ++ htons proto.toNat ++ sdnHeader (payloadLen p) ++ p.drop 14) ↔
      ∃ k ≤ 255, p.length = 14 + 32 + 257 * k := by
  rw [LengthRight, protoAt_sdnHeader, length_sdnFrame, length_drop]
  obtain ⟨laps, hs, val⟩ := payloadLen_eq p
  constructor
  · intro right
    exact ⟨(payloadLen p).toNat / 256, by omega, by omega⟩
  · intro he
    obtain ⟨k, hb, len⟩ := he
    have once : laps = 1 := by omega
    omega

theorem readdressed {frame : List UInt8} (hs : frame = macHeader fe ++ p.drop 12)
    (long : 12 ≤ p.length) :
    protoAt 12 frame = protoAt 12 p ∧ (LengthRight frame ↔ LengthRight p) := by
  have before : (macHeader fe).length = 12 := by simp [macHeader]
  have drop : ∀ n, frame.drop (12 + n) = p.drop (12 + n) := by
    intro n
    rw [hs, ← drop_drop, drop_left' before, drop_drop]
  have len : frame.length = p.length := by
    rw [hs, length_append, length_drop]
    omega
  have field : ∀ n, protoAt (12 + n) frame = protoAt (12 + n) p := by
    intro n
    rw [protoAt, drop, protoAt]
  refine ⟨field 0, ?_⟩
  rw [LengthRight, LengthRight, len, field 6]

theorem length_of_protoAt {proto : UInt16} (hp : proto ≠ 0) (type : protoAt 12 p = proto) :
    14 ≤ p.length := by
  by_contra short
  have few : (p.drop 12).length < 2 := by
    rw [length_drop]
    omega
  apply hp
  rw [← type, protoAt]
  generalize p.drop 12 = bytes at few
  cases bytes with
  | nil => rfl
  | cons first rest =>
    cases rest with
    | nil => rfl
    | cons => simp at few

/-- A frame has the right length exactly if it comes from one with the right length, or has a length
whose two bytes are the same. -/
theorem payload_length_iff (fw : Forwarder) (mac : fw.useMac = true)
    (sums : Checksums) (id : UInt32)
    (inPort : Nat) (p : List UInt8) (sent : Sent)
    (member : sent ∈ (push fw sums id inPort p).outputs) (wire : sent.port ≠ 0)
    (ipv6 : protoAt 12 sent.bytes = sdnType) : LengthRight sent.bytes ↔ inPort ≠ 0 ∧
      if protoAt 12 p = baType then ∃ k ≤ 255, p.length = 14 + 32 + 257 * k else LengthRight p := by
  by_cases proxy : inPort = 0
  · rw [push, if_pos proxy] at member
    obtain ⟨⟨fe, ctr⟩, _, made⟩ := mem_filterMap.mp member
    obtain ⟨bytes, encapsulated, rfl⟩ := Option.map_eq_some_iff.mp made
    apply iff_of_false _ fun both => both.1 proxy
    rw [encapsulate, if_pos mac] at encapsulated
    split at encapsulated
    · rename_i ba
      cases encapsulated
      rw [protoAt_macHeader, ba] at ipv6
      exact absurd ipv6 (by decide)
    · split at encapsulated
      · cases encapsulated
        exact not_lengthRight_of_proxy _ _
      · cases encapsulated
  · rw [and_iff_right proxy]
    rw [push, if_neg proxy] at member
    rcases mem_append.mp member with link | up
    · obtain ⟨⟨fe, ctr⟩, _, rfl⟩ := mem_map.mp link
      change protoAt 12 (readdress fw sums p fe) = sdnType at ipv6
      change LengthRight (readdress fw sums p fe) ↔ _
      rw [readdress, if_pos mac] at ipv6 ⊢
      split at ipv6
      · rename_i types
        rw [if_pos types, if_pos types.1]
        exact lengthRight_of_ba_iff _ (length_of_protoAt (by decide) types.1)
      rename_i notSdn
      split at ipv6
      · rename_i types
        rw [protoAt_macHeader, types.2] at ipv6
        exact absurd ipv6 (by decide)
      rename_i notBa
      rw [if_neg notSdn, if_neg notBa]
      have long : 12 ≤ p.length := by
        have frame := length_of_protoAt (show sdnType ≠ 0 by decide) ipv6
        simp only [macHeader, length_append, Vector.length_toList, length_drop] at frame
        omega
      obtain ⟨type, hs⟩ := readdressed rfl long
      rw [type] at ipv6
      rw [ipv6]
      exact hs
    · split at up
      · cases mem_singleton.mp up
        exact absurd rfl wire
      · cases up

/-- A node with one link, to an SDN switch. -/
def sdnNode : Forwarder where
  useMac := true
  iLID := 1
  fwTable := [⟨Vector.replicate 6 1, Vector.replicate 6 2,
    Vector.replicate 4 0, Vector.replicate 4 0,
    1, 2, sdnType⟩]

def noSums : Checksums := ⟨fun _ => Vector.replicate 2 0, fun _ _ => Vector.replicate 2 0⟩

/-- A packet of the proxy with 100 bytes behind the FID, and a frame with it. -/
def hundredBytes (header : List UInt8) : List UInt8 :=
  header ++ 2 :: List.replicate 131 0

def fromNode : List UInt8 := List.replicate 12 9 ++ htons baType.toNat

/-- Lengths of 100 are announced as 22016 by the node itself, and as 25600 by the next one. -/
theorem wrong_lengths : ((push sdnNode noSums 0 0 (hundredBytes [])).outputs.map fun sent =>
      (sent.port, sent.bytes.length - 54, protoAt 12 sent.bytes, (protoAt 18 sent.bytes).toNat)) =
      [(1, 100, sdnType, 22016)] ∧
    ((push sdnNode noSums 0 1 (hundredBytes fromNode)).outputs.map fun sent =>
      (sent.port, sent.bytes.length - 54, protoAt 12 sent.bytes, (protoAt 18 sent.bytes).toNat)) =
      [(1, 100, sdnType, 25600)] := by
  decide +kernel

theorem payload_length_iff_hundred :
    ∃ sent ∈ (push sdnNode noSums 0 1 (hundredBytes fromNode)).outputs,
    sent.port ≠ 0 ∧ protoAt 12 sent.bytes = sdnType ∧ (LengthRight sent.bytes ↔ (1 : Nat) ≠ 0 ∧
      if protoAt 12 (hundredBytes fromNode) = baType then
        ∃ k ≤ 255, (hundredBytes fromNode).length = 14 + 32 + 257 * k
      else LengthRight (hundredBytes fromNode)) := by
  let sent := (push sdnNode noSums 0 1 (hundredBytes fromNode)).outputs.head (by decide +kernel)
  have hm : sent ∈ (push sdnNode noSums 0 1 (hundredBytes fromNode)).outputs := head_mem _
  have wire : sent.port ≠ 0 := by decide +kernel
  have ipv6 : protoAt 12 sent.bytes = sdnType := by decide +kernel
  exact ⟨sent, hm, wire, ipv6,
    payload_length_iff sdnNode rfl noSums 0 1 (hundredBytes fromNode) sent hm wire ipv6⟩

end Blackadder.Forwarding
