import Mathlib.Data.Vector.Defs
import Blackadder.Forwarding.Forwarder
import Blackadder.Topology.Coverage

/-!
The FID that the topology manager calculates takes a packet to its destination: the forwarders on
the path each send it one hop further, and the last one hands it to its proxy.
-/

namespace Blackadder.Forwarding

open List hiding Vector
open Blackadder.Topology Walks EdgeList Masks Nat Option Forwarding
open TMIgraph (nodeName lidText)

/-- The addresses of an entry, for the mode. -/
def ForwardingEntry.source (useMac : Bool) (fe : ForwardingEntry) : List UInt8 :=
  if useMac then fe.src.toList else fe.srcIp.toList

def ForwardingEntry.destination (useMac : Bool) (fe : ForwardingEntry) : List UInt8 :=
  if useMac then fe.dst.toList else fe.dstIp.toList

def destinationOf (useMac : Bool) (frame : List UInt8) : List UInt8 :=
  if useMac then frame.take 6 else (frame.drop 16).take 4

/-- A frame between two addresses with a packet in it. -/
inductive Bears (source destination packet : List UInt8) : Bool → List UInt8 → Prop
  | mac (proto : UInt16) (filler : List UInt8) (sourced : source.length = 6)
      (aimed : destination.length = 6) (filled : filler.length = if proto = sdnType then 8 else 0) :
      Bears source destination packet true
        (destination ++ (source ++ (htons proto.toNat ++ (filler ++ packet))))
  | ip (start rest : List UInt8) (sourced : source.length = 4) (aimed : destination.length = 4)
      (started : start.length = 12) (rested : rest.length = 8) :
      Bears source destination packet false
        (start ++ (source ++ (destination ++ (rest ++ packet))))

/-- In MAC mode, entries have one of the two Ethernet types. -/
def Typed (fw : Forwarder) : Prop :=
  fw.useMac = true → ∀ fe ∈ fw.fwTable, fe.protoType = baType ∨ fe.protoType = sdnType

theorem protoAt_htons (proto : UInt16) (rest : List UInt8) :
    protoAt 0 (htons proto.toNat ++ rest) = proto := by
  have hb := proto.toNat_lt
  apply UInt16.toNat_inj.mp
  simp only [protoAt, htons, drop_zero, cons_append, nil_append,
    UInt16.toNat_ofNat', UInt8.toNat_ofNat']
  omega

theorem protoAt_append {before : List UInt8} {off : Nat} (len : before.length = off)
    (p : List UInt8) : protoAt off (before ++ p) = protoAt 0 p := by
  unfold protoAt
  rw [drop_left' len, drop_zero]

theorem fidAt_fidBytes (fid : Bitvector) (payload : List UInt8) :
    fidAt 0 (fidBytes fid ++ payload) = fid := by
  unfold fidAt fidBytes
  rw [drop_zero, take_left' (LittleEndian.length_encode 32 _),
    LittleEndian.decode_encode, mod_eq_of_lt (show fid.toNat < 256 ^ 32 from fid.isLt),
    BitVec.ofNat_toNat, BitVec.setWidth_eq]

variable {useMac : Bool}

section

variable {fw : Forwarder} {source destination packet frame : List UInt8}

theorem protoAt_mac (proto : UInt16) (rest : List UInt8) (hs : source.length = 6)
    (aimed : destination.length = 6) :
    protoAt 12 (destination ++ (source ++ (htons proto.toNat ++ rest))) = proto := by
  have len : (destination ++ source).length = 12 := by rw [length_append, hs, aimed]
  rw [← append_assoc, protoAt_append len, protoAt_htons]

theorem Bears.drop (hb : Bears source destination packet fw.useMac frame) :
    frame.drop (fidOffset fw frame) = packet := by
  generalize mode : fw.useMac = useMac at hb
  cases hb with
  | mac proto filler sourced aimed filled =>
    rw [fidOffset, mode, protoAt_mac proto (filler ++ packet) sourced aimed]
    have len : (destination ++ (source ++ (htons proto.toNat ++ filler))).length =
        14 + filler.length := by
      simp only [length_append, sourced, aimed, htons, length_cons, length_nil]
      omega
    have assoc : destination ++ (source ++ (htons proto.toNat ++ (filler ++ packet))) =
        (destination ++ (source ++ (htons proto.toNat ++ filler))) ++ packet := by
      simp
    rw [assoc]
    apply drop_left'
    rw [len, filled]
    split <;> rfl
  | ip start rest sourced aimed started rested =>
    rw [fidOffset, mode]
    have assoc : start ++ (source ++ (destination ++ (rest ++ packet))) =
        (start ++ (source ++ (destination ++ rest))) ++ packet := by
      simp
    rw [assoc]
    apply drop_left'
    simp only [length_append, sourced, aimed, started, rested]
    rfl

theorem Bears.fid (hb : Bears source destination packet fw.useMac frame) :
    fidAt (fidOffset fw frame) frame = fidAt 0 packet := by
  rw [fidAt, hb.drop]
  rfl

theorem Bears.destinationOf (hb : Bears source destination packet useMac frame) :
    destinationOf useMac frame = destination := by
  cases hb with
  | mac _ _ _ aimed => exact take_left' aimed
  | ip start _ hs aimed starts =>
    have len : (start ++ source).length = 16 := by rw [length_append, starts, hs]
    rw [destinationOf, ← append_assoc, if_neg (by simp), drop_left' len, take_left' aimed]

/-- A frame is not sent to an entry that shares none of its addresses. -/
theorem Bears.not_loops (hb : Bears source destination packet fw.useMac frame)
    {fe : ForwardingEntry} (back : source ≠ fe.destination fw.useMac)
    (same : source ≠ fe.source fw.useMac) (ht : destination ≠ fe.destination fw.useMac) :
    loops fw frame fe = false := by
  generalize mode : fw.useMac = useMac at hb back same ht
  cases hb with
  | mac _ _ sourced aimed =>
    simp only [ForwardingEntry.source, ForwardingEntry.destination, if_true] at back same ht
    simp [loops, mode, drop_left' aimed, take_left' aimed, take_left' sourced, back, same, ht]
  | ip _ _ sourced _ started =>
    simp only [ForwardingEntry.destination, Bool.false_eq_true, if_false] at back
    simp [loops, mode, drop_left' started, take_left' sourced, back]

variable (sums : Checksums) (fe : ForwardingEntry)

/-- The headers of IP and UDP, with the checksums after `start` and `udp`. -/
theorem bears_headers {start udp : List UInt8} (sum last : Vector UInt8 2)
    (hs : start.length = 10) (ported : udp.length = 6) :
    Bears fe.srcIp.toList fe.dstIp.toList packet false
      (start ++ sum.toList ++ (fe.srcIp.toList ++ fe.dstIp.toList) ++ udp ++ last.toList ++
        packet) := by
  have framed :=
    @Bears.ip fe.srcIp.toList fe.dstIp.toList packet (start ++ sum.toList) (udp ++ last.toList)
    fe.srcIp.length_toList fe.dstIp.length_toList (by rw [length_append, hs, Vector.length_toList])
    (by rw [length_append, ported, Vector.length_toList])
  simpa using framed

theorem Bears.readdress (hb : Bears source destination packet fw.useMac frame) :
    Bears (fe.source fw.useMac) (fe.destination fw.useMac) packet fw.useMac
      (readdress fw sums frame fe) := by
  have behind := hb.drop
  generalize mode : fw.useMac = useMac at hb
  have aimed : fe.dst.toList.length = 6 := fe.dst.length_toList
  have hs : fe.src.toList.length = 6 := fe.src.length_toList
  cases hb with
  | mac proto filler fromFrame toFrame filled =>
    have proaimed := protoAt_mac proto (filler ++ packet) fromFrame toFrame
    rw [fidOffset, mode, if_pos rfl, proaimed] at behind
    simp only [readdress, mode, if_true, proaimed, ForwardingEntry.source,
      ForwardingEntry.destination, macHeader, append_assoc]
    split
    · rename_i hc
      rw [if_neg (by rw [hc.1]; decide)] at behind
      rw [behind]
      refine .mac fe.protoType _ hs aimed ?_
      rw [hc.2]
      simp [sdnHeader]
    · split
      · rename_i hc
        rw [if_pos hc.1] at behind
        rw [behind]
        refine .mac fe.protoType [] hs aimed ?_
        rw [hc.2]
        rfl
      · have len : (destination ++ source).length = 12 := by
          rw [length_append, fromFrame, toFrame]
        rw [← append_assoc destination, drop_left' len]
        exact .mac proto filler hs aimed filled
  | ip start rest fromFrame toFrame started rested =>
    rw [fidOffset, mode, if_neg (by simp)] at behind
    -- the first bytes and the ports and length of UDP come from the frame
    have kept : 28 ≤ (start ++ (source ++ (destination ++ (rest ++ packet)))).length := by
      simp only [length_append, started, rested, fromFrame, toFrame]
      omega
    generalize start ++ (source ++ (destination ++ (rest ++ packet))) = frame at behind kept ⊢
    simp only [readdress, mode, Bool.false_eq_true, if_false, behind,
      ForwardingEntry.source, ForwardingEntry.destination]
    apply bears_headers
    · simp only [length_append, length_take, length_drop, length_cons, length_nil]
      omega
    · rw [length_take, length_drop]
      omega

theorem bears_encapsulate (typed : Typed fw) (hm : fe ∈ fw.fwTable) (id : UInt32) :
    ∃ frame, encapsulate fw sums id packet fe = some frame ∧
      Bears (fe.source fw.useMac) (fe.destination fw.useMac) packet fw.useMac frame := by
  unfold encapsulate
  cases mode : fw.useMac with
  | true =>
    have aimed : fe.dst.toList.length = 6 := fe.dst.length_toList
    have hs : fe.src.toList.length = 6 := fe.src.length_toList
    simp only [if_true, macHeader, append_assoc]
    rcases typed mode fe hm with plain | sdn
    · refine ⟨_, if_pos plain, .mac fe.protoType [] hs aimed ?_⟩
      rw [plain]
      rfl
    · rw [if_neg (by rw [sdn]; decide), if_pos sdn]
      refine ⟨_, rfl, .mac fe.protoType _ hs aimed ?_⟩
      rw [sdn]
      simp [sdnHeader]
  | false =>
    refine ⟨_, if_neg (by simp), ?_⟩
    exact bears_headers fe _ _ rfl rfl

end

variable {frame : List UInt8}

section

variable {fw : Forwarder} {packet : List UInt8} (sums : Checksums) (id : UInt32)

/-- What is pushed for an entry: a frame between its addresses, on its port. -/
def IsCopy (useMac : Bool) (packet : List UInt8) (fe : ForwardingEntry) (sent : Sent) : Prop :=
  sent.port = fe.port ∧
    Bears (fe.source useMac) (fe.destination useMac) packet useMac sent.bytes

variable {α β : Type}

theorem forall₂_filterMap_zipIdx {related : α → β → Prop} {f : α × Nat → Option β}
    {members : List α} (each : ∀ a ∈ members, ∀ n, ∃ b, f (a, n) = some b ∧ related a b) (n : Nat) :
    List.Forall₂ related members ((members.zipIdx n).filterMap f) := by
  induction members generalizing n with
  | nil => exact .nil
  | cons a rest ih =>
    obtain ⟨b, made, hh⟩ := each a mem_cons_self n
    rw [zipIdx_cons, filterMap_cons_some made]
    exact .cons hh (ih (fun a hm => each a (mem_cons_of_mem _ hm)) (n + 1))

theorem exists_of_forall₂ {related : α → β → Prop} {as : List α} {bs : List β}
    (pairs : List.Forall₂ related as bs) {a : α} (hm : a ∈ as) : ∃ b ∈ bs, related a b := by
  induction pairs with
  | nil => cases hm
  | cons hh _ ih =>
    rcases mem_cons.mp hm with rfl | later
    · exact ⟨_, mem_cons_self, hh⟩
    · obtain ⟨b, hi, hh⟩ := ih later
      exact ⟨b, mem_cons_of_mem _ hi, hh⟩

theorem pushFromProxy_copies (typed : Typed fw) :
    List.Forall₂ (IsCopy fw.useMac packet) (matching fw (fidAt 0 packet))
      (pushFromProxy fw sums id packet).outputs := by
  apply forall₂_filterMap_zipIdx
  intro fe hm n
  obtain ⟨frame, made, hb⟩ := bears_encapsulate sums fe typed (mem_filter.mp hm).1
    (id + UInt32.ofNat n)
  exact ⟨_, map_eq_some_iff.mpr ⟨frame, made, rfl⟩, rfl, hb⟩

/-- One copy for each entry that matches and is not suppressed, and the packet to the proxy when the
internal identifier matches. -/
theorem pushFromNetwork_copies {source dest : List UInt8}
    (hb : Bears source dest packet fw.useMac frame) :
    ∃ copies, List.Forall₂ (IsCopy fw.useMac packet) (outLinks fw frame) copies ∧
      (pushFromNetwork fw sums id frame).outputs = copies ++
        if Covers (fidAt 0 packet) fw.iLID then [⟨0, packet, true⟩] else [] := by
  refine ⟨_, ?_, congrArg₂ _ rfl ?_⟩
  · rw [← filterMap_eq_map]
    apply forall₂_filterMap_zipIdx
    intro fe hm n
    exact ⟨_, rfl, rfl, hb.readdress sums fe⟩
  · rw [hb.drop, pushLocally, hb.fid]
    simp

end

/-- The forwarders of all nodes. An address belongs to one of them. -/
structure Network where
  forwarder : Vertex → Forwarder
  owner : List UInt8 → Option Vertex
  sums : Checksums

/-- Forwarders in one mode, with the internal identifiers and an entry for each link. -/
structure Network.Deploys (net : Network) (useMac : Bool) (g : Graph) : Prop where
  mode : ∀ u, (net.forwarder u).useMac = useMac
  typed : ∀ u, Typed (net.forwarder u)
  internal : ∀ u, (net.forwarder u).iLID = g.ilid u
  entries : ∀ link ∈ g.edges, ∀ lid, Link.bits link = some lid →
    ∃ fe ∈ (net.forwarder link.ends.1).fwTable, fe.lid = lid ∧ fe.port ≠ 0 ∧
      net.owner (fe.source useMac) = some link.ends.1 ∧
      net.owner (fe.destination useMac) = some link.ends.2

/-- The frames that a packet leads to, each at the node with the address it is sent to. -/
inductive Network.Arrives (net : Network) (id : UInt32) (start : Vertex) (packet : List UInt8) :
    Vertex → List UInt8 → Prop
  | first {v : Vertex} {sent : Sent}
      (pushed : sent ∈ (push (net.forwarder start) net.sums id 0 packet).outputs)
      (outside : sent.port ≠ 0)
      (owned : net.owner (destinationOf (net.forwarder start).useMac sent.bytes) = some v) :
      Arrives net id start packet v sent.bytes
  | next {u v : Vertex} {frame : List UInt8} {sent : Sent} {ipID : UInt32} {inPort : Nat}
      (arrived : Arrives net id start packet u frame) (network : inPort ≠ 0)
      (pushed : sent ∈ (push (net.forwarder u) net.sums ipID inPort frame).outputs)
      (outside : sent.port ≠ 0)
      (owned : net.owner (destinationOf (net.forwarder u).useMac sent.bytes) = some v) :
      Arrives net id start packet v sent.bytes

/-- A frame arrives from which the forwarder hands the packet to the proxy. -/
def Network.Delivers (net : Network) (id : UInt32) (start finish : Vertex) (packet : List UInt8) :
    Prop :=
  ∃ frame, net.Arrives id start packet finish frame ∧ ∀ ipID inPort, inPort ≠ 0 →
    ∃ sent ∈ (push (net.forwarder finish) net.sums ipID inPort frame).outputs,
      sent.port = 0 ∧ sent.bytes = packet

section

variable {net : Network} {useMac : Bool} {g : Graph} {id : UInt32} {start u v w : Vertex}
  {packet : List UInt8} {lid fid : Bitvector}

/-- A frame with the packet has come to `v` from `u`. -/
def Network.Reached (net : Network) (useMac : Bool) (id : UInt32) (start : Vertex)
    (packet : List UInt8) (u v : Vertex) : Prop :=
  ∃ source destination frame, net.Arrives id start packet v frame ∧
    Bears source destination packet useMac frame ∧ net.owner source = some u ∧
    net.owner destination = some v

variable (deploys : net.Deploys useMac g)

include deploys

theorem Network.Deploys.first {link : Link} (hm : link ∈ g.edges)
    (ends : link.ends = (start, v)) (bits : Link.bits link = some lid)
    (hc : Covers (fidAt 0 packet) lid) : net.Reached useMac id start packet start v := by
  obtain ⟨fe, programmed, rfl, out, ho, ho'⟩ := deploys.entries link hm lid bits
  rw [ends] at programmed ho ho'
  have matched : fe ∈ matching (net.forwarder start) (fidAt 0 packet) :=
    mem_filter.mpr ⟨programmed, decide_eq_true hc⟩
  obtain ⟨sent, hp, port, hb⟩ :=
    exists_of_forall₂ (pushFromProxy_copies net.sums id (deploys.typed start)) matched
  rw [deploys.mode] at hb
  refine ⟨_, _, sent.bytes, .first hp (port ▸ out) ?_, hb, ho, ho'⟩
  rw [deploys.mode, hb.destinationOf, ho']

theorem Network.Deploys.next (reached : net.Reached useMac id start packet u v) {link : Link}
    (hm : link ∈ g.edges) (ends : link.ends = (v, w)) (bits : Link.bits link = some lid)
    (hc : Covers (fidAt 0 packet) lid) (hr : fidAt 0 packet ≠ BitVec.allOnes 256)
    (back : u ≠ w) (same : u ≠ v) (ht : v ≠ w) : net.Reached useMac id start packet v w := by
  obtain ⟨fe, programmed, rfl, out, ho, ho'⟩ := deploys.entries link hm lid bits
  obtain ⟨source, dest, frame, ha, hb, sender, receiver⟩ := reached
  rw [ends] at programmed ho ho'
  have mode := deploys.mode v
  rw [← mode] at hb ho ho'
  have differ : ∀ {a b : List UInt8} {x y : Vertex}, net.owner a = some x → net.owner b = some y →
      x ≠ y → a ≠ b := by
    rintro a b x y ownedA ownedB hd rfl
    exact hd (some.inj (ownedA.symm.trans ownedB))
  have kept : loops (net.forwarder v) frame fe = false :=
    hb.not_loops (differ sender ho' back) (differ sender ho same) (differ receiver ho' ht)
  have matched : fe ∈ outLinks (net.forwarder v) frame := by
    rw [outLinks, hb.fid, if_neg hr, mem_filter, matching, mem_filter, kept]
    exact ⟨⟨programmed, decide_eq_true hc⟩, rfl⟩
  obtain ⟨copies, each, outputs⟩ := pushFromNetwork_copies net.sums 0 hb
  obtain ⟨sent, hp, port, copy⟩ := exists_of_forall₂ each matched
  have made : sent ∈ (push (net.forwarder v) net.sums 0 1 frame).outputs := by
    rw [push, if_neg one_ne_zero, outputs]
    exact mem_append_left _ hp
  refine ⟨_, _, sent.bytes, .next ha one_ne_zero made (port ▸ out) ?_, mode ▸ copy, ho, ho'⟩
  rw [copy.destinationOf, ho']

/-- Along a path without loops, the packet comes to the last vertex. -/
theorem Network.Deploys.along {path : List Vertex} (hc : Carries g path fid)
    (walk : IsWalk (Linked g.adjacency) v w path) (hs : (u :: path).Nodup)
    (covers : Covers (fidAt 0 packet) fid) (hr : fidAt 0 packet ≠ BitVec.allOnes 256 ∨ v = w)
    (reached : net.Reached useMac id start packet u v) :
    ∃ last, net.Reached useMac id start packet last w := by
  induction hc generalizing u v with
  | single x =>
    obtain ⟨rfl, rfl⟩ := isWalk_singleton_iff.mp walk
    exact ⟨u, reached⟩
  | @step x y rest lid fid link hm ends bits _ ih =>
    obtain ⟨rfl, -, later⟩ := isWalk_cons_cons.mp walk
    have hd : x ≠ w := by
      rintro rfl
      have last : x ∈ y :: rest := mem_of_getLast? later.last
      exact (nodup_cons.mp (nodup_cons.mp hs).2).1 last
    have free := hr.resolve_right hd
    simp only [nodup_cons, mem_cons, not_or] at hs
    have hop := deploys.next reached hm ends bits
      (covers.trans (covers_or_left lid fid)) free hs.1.2.1 hs.1.1 hs.2.1.1
    refine ih later ?_ (covers.trans (covers_or_right lid fid)) (.inl free) hop
    simp only [nodup_cons, mem_cons, not_or]
    exact hs.2

theorem Network.Deploys.delivers (hc : Covers (fidAt 0 packet) (g.ilid w))
    (hr : net.Reached useMac id start packet u w) : net.Delivers id start w packet := by
  obtain ⟨source, dest, frame, ha, hb, -, -⟩ := hr
  refine ⟨frame, ha, fun ipID inPort network => ?_⟩
  rw [← deploys.mode w] at hb
  obtain ⟨copies, -, outputs⟩ := pushFromNetwork_copies net.sums ipID hb
  rw [deploys.internal, if_pos hc] at outputs
  refine ⟨⟨0, packet, true⟩, ?_, rfl, rfl⟩
  rw [push, if_neg network, outputs]
  exact mem_append_right _ (mem_singleton_self _)

/-- The FID of a path without loops takes a packet along it. The FID of all ones goes one hop. -/
theorem Network.Deploys.path {path : List Vertex} (walk : IsWalk (Linked g.adjacency) v w path)
    (hs : path.Nodup) (hd : v ≠ w) {bits : Bitvector} (hc : Carries g path bits)
    (covers : Covers (fidAt 0 packet) (bits ||| g.ilid w))
    (hr : fidAt 0 packet ≠ BitVec.allOnes 256 ∨ path.length ≤ 2) : net.Delivers id v w packet := by
  have internal := covers.trans (covers_or_right bits (g.ilid w))
  have links := covers.trans (covers_or_left bits (g.ilid w))
  cases hc with
  | single x =>
    obtain ⟨rfl, rfl⟩ := isWalk_singleton_iff.mp walk
    exact absurd rfl hd
  | @step x y rest lid later link hm ends has hc =>
    obtain ⟨rfl, -, onward⟩ := isWalk_cons_cons.mp walk
    have first : net.Reached useMac id x packet x y := deploys.first hm ends has
      (links.trans (covers_or_left lid later))
    have last : fidAt 0 packet ≠ BitVec.allOnes 256 ∨ y = w := by
      refine hr.imp_right fun short => ?_
      have he : rest = [] := by
        rw [length_cons, length_cons] at short
        exact length_eq_zero_iff.mp (by omega)
      rw [he] at onward
      exact (isWalk_singleton_iff.mp onward).2
    obtain ⟨u, reached⟩ := deploys.along hc onward hs
      (links.trans (covers_or_right lid later)) last first
    exact deploys.delivers internal reached

end

variable {net : Network} {id : UInt32}

section

variable [ShortestPaths Vertex] {t : TMIgraph} {p s : Node} {v w : Vertex}

omit [ShortestPaths Vertex] in
/-- The FID of a shortest path delivers to another node, over one hop or unless it is all ones. -/
theorem delivers_of_shortest (ready : t.Ready) (deploys : net.Deploys useMac t.graph)
    (joins : t.Joins p s v w) (hd : p ≠ s) {fid : Bitvector} (route : t.shortest.fid p s fid)
    (hr : fid ≠ BitVec.allOnes 256 ∨ Linked t.graph.adjacency v w) {payload : List UInt8} :
    net.Delivers id v w (fidBytes fid ++ payload) := by
  obtain ⟨v', w', path, bits, others, hs, hc, rfl⟩ := route
  obtain ⟨rfl, rfl⟩ := joins.unique others
  apply deploys.path hs.toIsWalk hs.nodup ?_ hc
  · rw [fidAt_fidBytes]
    exact covers_self _
  · rw [fidAt_fidBytes]
    refine hr.imp_right fun hl => ?_
    exact hs.minimal [v', w'] (isWalk_cons_cons.mpr ⟨rfl, hl, isWalk_singleton _ _⟩)
  · rintro rfl
    obtain ⟨attributes, place, name, -⟩ := ready.names.vertex p v' joins.1
    obtain ⟨others, place', name', -⟩ := ready.names.vertex s v' joins.2
    cases place.symm.trans place'
    exact hd (name.symm.trans name')

/-- A calculated FID delivers to every other node that can be reached, over one hop or unless it is
all ones, and no forwarder sends anything but a copy for each entry that matches. -/
theorem calculated_fid_delivers (t : TMIgraph) (ready : t.Ready) (net : Network) (useMac : Bool)
    (deploys : net.Deploys useMac t.graph) :
    (∀ (p s : Node) (v w : Vertex) (payload : List UInt8) (id : UInt32), t.Joins p s v w → p ≠ s →
      t.graph.Reaches v w → ∃ fid m, t.calculateFID p s = .ok fid ∧
        t.calculateFIDHops p s 0 = .ok m ∧ ∀ computed ∈ [fid, m.resultFID],
          computed ≠ BitVec.allOnes 256 ∨ Linked t.graph.adjacency v w →
            net.Delivers id v w (fidBytes computed ++ payload)) ∧
    (∀ (u : Vertex) (id : UInt32) (packet : List UInt8),
      List.Forall₂ (IsCopy useMac packet) (matching (net.forwarder u) (fidAt 0 packet))
        (push (net.forwarder u) net.sums id 0 packet).outputs) ∧
    (∀ (u : Vertex) (id : UInt32) (inPort : Nat) (packet source destination frame : List UInt8),
      inPort ≠ 0 → Bears source destination packet useMac frame →
        ∃ copies, List.Forall₂ (IsCopy useMac packet) (outLinks (net.forwarder u) frame) copies ∧
          (push (net.forwarder u) net.sums id inPort frame).outputs = copies ++
            if Masks.Covers (fidAt 0 packet) (t.graph.ilid u) then
              [⟨0, packet, true⟩] else []) := by
  refine ⟨?_, ?_, ?_⟩
  · intro p s v w payload id joins hd reaches
    obtain ⟨m, measured, routes⟩ := ready.hops joins
    obtain ⟨path, bits, hs, -, hc, val, returns, -⟩ :=
      routes.resolve_left fun unreachable => unreachable.2 reaches
    refine ⟨m.resultFID, m, returns, measured, fun computed hm hr => ?_⟩
    have same : computed = m.resultFID := by simpa using hm
    rw [same] at hr ⊢
    exact delivers_of_shortest ready deploys joins hd ⟨v, w, path, bits, joins, hs, hc, val⟩ hr
  · intro u id packet
    rw [← deploys.mode u]
    exact pushFromProxy_copies net.sums id (deploys.typed u)
  · intro u id inPort packet source destination frame network hb
    rw [← deploys.mode u] at hb
    have hp := pushFromNetwork_copies net.sums id hb
    rw [push, if_neg network]
    rwa [deploys.mode u, deploys.internal u] at hp

end

/-- The Ethernet address of a vertex's interface. -/
def address (v : Vertex) : EtherAddress := #v[UInt8.ofNat v, 0, 0, 0, 0, 0]

def entryOf (link : Link) : Option ForwardingEntry :=
  (Link.bits link).map fun lid =>
    ⟨address link.ends.1, address link.ends.2, .replicate 4 0, .replicate 4 0, 1, lid, baType⟩

/-- A network with one interface for each vertex. -/
def plainNetwork (g : Graph) : Network where
  forwarder u := ⟨true, g.ilid u, (g.edges.filter (·.ends.1 = u)).filterMap entryOf⟩
  owner bytes := bytes.head?.map UInt8.toNat
  sums := ⟨fun _ => .replicate 2 0, fun _ _ => .replicate 2 0⟩

variable {v : Vertex}

theorem owner_address (hs : v < 256) (g : Graph) :
    (plainNetwork g).owner (address v).toList = some v := by
  change some (UInt8.ofNat v).toNat = some v
  rw [UInt8.toNat_ofNat', mod_eq_of_lt hs]

variable {g : Graph}

theorem plainNetwork_deploys (hs : ∀ link ∈ g.edges, link.ends.1 < 256 ∧ link.ends.2 < 256) :
    (plainNetwork g).Deploys true g where
  mode _ := rfl
  typed u _ fe hm := by
    obtain ⟨link, -, made⟩ := mem_filterMap.mp hm
    obtain ⟨lid, -, rfl⟩ := map_eq_some_iff.mp made
    exact .inl rfl
  internal _ := rfl
  entries link hm lid bits := by
    obtain ⟨near, far⟩ := hs link hm
    refine ⟨_, mem_filterMap.mpr ⟨link, ?_, map_eq_some_iff.mpr ⟨lid, bits, rfl⟩⟩, rfl,
      one_ne_zero, owner_address near g, owner_address far g⟩
    exact mem_filter.mpr ⟨hm, decide_eq_true rfl⟩

def row (first : LidText) : Graph where
  vertices := [⟨nodeName 49, lidText 0⟩, ⟨nodeName 50, lidText 1⟩, ⟨nodeName 51, lidText 2⟩]
  edges := [⟨(0, 1), some first⟩, ⟨(1, 2), some (lidText 4)⟩]

def rowStart (first : LidText) : TMIgraph := readTopology (row first) (nodeName 49) (nodeName 49)

theorem rowStart_ready (first : LidText) : (rowStart first).Ready := by
  apply TMIgraph.ready_readTopology
  · intro link hm
    rcases mem_pair.mp hm with rfl | rfl
    · exact ⟨_, rfl⟩
    · exact ⟨_, rfl⟩
  · intro link hm
    rcases mem_pair.mp hm with rfl | rfl
    · exact one_lt_ofNat
    · exact lt_succ_self 2

theorem row_deploys (first : LidText) :
    (plainNetwork (row first)).Deploys true (rowStart first).graph := by
  apply plainNetwork_deploys
  intro link hm
  rcases mem_pair.mp hm with rfl | rfl
  · exact ⟨zero_lt_succ 255, one_lt_ofNat⟩
  · exact ⟨one_lt_ofNat, by decide⟩

theorem row_joins (first : LidText) : (rowStart first).Joins (nodeName 49) (nodeName 51) 0 2 := by
  have idx : [nodeName 49, nodeName 51].map
      (fun node => (rowStart (lidText 3)).reverseNodeIndex[node]?) = [some 0, some 2] := by
    decide +kernel
  simp only [map_cons, map_nil, List.cons.injEq, and_true] at idx
  exact idx

theorem row_reaches (first : LidText) : (rowStart first).graph.Reaches 0 2 :=
  .tail (.single mem_cons_self) (mem_cons_of_mem _ mem_cons_self)

theorem calculated_fid_delivers_row : let _ : ShortestPaths Vertex := breadthFirst
    ∃ fid, (rowStart (lidText 3)).calculateFID (nodeName 49) (nodeName 51) = .ok fid ∧
      fid ≠ BitVec.allOnes 256 ∧
      (plainNetwork (row (lidText 3))).Delivers 0 0 2 (fidBytes fid ++ [1, 2, 3]) := by
  intro _
  obtain ⟨delivers, -⟩ := calculated_fid_delivers (rowStart (lidText 3)) (rowStart_ready _) _ true
    (row_deploys (lidText 3))
  obtain ⟨fid, m, returns, -, each⟩ := delivers (nodeName 49) (nodeName 51) 0 2 [1, 2, 3] 0
    (row_joins _) (by decide) (row_reaches _)
  have val : (rowStart (lidText 3)).calculateFID (nodeName 49) (nodeName 51) =
      .ok (BitVec.ofNat 256 0b11100) := by
    rw [TMIgraph.calculateFID_eq_calculateValue]
    decide +kernel
  have hk : fid = BitVec.ofNat 256 0b11100 := Except.ok.inj (returns.symm.trans val)
  have hr : fid ≠ BitVec.allOnes 256 := by
    rw [hk]
    decide
  exact ⟨fid, returns, hr, each fid mem_cons_self (.inl hr)⟩

theorem Network.Arrives.allOnes {start : Vertex} {pkt : List UInt8}
    (deploys : net.Deploys useMac g) (ha : net.Arrives id start pkt v frame)
    (broadcast : fidAt 0 pkt = BitVec.allOnes 256) :
    ∃ fe ∈ (net.forwarder start).fwTable, net.owner (fe.destination useMac) = some v ∧
      Bears (fe.source useMac) (fe.destination useMac) pkt useMac frame := by
  induction ha with
  | @first _ _ hp _ owned =>
    obtain ⟨fe, hm, port, hb⟩ := exists_of_forall₂
      (pushFromProxy_copies net.sums id (deploys.typed start)).flip hp
    rw [deploys.mode] at hb owned
    rw [hb.destinationOf] at owned
    exact ⟨fe, (mem_filter.mp hm).1, owned, hb⟩
  | @next u _ frame sent ipID _ _ network hp outside _ ih =>
    obtain ⟨fe, -, -, hb⟩ := ih
    rw [← deploys.mode u] at hb
    obtain ⟨copies, each, outputs⟩ := pushFromNetwork_copies net.sums ipID hb
    have none : outLinks (net.forwarder u) frame = [] := by
      rw [outLinks, hb.fid, if_pos broadcast]
    rw [none, forall₂_nil_left_iff] at each
    rw [push, if_neg network, outputs, each, nil_append] at hp
    have home : sent = ⟨0, pkt, true⟩ := by
      split at hp
      · exact mem_singleton.mp hp
      · cases hp
    rw [home] at outside
    exact absurd rfl outside

/-- With a link identifier of all ones, the packet stops at the first node of the path. -/
theorem all_ones_stops_after_one_hop : let _ : ShortestPaths Vertex := breadthFirst
    ∃ (t : TMIgraph) (net : Network) (fid : Bitvector), t.Ready ∧ net.Deploys true t.graph ∧
      t.Joins (nodeName 49) (nodeName 51) 0 2 ∧ t.graph.Reaches 0 2 ∧
      (t.graph.edges.all fun link => Link.bits link ≠ some 0) ∧
      ([0, 1, 2].all fun u => t.graph.ilid u ≠ 0) ∧
      t.calculateFID (nodeName 49) (nodeName 51) = .ok fid ∧
      ∀ id payload, ¬ net.Delivers id 0 2 (fidBytes fid ++ payload) := by
  intro _
  let ones : LidText := Vector.replicate 256 true
  refine ⟨rowStart ones, plainNetwork (row ones), BitVec.allOnes 256, rowStart_ready ones,
    row_deploys ones, row_joins ones, row_reaches ones, ?_, ?_, ?_, ?_⟩
  · rw [TMIgraph.bits_eq_value]
    decide +kernel
  · simp only [Graph.ilid, ofText_eq_value]
    decide +kernel
  · rw [TMIgraph.calculateFID_eq_calculateValue]
    decide +kernel
  · rintro id payload ⟨frame, ha, -⟩
    obtain ⟨fe, hm, ho, -⟩ := ha.allOnes (row_deploys ones) (fidAt_fidBytes _ _)
    obtain ⟨link, hi, made⟩ := mem_filterMap.mp hm
    obtain ⟨lid, -, rfl⟩ := map_eq_some_iff.mp made
    simp only [row, mem_filter, mem_cons, not_mem_nil, or_false] at hi
    obtain ⟨rfl | rfl, start⟩ := hi
    · cases ho
    · cases start

open TMIgraph
open Std (TreeSet)

section

variable {net : Network} {useMac : Bool} {g : Graph} {v w : Vertex} {fid bits : Bitvector}

/-- A link that a FID covers. -/
def Hop (g : Graph) (fid : Bitvector) (u v : Vertex) : Prop :=
  ∃ link ∈ g.edges, link.ends = (u, v) ∧ ∃ lid, Link.bits link = some lid ∧ Covers fid lid

theorem hops_of_pathFid (path : PathFid g w v bits) (hc : Covers fid bits) :
    Relation.ReflTransGen (Hop g fid) v w := by
  induction path with
  | here => exact .refl
  | step link hm ends has _ ih =>
    obtain ⟨first, rest⟩ := covers_or_iff.mp hc
    exact .head ⟨link, hm, ends, _, has, first⟩ (ih rest)

theorem exists_carries {path : List Vertex} (chain : path.IsChain (Hop g fid)) (hf : path ≠ []) :
    ∃ bits, Carries g path bits ∧ Covers fid bits := by
  induction chain with
  | nil => exact absurd rfl hf
  | singleton u => exact ⟨0, .single u, BitVec.and_zero⟩
  | cons_cons hop _ ih =>
    obtain ⟨link, hm, ends, lid, has, first⟩ := hop
    obtain ⟨bits, hc, rest⟩ := ih (cons_ne_nil _ _)
    exact ⟨_, .step link hm ends has hc, covers_or_iff.mpr ⟨first, rest⟩⟩

/-- Packets under a FID come from one node to another, unless it is all ones. -/
def Network.Leads (net : Network) (v w : Vertex) (fid : Bitvector) : Prop :=
  v ≠ w → fid ≠ BitVec.allOnes 256 → ∀ id payload, net.Delivers id v w (fidBytes fid ++ payload)

/-- Among the links of a walk are those of a path without loops. -/
theorem Network.Deploys.leads (deploys : net.Deploys useMac g) (path : PathFid g w v bits)
    (covers : Covers fid (bits ||| g.ilid w)) : net.Leads v w fid := by
  intro hd hr id payload
  rw [← fidAt_fidBytes fid payload] at covers hr
  obtain ⟨links, internal⟩ := covers_or_iff.mp covers
  obtain ⟨walk, hs⟩ := exists_isShortest (hops_of_pathFid path links)
  obtain ⟨own, hc, covered⟩ := exists_carries hs.chain hs.ne_nil
  refine deploys.path ⟨hs.head, hs.last, hs.chain.imp ?_⟩ hs.nodup hd hc
    (covers_or_iff.mpr ⟨covered, internal⟩) (.inl hr)
  rintro u v ⟨link, hm, ends, -⟩
  exact mem_map.mpr ⟨link, hm, ends⟩

variable [ShortestPaths Vertex] {t start : TMIgraph} {told : Told}

/-- After notifications that give no node its first way back, packets come from the topology manager
to the nodes, and from these to the rendezvous and the topology manager, wherever there is a way. -/
theorem told_fids_deliver {nodeID rvNodeID node : Node} (unique : g.adjacency.Nodup)
    (marked : ∀ attributes ∈ g.vertices, ofText attributes.iLID ≠ 0)
    (begins : calculateRVTMFIDs (readTopology g nodeID rvNodeID) = .ok ((), start))
    (run : TimelyRun start t told) (deploys : net.Deploys useMac t.graph) {manager : Vertex}
    (joins : t.Joins t.nodeID node manager v) (reaches : t.graph.Reaches manager v) :
    (∃ fid, t.tmToNodeFID[node]? = some fid ∧ net.Leads manager v fid) ∧
      ∀ (target : Target) (w : Vertex), t.reverseNodeIndex[target.node t]? = some w →
        t.graph.Reaches v w → ∃ fid, told target node = some fid ∧ net.Leads v w fid := by
  obtain ⟨home, hk⟩ := joins
  constructor
  · obtain ⟨fid, hf, routes⟩ :=
      (run.run.routed unique begins marked).1.routes node manager v home hk
    obtain ⟨bits, path, rfl⟩ := routes.path reaches
    exact ⟨_, hf, deploys.leads path (covers_self _)⟩
  · intro target w goal back
    obtain ⟨fid, hh, routes⟩ :=
      run.returns unique begins marked node manager v home hk reaches target w goal
    obtain ⟨bits, path, rfl⟩ := routes.path back
    exact ⟨_, congrArg Prod.snd hh, deploys.leads path (covers_self _)⟩

/-- After every run of successful updates: where each subscriber can be reached, it gets the packets
of a nearest publisher. -/
theorem multicast_delivers (simple : g.Simple) {nodeID rvNodeID : Node}
    (run : SuccessfulRun (readTopology g nodeID rvNodeID) t) (resilience : Bool)
    {publishers subscribers : TreeSet Node} (knownP : ∀ p ∈ publishers, p ∈ t.reverseNodeIndex)
    (knownS : ∀ s ∈ subscribers, s ∈ t.reverseNodeIndex)
    (reached : ∀ s ∈ subscribers, ∃ p ∈ publishers, t.shortest.reaches p s)
    (deploys : net.Deploys useMac t.graph) :
    ∃ result paths,
      t.calculateFIDMulticast resilience publishers subscribers = .ok (result, paths) ∧
      ∀ s ∈ subscribers, ∃ p ∈ publishers, t.shortest.nearest publishers p s ∧
        ∃ fid v w, result[p]? = some (some fid) ∧ t.Joins p s v w ∧ net.Leads v w fid := by
  have ready := run.ready simple
  have measures := ready.measures knownP knownS
  obtain ⟨res, paths, hr, -, assign, unreached, served, entries⟩ := measures.covered resilience
    (fun s hm pick hp => ready.nearest knownP knownS hm hp) fun before s after split hu => by
      have hm : s ∈ subscribers := by
        rw [← TreeSet.mem_toList, split]
        exact mem_append_right _ mem_cons_self
      obtain ⟨p, hi, reaches⟩ := reached s hm
      exact absurd reaches ((measures.choice_eq_none hm).mp hu p hi)
  refine ⟨res, paths, hr, fun s hm => ?_⟩
  cases hp : assign s with
  | none =>
    obtain ⟨p, hi, reaches⟩ := reached s hm
    exact absurd reaches ((unreached s hm).mp hp p hi)
  | some pick =>
    obtain ⟨hi, nearest, v, w, path, bits, joins, hs, hc, val⟩ := served s hm pick hp
    have mine : pick.2 ∈ share assign subscribers.toList pick.1 :=
      mem_filterMap.mpr ⟨pick, mem_filterMap.mpr ⟨s, TreeSet.mem_toList.mpr hm, hp⟩, if_pos rfl⟩
    have entry := entries pick.1 hi
    rw [combined, if_neg (ne_nil_of_mem mine)] at entry
    refine ⟨pick.1, hi, nearest, _, v, w, entry, joins, deploys.leads (hc.pathFid hs.toIsWalk) ?_⟩
    rw [← val]
    exact covers_iff.mpr fun i has => getLsbD_union.mpr ⟨pick.2, mine, has⟩

end

theorem told_fids_deliver_oneWay : let _ : ShortestPaths Vertex := breadthFirst
    ∃ start t told fid, TimelyRun start t told ∧ t.tmToNodeFID[nodeName 50]? = some fid ∧
      (plainNetwork t.graph).Leads 0 1 fid := by
  intro _
  obtain ⟨start, t, sent, begins, returns, home, hk, edges⟩ := oneWayLink_fails
  have fewer : t.graph.adjacency ⊆ start.graph.adjacency := by
    rw [edges, (routed_start oneWayLink_unique begins).2.2]
    decide
  have run : TimelyRun start t _ :=
    .next .start (.ofPM returns) fun _ _ _ _ _ _ _ _ _ reaches => reaches.wider fewer
  have deploys : (plainNetwork t.graph).Deploys true t.graph := by
    refine plainNetwork_deploys fun link hm => ?_
    have small : ∀ ends ∈ [(0, 1), (2, 0), (0, 2)], ends.1 < 256 ∧ ends.2 < 256 := by decide
    exact small _ (edges ▸ mem_map_of_mem hm)
  have hl : Linked t.graph.adjacency 0 1 := by
    rw [Linked, edges]
    exact mem_cons_self
  obtain ⟨⟨fid, hf, leads⟩, -⟩ := told_fids_deliver oneWayLink_unique oneWayLink_marked begins run
    deploys ⟨home, hk⟩ (.single hl)
  exact ⟨start, t, _, fid, run, hf, leads⟩

/-- The second link of the row fails and comes back. -/
def secondFails : LinkUpdate := ⟨nodeName 50, nodeName 51, false, true⟩

def secondReturns : LinkUpdate := ⟨nodeName 50, nodeName 51, false, false⟩

theorem row_simple : (row (lidText 3)).Simple where
  inside := by decide
  labelled := (rowStart_ready (lidText 3)).labelled
  unique := by decide

theorem multicast_delivers_row : let _ : ShortestPaths Vertex := breadthFirst
    ∃ t result paths fid, SuccessfulRun (rowStart (lidText 3)) t ∧ t.reports.length = 2 ∧
      t.calculateFIDMulticast false (.ofList [nodeName 49]) (.ofList [nodeName 50, nodeName 51]) =
        .ok (result, paths) ∧ result[nodeName 49]? = some (some fid) ∧
      (plainNetwork t.graph).Leads 0 1 fid ∧ (plainNetwork t.graph).Leads 0 2 fid := by
  intro _
  have ends : Program.outcome (updateGraph (fun _ => true) secondFails >>= fun _ =>
      updateGraph (fun _ => true) secondReturns) (fun t => (t.graph.adjacency, t.reports.length))
        (rowStart (lidText 3)) = .ok ([(0, 1), (1, 2)], 2) := by
    decide +kernel
  obtain ⟨updated, t, returns, seen⟩ := Program.exists_of_outcome ends
  obtain ⟨edges, sent⟩ := Prod.mk.inj seen
  obtain ⟨_, broken, first, second⟩ := Program.bind_eq_ok.mp returns
  have run : SuccessfulRun (rowStart (lidText 3)) t :=
    .call _ secondReturns (.call _ secondFails .start first fun ⟨_, _, refused⟩ => nomatch refused)
      second fun ⟨_, _, refused⟩ => nomatch refused
  have places : [nodeName 49, nodeName 50, nodeName 51].map
      (fun node => t.reverseNodeIndex[node]?) = [some 0, some 1, some 2] := by
    rw [(run.kept row_simple).2.2.1.reverseNodeIndex]
    decide +kernel
  simp only [map_cons, map_nil, List.cons.injEq, and_true] at places
  obtain ⟨home, near, far⟩ := places
  have small : ∀ link ∈ t.graph.edges, link.ends.1 < 256 ∧ link.ends.2 < 256 := fun link hm =>
    (by decide : ∀ ends ∈ [(0, 1), (1, 2)], ends.1 < 256 ∧ ends.2 < 256) _
      (edges ▸ mem_map_of_mem hm)
  have linked : ∀ ends ∈ [(0, 1), (1, 2)], Linked t.graph.adjacency ends.1 ends.2 :=
    fun ends hm => edges ▸ hm
  have one : t.graph.Reaches 0 1 := .single (linked (0, 1) mem_cons_self)
  have two : t.graph.Reaches 0 2 := one.tail (linked (1, 2) (mem_cons_of_mem _ mem_cons_self))
  have only : ∀ {node other : Node}, other ∈ TreeSet.ofList [node] → node = other := by simp
  have reached : ∀ s ∈ TreeSet.ofList [nodeName 50, nodeName 51], ∃ w, t.Joins (nodeName 49) s 0 w ∧
      t.graph.Reaches 0 w := by
    intro s hm
    have either : s = nodeName 50 ∨ s = nodeName 51 := by simpa using hm
    rcases either with rfl | rfl
    · exact ⟨1, ⟨home, near⟩, one⟩
    · exact ⟨2, ⟨home, far⟩, two⟩
  obtain ⟨res, paths, hr, each⟩ := multicast_delivers row_simple run false
    (fun p hm => only hm ▸ NestedMap.mem_iff_exists.mpr ⟨0, home⟩)
    (fun s hm => (reached s hm).elim fun w both => NestedMap.mem_iff_exists.mpr ⟨w, both.1.2⟩)
    (fun s hm => (reached s hm).elim fun w both => ⟨nodeName 49, by simp, 0, w, both⟩)
    (plainNetwork_deploys small)
  obtain ⟨p, hp, -, fid, v, w, entry, joins, leads⟩ := each (nodeName 50) (by simp)
  obtain ⟨q, hq, -, fid', v', w', entry', joins', leads'⟩ := each (nodeName 51) (by simp)
  obtain rfl := only hp
  obtain rfl := only hq
  obtain ⟨rfl, rfl⟩ := Joins.unique ⟨home, near⟩ joins
  obtain ⟨rfl, rfl⟩ := Joins.unique ⟨home, far⟩ joins'
  obtain rfl : fid = fid' := Option.some.inj (Option.some.inj (entry.symm.trans entry'))
  exact ⟨t, res, paths, fid, run, sent, hr, entry, leads, leads'⟩

end Blackadder.Forwarding
