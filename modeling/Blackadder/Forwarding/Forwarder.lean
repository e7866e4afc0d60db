import Blackadder.Library.LittleEndian
import Blackadder.Topology.State

/-!
The element that forwards packets between the proxy, on port 0, and the network. Packets are lists
of bytes; a frame of the network has the addresses of a link in front of the FID and the data.
-/

namespace Blackadder.Forwarding

open Blackadder.Topology (Bitvector)

abbrev EtherAddress : Type := Vector UInt8 6

abbrev IPAddress : Type := Vector UInt8 4

/-- `0x080a` for packets of the platform and `0x86dd` for links with SDN switches. -/
def baType : UInt16 := 2058

def sdnType : UInt16 := 34525

/-- An entry has Ethernet or IP addresses, depending on the mode. -/
structure ForwardingEntry where
  src : EtherAddress
  dst : EtherAddress
  srcIp : IPAddress
  dstIp : IPAddress
  port : Nat
  lid : Bitvector
  protoType : UInt16

/-- The element's table, with what it reads of the global configuration. -/
structure Forwarder where
  useMac : Bool
  iLID : Bitvector
  fwTable : List ForwardingEntry

/-- Two bytes in network order. -/
def htons (value : Nat) : List UInt8 := [UInt8.ofNat (value / 256), UInt8.ofNat value]

/-- The bytes of a FID, as a little-endian host has them in memory. -/
def fidBytes (fid : Bitvector) : List UInt8 := LittleEndian.encode 32 fid.toNat

/-- `memcpy(FID._data, p->data() + offset, FID_LEN)`. -/
def fidAt (offset : Nat) (p : List UInt8) : Bitvector :=
  BitVec.ofNat 256 (LittleEndian.decode ((p.drop offset).take 32))

/-- `ntohs` of the two bytes at an offset. -/
def protoAt (offset : Nat) (p : List UInt8) : UInt16 :=
  match p.drop offset with
  | high :: low :: _ => UInt16.ofNat (high.toNat * 256 + low.toNat)
  | _ => 0

/-- Over an IP header with a zero in its place, and over a datagram with its header. -/
structure Checksums where
  header : List UInt8 → Vector UInt8 2
  datagram : List UInt8 → List UInt8 → Vector UInt8 2

/-- A packet pushed to an output port. The original goes to the last one, the others get copies. -/
structure Sent where
  port : Nat
  bytes : List UInt8
  original : Bool

/-- What a call of `push` has done, with the next `ip_id`. -/
structure Pushed where
  outputs : List Sent
  killed : Bool
  nextID : UInt32

/-- `payload_len`, an `unsigned short`. -/
def payloadLen (p : List UInt8) : UInt16 := UInt16.ofNat (p.length + 65536 - 14 - 32)

/-- The eight bytes that complete the header of IPv6, with the length as it is in memory. -/
def sdnHeader (length : UInt16) : List UInt8 :=
  [0x60, 0, 0, 0] ++ LittleEndian.encode 2 length.toNat ++ [59, 0xff]

def macHeader (fe : ForwardingEntry) : List UInt8 := fe.dst.toList ++ fe.src.toList

section

variable (fw : Forwarder) (sums : Checksums) (id : UInt32) (p : List UInt8) (fe : ForwardingEntry)

def matching (fid : Bitvector) : List ForwardingEntry :=
  fw.fwTable.filter fun fe => Masks.Covers fid fe.lid

/-- The IP and UDP headers of a packet from the proxy. -/
def ipHeaders (p : List UInt8) : List UInt8 :=
  let start := [0x45, 0] ++ htons (p.length + 28) ++ htons id.toNat ++ [0, 0, 250, 17]
  let addresses := fe.srcIp.toList ++ fe.dstIp.toList
  let ip := start ++ (sums.header (start ++ [0, 0] ++ addresses)).toList ++ addresses
  let udp := htons 55555 ++ htons 55555 ++ htons (p.length + 8)
  ip ++ udp ++ (sums.datagram ip (udp ++ [0, 0] ++ p)).toList

/-- What an entry makes of a packet from the proxy. With another Ethernet type nothing is pushed. -/
def encapsulate : Option (List UInt8) :=
  if fw.useMac then
    if fe.protoType = baType then
      some (macHeader fe ++ htons fe.protoType.toNat ++ p)
    else if fe.protoType = sdnType then
      some (macHeader fe ++ htons fe.protoType.toNat ++ sdnHeader (payloadLen p) ++ p)
    else none
  else some (ipHeaders sums id fe p ++ p)

def pushFromProxy : Pushed :=
  let outLinks := matching fw (fidAt 0 p)
  { outputs := outLinks.zipIdx.filterMap fun (fe, counter) =>
      (encapsulate fw sums (id + UInt32.ofNat counter) p fe).map fun bytes =>
        ⟨fe.port, bytes, counter + 1 = outLinks.length⟩
    killed := outLinks.isEmpty
    nextID := if fw.useMac then id else id + UInt32.ofNat outLinks.length }

/-- Where the FID of a frame from the network is. -/
def fidOffset : Nat :=
  if fw.useMac then if protoAt 12 p = sdnType then 14 + 8 else 14 else 28

/-- The tests for a packet that has come back. -/
def loops : Bool :=
  if fw.useMac then
    let src := (p.drop 6).take 6
    let dst := p.take 6
    (src = fe.dst.toList && dst = fe.src.toList) || (src = fe.src.toList || dst = fe.dst.toList)
  else
    let src := (p.drop 12).take 4
    let dst := (p.drop 16).take 4
    src = fe.dstIp.toList && dst = fe.srcIp.toList

/-- What an entry makes of a frame from the network. -/
def readdress : List UInt8 :=
  if fw.useMac then
    if protoAt 12 p = baType ∧ fe.protoType = sdnType then
      macHeader fe ++ htons fe.protoType.toNat ++ sdnHeader (payloadLen p) ++ p.drop 14
    else if protoAt 12 p = sdnType ∧ fe.protoType = baType then
      macHeader fe ++ htons fe.protoType.toNat ++ p.drop (14 + 8)
    else macHeader fe ++ p.drop 12
  else
    let start := p.take 1 ++ [0] ++ (p.drop 2).take 4 ++ [0, 0, 250] ++ (p.drop 9).take 1
    let addresses := fe.srcIp.toList ++ fe.dstIp.toList
    let ip := start ++ (sums.header (start ++ [0, 0] ++ addresses)).toList ++ addresses
    let udp := (p.drop 20).take 6
    ip ++ udp ++ (sums.datagram ip (udp ++ [0, 0] ++ p.drop 28)).toList ++ p.drop 28

/-- The entries that a frame from the network is sent to. None for the FID of all ones. -/
def outLinks : List ForwardingEntry :=
  if fidAt (fidOffset fw p) p = BitVec.allOnes 256 then []
  else (matching fw (fidAt (fidOffset fw p) p)).filter fun fe => !loops fw p fe

def pushLocally : Bool := Masks.Covers (fidAt (fidOffset fw p) p) fw.iLID

def pushFromNetwork : Pushed :=
  { outputs := (outLinks fw p).zipIdx.map (fun (fe, counter) =>
        ⟨fe.port, readdress fw sums p fe,
          counter + 1 = (outLinks fw p).length && !pushLocally fw p⟩) ++
      if pushLocally fw p then [⟨0, p.drop (fidOffset fw p), true⟩] else []
    killed := (outLinks fw p).isEmpty && !pushLocally fw p
    nextID := id }

def push (inPort : Nat) (p : List UInt8) : Pushed :=
  if inPort = 0 then pushFromProxy fw sums id p else pushFromNetwork fw sums id p

end

end Blackadder.Forwarding
