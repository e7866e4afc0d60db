import Blackadder.Library.RingBuffer
import Blackadder.Proxy.State

namespace Blackadder.Reliability

/-- `rand()`, as an `unsigned`. -/
abbrev AckID : Type := UInt32

def cprLruSize : Nat := 100

/-- A `Pending_LRU_Object`. Its `ackID` stands for its address. -/
structure PendingObject where
  prev : Option AckID := none
  next : Option AckID := none
  data : List UInt8
  retransmissions : UInt8 := 0

structure PendingLRU where
  objects : HashTable AckID PendingObject := ∅
  sentTimes : HashTable AckID Nat := ∅
  head : Option AckID := none
  tail : Option AckID := none

namespace PendingLRU

open Option HashTable

variable (lru : PendingLRU) (ackID : AckID)

/-- An assignment through a pointer; nothing comes of it where there is no object. -/
def assign (pointer : Option AckID) (change : PendingObject → PendingObject) :
    Option PendingLRU := do
  let ackID ← pointer
  let _ ← lru.objects.get ackID
  some { lru with objects := lru.objects.modify ackID change }

/-- Take an object that is neither the head nor the tail out of the chain. -/
def unlink : Option PendingLRU := do
  let obj ← lru.objects.get ackID
  let lru ← lru.assign obj.next fun next => { next with prev := obj.prev }
  let obj ← lru.objects.get ackID
  lru.assign obj.prev fun prev => { prev with next := obj.next }

/-- Make the object behind the tail the tail. -/
def dropTail : Option PendingLRU := do
  let obj ← lru.objects.get ackID
  let lru := { lru with tail := obj.next }
  lru.assign lru.tail fun tail => { tail with prev := none }

/-- Put an object in front of the head. -/
def link (head ackID : AckID) : Option PendingLRU := do
  let lru ← lru.assign head fun head => { head with next := some ackID }
  let lru ← lru.assign ackID fun obj => { obj with prev := some head }
  some { lru with head := some ackID }

section

variable [IterationOrder] (lru : PendingLRU) (ackID : AckID)

def update (now : Nat) : Option PendingLRU := do
  let _ ← lru.objects.get ackID
  let lru := { lru with sentTimes := lru.sentTimes.set ackID now }
  let head ← lru.head
  if ackID = head then
    some lru
  else
    let tail ← lru.tail
    let taken :=
      if ackID = tail ∧ lru.objects.size ≠ 1 then lru.dropTail ackID else lru.unlink ackID
    let lru ← taken
    lru.link head ackID

/-- Take an object out of the chain, wherever it is. -/
def unchain (obj : PendingObject) : Option PendingLRU :=
  if lru.objects.size ≠ 1 then do
    let head ← lru.head
    if ackID = head then
      let lru ← lru.assign obj.prev fun prev => { prev with next := none }
      some { lru with head := obj.prev }
    else
      let tail ← lru.tail
      if ackID = tail then lru.dropTail ackID else lru.unlink ackID
  else
    some { lru with head := none, tail := none }

def remove : Option PendingLRU :=
  match lru.objects.get ackID with
  | none => some lru
  | some obj => do
    let lru ← lru.unchain ackID obj
    some
      { lru with
        sentTimes := lru.sentTimes.erase ackID
        objects := lru.objects.erase ackID }

/-- The loop that makes room, with a bound on its turns. -/
def makeRoom : Nat → PendingLRU → Option PendingLRU
  | 0, lru => some lru
  | turns + 1, lru =>
    if cprLruSize < lru.objects.size then do
      let tail ← lru.tail
      let lru ← lru.remove tail
      makeRoom turns lru
    else
      some lru

def insert (data : List UInt8) (ackID : AckID) (now : Nat) :
    Option PendingLRU :=
  if ackID ∈ lru.objects then
    lru.update ackID now
  else do
    let lru ← makeRoom lru.objects.size lru
    let lru :=
      { lru with
        objects := lru.objects.set ackID { data := data }
        sentTimes := lru.sentTimes.set ackID now }
    match lru.head with
    | none => some { lru with head := some ackID, tail := some ackID }
    | some head => lru.link head ackID

end

section

/-- What the second list holds, the first one held as well, with the same packets. -/
def Within (after before : PendingLRU) : Prop :=
  ∀ ackID obj, after.objects.get ackID = some obj →
    ∃ old, before.objects.get ackID = some old ∧ obj.data = old.data

variable {before middle after : PendingLRU} {ackID : AckID}

theorem Within.refl (lru : PendingLRU) : lru.Within lru :=
  fun _ obj hf => ⟨obj, hf, rfl⟩

theorem Within.trans (second : after.Within middle) (first : middle.Within before) :
    after.Within before := by
  intro ackID obj hf
  obtain ⟨inner, ht, hs⟩ := second ackID obj hf
  obtain ⟨old, origin, hs'⟩ := first ackID inner ht
  exact ⟨old, origin, hs.trans hs'⟩

theorem Within.of_objects (hs : after.objects = before.objects) : after.Within before := by
  intro ackID obj hf
  rw [hs] at hf
  exact ⟨obj, hf, rfl⟩

theorem assign_within {pointer : Option AckID} {change : PendingObject → PendingObject}
    (assigned : before.assign pointer change = some after)
    (pointers : ∀ obj, (change obj).data = obj.data) : after.Within before := by
  simp only [assign, bind_eq_bind, bind_eq_some_iff] at assigned
  obtain ⟨target, _, _, _, res⟩ := assigned
  cases res
  intro ackID obj hf
  simp only [get_modify] at hf
  split at hf
  · rename_i hs
    obtain ⟨old, origin, rfl⟩ := map_eq_some_iff.mp hf
    exact ⟨old, origin, pointers old⟩
  · exact ⟨obj, hf, rfl⟩

theorem unlink_within (unlinked : before.unlink ackID = some after) : after.Within before := by
  simp only [unlink, bind_eq_bind, bind_eq_some_iff] at unlinked
  obtain ⟨_, _, _, first, _, _, second⟩ := unlinked
  exact (assign_within second fun _ => rfl).trans (assign_within first fun _ => rfl)

theorem dropTail_within (dropped : before.dropTail ackID = some after) : after.Within before := by
  simp only [dropTail, bind_eq_bind, bind_eq_some_iff] at dropped
  obtain ⟨_, _, assigned⟩ := dropped
  exact (assign_within assigned fun _ => rfl).trans (.of_objects rfl)

theorem link_within {head : AckID} (hl : before.link head ackID = some after) :
    after.Within before := by
  simp only [link, bind_eq_bind, bind_eq_some_iff] at hl
  obtain ⟨_, first, _, second, res⟩ := hl
  cases res
  exact Within.trans (.of_objects rfl)
    ((assign_within second fun _ => rfl).trans (assign_within first fun _ => rfl))

variable [IterationOrder] {now : Nat} {obj : PendingObject}

theorem update_within (updated : before.update ackID now = some after) : after.Within before := by
  simp only [update, bind_eq_bind, bind_eq_some_iff] at updated
  obtain ⟨_, _, head, _, rest⟩ := updated
  split at rest
  · cases rest
    exact .of_objects rfl
  simp only [bind_eq_some_iff] at rest
  obtain ⟨tail, _, middle, taken, hl⟩ := rest
  refine (link_within hl).trans ?_
  split at taken
  · exact (dropTail_within taken).trans (.of_objects rfl)
  · exact (unlink_within taken).trans (.of_objects rfl)

omit [IterationOrder] in
theorem unchain_within (unchained : before.unchain ackID obj = some after) :
    after.Within before := by
  unfold unchain at unchained
  split at unchained
  · simp only [bind_eq_bind, bind_eq_some_iff] at unchained
    obtain ⟨head, _, rest⟩ := unchained
    split at rest
    · simp only [bind_eq_some_iff] at rest
      obtain ⟨inner, assigned, res⟩ := rest
      cases res
      have pointers : inner.Within before := assign_within assigned fun _ => rfl
      exact pointers
    · simp only [bind_eq_some_iff] at rest
      obtain ⟨tail, _, taken⟩ := rest
      split at taken
      · exact dropTail_within taken
      · exact unlink_within taken
  · cases unchained
    exact .of_objects rfl

omit [IterationOrder] in
theorem remove_within (hr : before.remove ackID = some after) : after.Within before := by
  unfold remove at hr
  split at hr
  · cases hr
    exact .refl _
  simp only [bind_eq_bind, bind_eq_some_iff] at hr
  obtain ⟨middle, unchained, res⟩ := hr
  cases res
  refine Within.trans ?_ (unchain_within unchained)
  intro other obj ht
  simp only [get_erase] at ht
  split at ht
  · cases ht
  · exact ⟨obj, ht, rfl⟩

omit [IterationOrder] in
theorem makeRoom_within {turns : Nat} (made : makeRoom turns before = some after) :
    after.Within before := by
  induction turns generalizing before with
  | zero =>
    cases made
    exact .refl after
  | succ turns ih =>
    simp only [makeRoom] at made
    split at made
    · simp only [bind_eq_bind, bind_eq_some_iff] at made
      obtain ⟨tail, _, middle, hr, rest⟩ := made
      exact (ih rest).trans (remove_within hr)
    · cases made
      exact .refl after

/-- The list holds the new packet and some old ones. One whose `ackID` is in use is not stored. -/
theorem insert_contents {data : List UInt8} {other : AckID}
    (inserted : before.insert data ackID now = some after)
    (hf : after.objects.get other = some obj) : (other = ackID ∧ obj.data = data) ∨
      ∃ old, before.objects.get other = some old ∧ obj.data = old.data := by
  unfold insert at inserted
  split at inserted
  · exact .inr (update_within inserted other obj hf)
  simp only [bind_eq_bind, bind_eq_some_iff] at inserted
  obtain ⟨middle, made, chained⟩ := inserted
  have stays : after.Within { middle with
        objects := middle.objects.set ackID { data := data }
        sentTimes := middle.sentTimes.set ackID now } := by
    split at chained
    · cases chained
      exact .of_objects rfl
    · exact link_within chained
  obtain ⟨inner, ht, hs⟩ := stays other obj hf
  simp only [get_set] at ht
  split at ht
  · rename_i new
    cases ht
    exact .inl ⟨by grind, hs⟩
  · obtain ⟨old, origin, hs'⟩ := makeRoom_within made other inner ht
    exact .inr ⟨old, origin, hs.trans hs'⟩

end

end PendingLRU

open Wire (Buffer Fid bytes fidLen pursuitIDLen idAt vectorAt)

/-- The fields of `GlobalConf` that the element reads. -/
structure GlobalConf where
  nodeID : Fragment
  isTM : Bool
  defaultRV : Fid
  defaultFromRV : Fid
  tmFid : Fid

namespace GlobalConf

def notificationIID (gc : GlobalConf) : ID := [Proxy.reservedFragment 253, gc.nodeID]
def controlReliabilityScope : ID := Proxy.GlobalConf.controlReliabilityScope

end GlobalConf

/-- `CONTROL_REC` and `CONTROL_ACK`. -/
def controlRec : UInt8 := 9
def controlAck : UInt8 := 10

/-- `CPR_STATE_SIZE`, `CPR_MAX_RETRANSMISSIONS` and `CPR_TIMER_EXPIRATION`. -/
def cprStateSize : Nat := 100
def cprMaxRetransmissions : UInt8 := 3
def cprTimerExpiration : Nat := 1000

/-- Packets to the forwarder, and to the proxy unwrapped requests, packets that are none of the
element's business and failure reports. The `ackID` is not part of what is pushed. -/
inductive Out where
  | packet (bytes : List UInt8)
  | request (ackID : AckID) (bytes : List UInt8)
  | plain (bytes : List UInt8)
  | failure (ackID : AckID) (bytes : List UInt8)
  deriving DecidableEq

/-- A `memcpy` of `length` bytes at `offset` out of a block of `size` bytes. -/
structure Copy where
  size : Nat
  offset : Nat
  length : Nat
  deriving DecidableEq

def Copy.Inside (copy : Copy) : Prop := copy.offset + copy.length ≤ copy.size

instance (copy : Copy) : Decidable copy.Inside :=
  inferInstanceAs (Decidable (copy.offset + copy.length ≤ copy.size))

variable (gc : GlobalConf) (ackID : AckID) (p : Buffer) (stale stale' : View)

/-- Sent reliably: from the topology manager to a node, or a request to the rendezvous. -/
def protects : Bool :=
  let forwardFID : Fid := vectorAt p.data 0
  let numOfIDs := p.data fidLen
  let idLen := (p.data (fidLen + 1)).toNat
  let rID := idAt p.data (fidLen + 2) idLen
  let packetType := p.data (fidLen + 2 + pursuitIDLen * idLen)
  numOfIDs = 1 ∧
    ¬ ((¬ gc.isTM ∨ rootFragment rID ≠ rootFragment gc.notificationIID) ∧
      (packetType = MessageType.publishData.code ∨ forwardFID ≠ gc.defaultRV))

/-- The four bytes of an `int`, the highest one first. -/
def ackBytes : List UInt8 :=
  [(ackID >>> 24).toUInt8, (ackID >>> 16).toUInt8, (ackID >>> 8).toUInt8, ackID.toUInt8]

/-- The length of what is put behind the forwarding identifier. -/
def headerLength : Nat := 1 + 1 + pursuitIDLen + 1 + fidLen + 4

/-- `tmp_buff`, of `p.length + headerLength` bytes, once it is filled; the memory from there on is
`stale`. -/
def tmpBuff : View :=
  let scope := GlobalConf.controlReliabilityScope
  let data := stale.memcpy 0 (p.data.read 0 fidLen)
  let data := data.memcpy fidLen [1]
  let data := data.memcpy (fidLen + 1) [UInt8.ofNat ((bytes scope).length / pursuitIDLen)]
  let data := data.memcpy (fidLen + 2) ((bytes scope).take pursuitIDLen)
  let data := data.memcpy (fidLen + 2 + pursuitIDLen) [controlRec]
  let data :=
    if gc.isTM then data
    else data.memcpy (fidLen + 2 + pursuitIDLen + 1) gc.defaultFromRV.toList
  let data := data.memcpy (fidLen + 2 + pursuitIDLen + 1 + fidLen) (ackBytes ackID)
  data.memcpy (fidLen + headerLength) (p.data.read fidLen (p.length - fidLen))

/-- The packet that is pushed, the one kept to be sent again, and the copies out of any memory. -/
structure Encapsulation where
  packet : List UInt8
  pending : List UInt8
  copies : List Copy

/-- `payload->put(offset)` adds the length of all before the payload. The object that is kept is
allocated in between, so that the memory behind the block may be `stale'` then. -/
def encapsulate :
    Encapsulation :=
  let size := p.length + headerLength
  let tmp := tmpBuff gc ackID p stale
  let offset := fidLen + headerLength
  let newLength := p.length + offset
  { packet := tmp.read 0 newLength
    pending := View.read (fun i => if i < size then tmp i else stale' i) 0 newLength
    copies :=
      [⟨p.length, 0, fidLen⟩,
        ⟨(bytes GlobalConf.controlReliabilityScope).length, 0, pursuitIDLen⟩] ++
        (if gc.isTM then [] else [⟨fidLen, 0, fidLen⟩]) ++
        [⟨p.length, fidLen, p.length - fidLen⟩, ⟨size, 0, newLength⟩, ⟨size, 0, newLength⟩] }

/-- The type of a control packet and where it stands, and where its header ends. -/
structure Control where
  type : UInt8
  typePos : Nat
  reverseFid : Fid
  ackID : AckID
  offset : Nat

def ackIDAt (data : View) (offset : Nat) : AckID :=
  (data offset).toUInt32 <<< 24 ||| (data (offset + 1)).toUInt32 <<< 16 |||
    (data (offset + 2)).toUInt32 <<< 8 ||| (data (offset + 3)).toUInt32

/-- There is none in a packet with several identifiers or under another scope. -/
def readControl (data : View) : Option Control :=
  let numberOfIDs := data fidLen
  let idLength := (data (fidLen + 1)).toNat
  let offset := fidLen + 2 + idLength * pursuitIDLen
  if numberOfIDs = 1 ∧ idAt data (fidLen + 2) idLength = GlobalConf.controlReliabilityScope then
    some
      { type := data offset
        typePos := offset
        reverseFid := vectorAt data (offset + 1)
        ackID := ackIDAt data (offset + 1 + fidLen)
        offset := offset + 1 + fidLen + 4 }
  else none

/-- The header of the request with another path and type. The topology manager is answered along the
path to it. -/
def acknowledgement (control : Control) : List UInt8 :=
  let idLength := (p.data (control.offset + 1)).toNat
  let tmID := idAt p.data (control.offset + 2) idLength
  let fid := if tmID = gc.notificationIID then gc.tmFid else control.reverseFid
  View.read ((p.data.memcpy 0 fid.toList).memcpy control.typePos [controlAck]) 0 control.offset

/-- `out` has all packets pushed so far, and `acknowledged` what an acknowledgement has removed. -/
structure ControlReliability where
  gc : GlobalConf
  byPassMode : Bool := false
  lastReceivedAckIDs : RingBuffer AckID cprStateSize
  lru : PendingLRU := {}
  out : List Out := []
  acknowledged : List AckID := []

inductive Fault where
  | pointer
  deriving DecidableEq, Repr

abbrev CR (α : Type) : Type := Program ControlReliability Fault α

def emit (out : Out) : CR Unit := Program.update fun e => { e with out := e.out ++ [out] }

/-- A change of the list of pending requests. -/
def changeLRU (change : PendingLRU → Option PendingLRU) : CR Unit := do
  let lru ← Program.read (·.lru)
  let lru ← Program.expect .pointer (change lru)
  Program.update fun e => { e with lru := lru }

def isAckIDStored (e : ControlReliability) (ackID : AckID) : Bool :=
  e.lastReceivedAckIDs.slots.contains ackID

/-- `push` on port 0. -/
def pushFromProxy [IterationOrder] (p : Buffer) (ackID : AckID) (stale stale' : View) (now : Nat) :
    CR Unit := do
  let e ← Program.read id
  if e.byPassMode ∨ ¬ protects e.gc p then
    emit (.packet p.contents)
  else
    let encapsulation := encapsulate e.gc ackID p stale stale'
    changeLRU (·.insert encapsulation.pending ackID now)
    emit (.packet encapsulation.packet)

/-- `push` on port 1, which has no `byPassMode`. -/
def pushFromForwarder (p : Buffer) : CR Unit := do
  let e ← Program.read id
  match readControl p.data with
  | none => emit (.plain (p.pull fidLen).contents)
  | some control =>
    if control.type = controlRec then
      emit (.packet (acknowledgement e.gc p control))
      if ¬ isAckIDStored e control.ackID then
        emit (.request control.ackID (p.pull control.offset).contents)
        Program.update fun e =>
          { e with lastReceivedAckIDs := e.lastReceivedAckIDs.store control.ackID }
    else if control.type = controlAck then
      changeLRU (·.remove control.ackID)
      if control.ackID ∈ e.lru.objects then
        Program.update fun e => { e with acknowledged := control.ackID :: e.acknowledged }

/-- `CONTROL_REQ_FAILURE` in the place of the reverse path and the `ackID`. -/
def failureReport (data : List UInt8) : List UInt8 :=
  let offset := 1 + 1 + pursuitIDLen + 1
  (data.drop fidLen).take offset ++ [MessageType.controlReqFailure.code] ++
    data.drop (2 * fidLen + offset + 4)

/-- `run_timer`. It may be called at any time, which is what becomes of its rescheduling. -/
def runTimer [IterationOrder] (now : Nat) : CR Unit := do
  let lru ← Program.read (·.lru)
  if lru.objects.size ≠ 0 then
    let tail ← Program.expect .pointer lru.tail
    if lru.sentTimes.getD tail 0 + cprTimerExpiration ≤ now then
      let obj ← Program.expect .pointer (lru.objects.get tail)
      if cprMaxRetransmissions ≤ obj.retransmissions then
        emit (.failure tail (failureReport obj.data))
        changeLRU (·.remove tail)
      else
        emit (.packet obj.data)
        changeLRU (·.update tail now)
        changeLRU fun lru => lru.assign tail fun obj =>
          { obj with retransmissions := obj.retransmissions + 1 }

open List hiding Vector
open View GlobalConf Program View.Shows

open Wire (length_bytes idAt_of_shows vectorAt_of_shows)

section

/-- A packet of the proxy that has one identifier. -/
structure ProxyPacket where
  fid : Fid
  id : ID
  short : id.length ≤ 255
  type : UInt8
  payload : List UInt8

/-- The packet without its forwarding identifier. -/
def ProxyPacket.body (packet : ProxyPacket) : List UInt8 :=
  [1, UInt8.ofNat packet.id.length] ++ bytes packet.id ++ [packet.type] ++ packet.payload

def ProxyPacket.bytes (packet : ProxyPacket) : List UInt8 := packet.fid.toList ++ packet.body

/-- What stands before a request, and all that there is of an acknowledgement. -/
structure Header where
  fid : Fid
  type : UInt8
  reverseFid : Fid
  ackID : AckID

def Header.bytes (header : Header) : List UInt8 :=
  header.fid.toList ++ [1] ++ [1] ++ Wire.bytes GlobalConf.controlReliabilityScope ++
    [header.type] ++ header.reverseFid.toList ++ ackBytes header.ackID

theorem ProxyPacket.length_bytes (pkt : ProxyPacket) :
    pkt.bytes.length = fidLen + pkt.body.length := by
  rw [ProxyPacket.bytes, length_append, Vector.length_toList, fidLen]

theorem Header.length_bytes (hdr : Header) : hdr.bytes.length = fidLen + headerLength := by
  simp only [Header.bytes, length_append, Vector.length_toList]
  rfl

theorem join_ackBytes (ackID : AckID) :
    (ackID >>> 24).toUInt8.toUInt32 <<< 24 ||| (ackID >>> 16).toUInt8.toUInt32 <<< 16 |||
      (ackID >>> 8).toUInt8.toUInt32 <<< 8 ||| ackID.toUInt8.toUInt32 = ackID := by
  apply UInt32.toBitVec_inj.mp
  simp only [UInt32.toBitVec_or, UInt32.toBitVec_shiftLeft, UInt8.toBitVec_toUInt32]
  apply BitVec.eq_of_getLsbD_eq
  simp
  grind

variable {view : View}

theorem ackIDAt_of_shows {off : Nat} {ackID : AckID} (hs : view.Shows off (ackBytes ackID)) :
    ackIDAt view off = ackID := by
  simp only [ackBytes, shows_cons] at hs
  obtain ⟨first, second, third, fourth, _⟩ := hs
  rw [ackIDAt, first, second, third, fourth]
  exact join_ackBytes ackID

theorem readControl_of_shows {hdr : Header} (hs : view.Shows 0 hdr.bytes) : readControl view = some
      { type := hdr.type
        typePos := fidLen + 2 + pursuitIDLen
        reverseFid := hdr.reverseFid
        ackID := hdr.ackID
        offset := fidLen + headerLength } := by
  simp only [Header.bytes, shows_append] at hs
  obtain ⟨⟨⟨⟨⟨⟨_, count⟩, len⟩, scope⟩, type⟩, reverse⟩, ack⟩ := hs
  simp only [length_append, Vector.length_toList, length_bytes] at count len scope type reverse ack
  have count : view fidLen = 1 := (shows_cons.mp count).1
  have len : view (fidLen + 1) = 1 := (shows_cons.mp len).1
  have scope : idAt view (fidLen + 2) 1 = controlReliabilityScope := idAt_of_shows scope
  have type : view (fidLen + 2 + pursuitIDLen) = hdr.type := (shows_cons.mp type).1
  have reverse : vectorAt view (fidLen + 2 + pursuitIDLen + 1) = hdr.reverseFid :=
    vectorAt_of_shows reverse
  have ack : ackIDAt view (fidLen + 2 + pursuitIDLen + 1 + fidLen) = hdr.ackID :=
    ackIDAt_of_shows ack
  have one : (1 : UInt8).toNat = 1 := rfl
  simp only [readControl, count, len, one, scope, Nat.one_mul, type, reverse, ack]
  rfl

end

section

variable (gc : GlobalConf) (ackID : AckID) {p : Buffer} {pkt : ProxyPacket}

theorem shows_of_contents {sent : List UInt8} (hg : p.contents = sent) :
    p.length = sent.length ∧ p.data.Shows 0 sent := by
  subst hg
  refine ⟨?_, shows_read p.data 0 p.length⟩
  rw [Buffer.contents, View.read, length_map, length_range]

theorem contents_ofBytes (bytes : List UInt8) : (Buffer.ofBytes bytes).contents = bytes :=
  read_of_shows (Buffer.shows_ofBytes bytes)

/-- A topology manager leaves whatever was in the place of the reverse path. -/
theorem tmpBuff_shows (hg : p.contents = pkt.bytes) (stale : View) :
    ∃ reverse, (gc.isTM = false → reverse = gc.defaultFromRV) ∧ (tmpBuff gc ackID p stale).Shows 0
        (Header.bytes ⟨pkt.fid, controlRec, reverse, ackID⟩ ++ pkt.body) := by
  obtain ⟨len, hs⟩ := shows_of_contents hg
  rw [ProxyPacket.length_bytes] at len
  rw [ProxyPacket.bytes, shows_append, Vector.length_toList] at hs
  have fid : p.data.read 0 fidLen = pkt.fid.toList := by
    have hf := read_of_shows hs.1
    rwa [Vector.length_toList] at hf
  have body : p.data.read fidLen (p.length - fidLen) = pkt.body := by
    have hf := read_of_shows hs.2
    rw [len, Nat.add_sub_cancel_left]
    exact hf
  let data := ((((stale.memcpy 0 pkt.fid.toList).memcpy fidLen [1]).memcpy (fidLen + 1)
    [1]).memcpy (fidLen + 2) (bytes controlReliabilityScope)).memcpy
      (fidLen + 2 + pursuitIDLen) [controlRec]
  let start := pkt.fid.toList ++ [1] ++ [1] ++ bytes controlReliabilityScope ++ [controlRec]
  have hr : fidLen + 2 + pursuitIDLen + 1 = start.length := by
    simp only [start, length_append, Vector.length_toList]
    rfl
  -- Each copy goes right behind the one before it, up to the place of the reverse path.
  have front : data.Shows 0 start := by
    refine append_memcpy (.append_memcpy (.append_memcpy (.append_memcpy
      (shows_memcpy stale 0 _) ?_ _) ?_ _) ?_ _) ?_ _
    all_goals simp only [length_append, Vector.length_toList]
    all_goals rfl
  have back : ∀ (view : View) (reverse : Fid), view.Shows 0 (start ++ reverse.toList) →
      ((view.memcpy (fidLen + 2 + pursuitIDLen + 1 + fidLen) (ackBytes ackID)).memcpy
        (fidLen + headerLength) pkt.body).Shows 0
          (start ++ reverse.toList ++ ackBytes ackID ++ pkt.body) := by
    intro view reverse first
    refine append_memcpy (.append_memcpy first ?_ _) ?_ _
    all_goals simp only [length_append, ← hr, Vector.length_toList]
    all_goals rfl
  have unfolded : tmpBuff gc ackID p stale =
      ((if gc.isTM then data else data.memcpy (fidLen + 2 + pursuitIDLen + 1)
        gc.defaultFromRV.toList).memcpy (fidLen + 2 + pursuitIDLen + 1 + fidLen)
          (ackBytes ackID)).memcpy (fidLen + headerLength) pkt.body := by
    simp only [data]
    rw [← body, ← fid]
    rfl
  rw [unfolded]
  cases gc.isTM with
  | false => exact ⟨gc.defaultFromRV, fun _ => rfl, back _ _ (front.append_memcpy hr _)⟩
  | true =>
    refine ⟨vectorAt data start.length, nofun, back _ _ ?_⟩
    rw [shows_append, Nat.zero_add, Wire.toList_vectorAt]
    exact ⟨front, shows_read _ _ _⟩

/-- Both go on for the length of a path behind the packet with the header in it. -/
theorem encapsulate_bytes (hg : p.contents = pkt.bytes) (stale stale' : View) :
    ∃ reverse tail tail', (gc.isTM = false → reverse = gc.defaultFromRV) ∧
      tail.length = fidLen ∧ tail'.length = fidLen ∧ (encapsulate gc ackID p stale stale').packet =
        Header.bytes ⟨pkt.fid, controlRec, reverse, ackID⟩ ++ pkt.body ++ tail ∧
      (encapsulate gc ackID p stale stale').pending =
        Header.bytes ⟨pkt.fid, controlRec, reverse, ackID⟩ ++ pkt.body ++ tail' := by
  obtain ⟨reverse, path, hs⟩ := tmpBuff_shows gc ackID hg stale
  have size : p.length + headerLength =
      (Header.bytes ⟨pkt.fid, controlRec, reverse, ackID⟩ ++ pkt.body).length := by
    rw [(shows_of_contents hg).1, ProxyPacket.length_bytes, length_append, Header.length_bytes]
    omega
  have whole : ∀ view : View, view.Shows 0
        (Header.bytes ⟨pkt.fid, controlRec, reverse, ackID⟩ ++ pkt.body) →
      view.read 0 (p.length + (fidLen + headerLength)) =
        Header.bytes ⟨pkt.fid, controlRec, reverse, ackID⟩ ++ pkt.body ++
          view.read (p.length + headerLength) fidLen := by
    intro view hf
    rw [Nat.add_comm fidLen, ← Nat.add_assoc, read_add, size, read_of_shows hf, Nat.zero_add]
  have kept : View.Shows
      (fun i => if i < p.length + headerLength then tmpBuff gc ackID p stale i else stale' i) 0
      (Header.bytes ⟨pkt.fid, controlRec, reverse, ackID⟩ ++ pkt.body) := by
    intro i hi
    exact (if_pos (by omega)).trans (hs i hi)
  refine ⟨reverse, _, _, path, ?_, ?_, whole _ hs, whole _ kept⟩
  · rw [View.read, length_map, length_range]
  · rw [View.read, length_map, length_range]

/-- The bytes that are copied out of the buffer do not fit into it. -/
theorem copy_beyond (p : Buffer) (stale stale' : View) :
    ∃ copy ∈ (encapsulate gc ackID p stale stale').copies, ¬ copy.Inside := by
  refine ⟨⟨p.length + headerLength, 0, p.length + (fidLen + headerLength)⟩, ?_, ?_⟩
  · simp [encapsulate]
  · simp only [Copy.Inside, fidLen]
    omega

end

section

variable {p : Buffer} {hdr : Header} {rest : List UInt8}

theorem shows_relabel (hs : p.data.Shows 0 hdr.bytes) (fid : Fid) (type : UInt8) :
    ((p.data.memcpy 0 fid.toList).memcpy (fidLen + 2 + pursuitIDLen) [type]).Shows 0
      (Header.bytes ⟨fid, type, hdr.reverseFid, hdr.ackID⟩) := by
  have byPath : ∀ (fid : Fid) (type : UInt8),
      Header.bytes ⟨fid, type, hdr.reverseFid, hdr.ackID⟩ = [] ++ fid.toList ++
        ([1] ++ [1] ++ bytes controlReliabilityScope ++ [type] ++
          hdr.reverseFid.toList ++ ackBytes hdr.ackID) := by
    simp [Header.bytes]
  have byType : ∀ (fid : Fid) (type : UInt8), Header.bytes ⟨fid, type, hdr.reverseFid, hdr.ackID⟩ =
        (fid.toList ++ [1] ++ [1] ++ bytes controlReliabilityScope) ++ [type] ++
          (hdr.reverseFid.toList ++ ackBytes hdr.ackID) := by
    simp [Header.bytes]
  have place : fidLen + 2 + pursuitIDLen =
      0 + (fid.toList ++ [1] ++ [1] ++ bytes controlReliabilityScope).length := by
    simp only [length_append, Vector.length_toList]
    rfl
  have ha : (p.data.memcpy 0 fid.toList).Shows 0
      (Header.bytes ⟨fid, hdr.type, hdr.reverseFid, hdr.ackID⟩) := by
    rw [byPath]
    refine overwrite ((byPath _ _).symm ▸ hs) rfl ?_
    rw [Vector.length_toList, Vector.length_toList]
  rw [byType] at ha ⊢
  exact ha.overwrite place rfl

theorem acknowledgement_eq (gc : GlobalConf) {control : Control}
    (hs : p.data.Shows 0 hdr.bytes) (read : readControl p.data = some control) :
    ∃ fid, acknowledgement gc p control =
      Header.bytes ⟨fid, controlAck, hdr.reverseFid, hdr.ackID⟩ := by
  rw [readControl_of_shows hs] at read
  cases read
  have relabelled : ∀ fid : Fid,
      View.read ((p.data.memcpy 0 fid.toList).memcpy (fidLen + 2 + pursuitIDLen) [controlAck]) 0
        (fidLen + headerLength) = Header.bytes ⟨fid, controlAck, hdr.reverseFid, hdr.ackID⟩ := by
    intro fid
    have hf := read_of_shows (shows_relabel hs fid controlAck)
    rwa [Header.length_bytes] at hf
  exact ⟨_, relabelled _⟩

/-- A request is acknowledged, and handed on and remembered unless it is remembered already. -/
theorem pushFromForwarder_request (hg : p.contents = hdr.bytes ++ rest)
    (req : hdr.type = controlRec) (e : ControlReliability) :
    ∃ fid, pushFromForwarder p e = .ok ((), if isAckIDStored e hdr.ackID then
        { e with
          out := e.out ++
            [.packet (Header.bytes ⟨fid, controlAck, hdr.reverseFid, hdr.ackID⟩)] } else
        { e with
          out := e.out ++
            [.packet (Header.bytes ⟨fid, controlAck, hdr.reverseFid, hdr.ackID⟩),
              .request hdr.ackID rest]
          lastReceivedAckIDs := e.lastReceivedAckIDs.store hdr.ackID }) := by
  obtain ⟨len, hs⟩ := shows_of_contents hg
  have read := readControl_of_shows (shows_append.mp hs).1
  obtain ⟨fid, answer⟩ := acknowledgement_eq e.gc (shows_append.mp hs).1 read
  refine ⟨fid, ?_⟩
  have payload : (p.pull (fidLen + headerLength)).contents = rest := by
    have behind := (shows_append.mp hs).2
    rw [Header.length_bytes] at behind
    rw [Buffer.contents_pull, len, length_append, Header.length_bytes, Nat.add_sub_cancel_left]
    exact read_of_shows behind
  rw [req] at read answer
  simp only [pushFromForwarder, read, bind, StateT.bind, Program.read, Except.bind, emit,
    answer, payload, id]
  cases isAckIDStored e hdr.ackID with
  | true => rfl
  | false => simp [bind, StateT.bind, Program.update, Except.bind]

/-- What the receiver hands to its proxy. -/
def Hands (sent : List UInt8) (ackID : AckID) (handed : List UInt8) : Prop :=
  ∀ buffer : Buffer, buffer.contents = sent →
    ∀ receiver : ControlReliability, isAckIDStored receiver ackID = false →
      ∃ ack receiver', pushFromForwarder buffer receiver = .ok ((), receiver') ∧
        receiver'.out = receiver.out ++ [.packet ack, .request ackID handed]

theorem hands_header (req : hdr.type = controlRec) : Hands (hdr.bytes ++ rest) hdr.ackID rest := by
  intro buf hg receiver new
  obtain ⟨fid, outcome⟩ := pushFromForwarder_request hg req receiver
  rw [new] at outcome
  exact ⟨_, _, outcome, rfl⟩

end

section

variable [IterationOrder] {gc : GlobalConf} {ackID : AckID} {packet : ProxyPacket} {p : Buffer}
  {stale stale' : View} {now : Nat} {sender sender' : ControlReliability}

/-- A packet that is sent reliably is pushed, and kept, with a header. -/
theorem pushFromProxy_protected (guarded : sender.byPassMode = false)
    (reliable : protects sender.gc p = true)
    (hp : pushFromProxy p ackID stale stale' now sender = .ok ((), sender')) :
    ∃ lru, sender.lru.insert (encapsulate sender.gc ackID p stale stale').pending ackID now =
        some lru ∧
      sender' = { sender with
        lru := lru
        out := sender.out ++ [.packet (encapsulate sender.gc ackID p stale stale').packet] } := by
  have spec : wlp (pushFromProxy p ackID stale stale' now) (fun _ final => ∃ lru, sender.lru.insert
          (encapsulate sender.gc ackID p stale stale').pending ackID now = some lru ∧
        final = { sender with
          lru := lru
          out := sender.out ++ [.packet (encapsulate sender.gc ackID p stale stale').packet] })
      sender := by
    simp only [pushFromProxy, wp_bind, wp_read, id, guarded, reliable,
      Bool.false_eq_true, not_true, or_self, if_false, changeLRU, wp_expect, wp_update]
    exact ⟨fun lru inserted => ⟨lru, inserted, rfl⟩, fun _ => trivial⟩
  exact wp_ok spec hp

/-- What has been sent for a request on this push, and what is kept to be sent again. -/
def Sends (sender sender' : ControlReliability) (ackID : AckID) (sent : List UInt8) : Prop :=
  sender'.out = sender.out ++ [.packet sent] ∨
    ∃ obj, sender'.lru.objects.get ackID = some obj ∧ obj.data = sent

/-- The bytes stay inside their buffers, and the receiver hands on, out of the packet and out of its
retransmissions, the packet without its forwarding identifier. -/
def Transparent (sender sender' : ControlReliability) (packet : ProxyPacket) (ackID : AckID)
    (p : Buffer) (stale stale' : View) : Prop :=
  (∀ copy ∈ (encapsulate sender.gc ackID p stale stale').copies, copy.Inside) ∧
    ∀ sent, Sends sender sender' ackID sent → Hands sent ackID packet.body

/-- The receiver hands on 32 bytes too many, which were read from behind the buffer. -/
theorem encapsulation_not_transparent (given : p.contents = packet.bytes)
    (guarded : sender.byPassMode = false) (reliable : protects sender.gc p = true)
    (pushed : pushFromProxy p ackID stale stale' now sender = .ok ((), sender')) :
    ¬ Transparent sender sender' packet ackID p stale stale' ∧
      (∃ copy ∈ (encapsulate sender.gc ackID p stale stale').copies, ¬ copy.Inside) ∧
      (ackID ∉ sender.lru.objects → ∀ sent, Sends sender sender' ackID sent →
        ∃ tail, tail.length = fidLen ∧ Hands sent ackID (packet.body ++ tail)) := by
  have beyond := copy_beyond sender.gc ackID p stale stale'
  obtain ⟨lru, inserted, rfl⟩ := pushFromProxy_protected guarded reliable pushed
  obtain ⟨reverse, tail, tail', _, size, size', first, kept⟩ :=
    encapsulate_bytes sender.gc ackID given stale stale'
  refine ⟨?_, beyond, ?_⟩
  · rintro ⟨hi, _⟩
    obtain ⟨copy, hm, ho⟩ := beyond
    exact ho (hi copy hm)
  rintro fresh sent (now | ⟨obj, hf, rfl⟩)
  · have same : (encapsulate sender.gc ackID p stale stale').packet = sent := by
      simpa using now
    rw [← same, first, append_assoc]
    exact ⟨tail, size, hands_header rfl⟩
  · have same : obj.data = (encapsulate sender.gc ackID p stale stale').pending := by
      rcases PendingLRU.insert_contents inserted hf with ⟨_, same⟩ | ⟨old, ht, _⟩
      · exact same
      · exact absurd (HashTable.mem_of_get ht) fresh
    rw [same, kept, append_assoc]
    exact ⟨tail', size', hands_header rfl⟩

def sampleConf : GlobalConf where
  nodeID := smallFragment 1
  isTM := false
  defaultRV := Vector.replicate 32 1
  defaultFromRV := Vector.replicate 32 2
  tmFid := Vector.replicate 32 3

/-- A subscription that goes to the rendezvous. -/
def sampleRequest : ProxyPacket where
  fid := sampleConf.defaultRV
  id := [Proxy.reservedFragment 255, smallFragment 1]
  short := by decide
  type := MessageType.subscribeInfo.code
  payload := [1, 0]

/-- An element that has just started, with the given bytes in its unset memory. -/
def started (gc : GlobalConf) (slots : Vector AckID cprStateSize) : ControlReliability where
  gc := gc
  lastReceivedAckIDs := ⟨slots, ⟨0, by decide⟩⟩

omit [IterationOrder] in
/-- A request and its retransmission reach the rendezvous with 32 bytes of other memory. -/
theorem subscription_with_foreign_bytes :
    let p := Buffer.ofBytes sampleRequest.bytes
    let encapsulation := encapsulate sampleConf 7 p (fun _ => 170) (fun _ => 187)
    let receiver := started sampleConf (Vector.replicate 100 0)
    protects sampleConf p = true ∧ p.contents = sampleRequest.bytes ∧
      Program.outcome (pushFromForwarder (Buffer.ofBytes encapsulation.packet)) (·.out.drop 1)
          receiver =
        .ok [.request 7 (sampleRequest.body ++ List.replicate 32 170)] ∧
      Program.outcome (pushFromForwarder (Buffer.ofBytes encapsulation.pending)) (·.out.drop 1)
          receiver =
        .ok [.request 7 (sampleRequest.body ++ List.replicate 32 187)] := by
  decide +kernel

omit [IterationOrder] in
theorem encapsulation_not_transparent_sample :
    let _ : IterationOrder := insertionOrder
    let p := Buffer.ofBytes sampleRequest.bytes
    let sender := started sampleConf (Vector.replicate 100 0)
    ∃ sender', pushFromProxy p 7 (fun _ => 170) (fun _ => 187) 0 sender = .ok ((), sender') ∧
      ¬ Transparent sender sender' sampleRequest 7 p (fun _ => 170) (fun _ => 187) ∧
      ∀ sent, Sends sender sender' 7 sent →
        ∃ tail, tail.length = fidLen ∧ Hands sent 7 (sampleRequest.body ++ tail) := by
  intro order p sender
  have run : outcome (pushFromProxy p 7 (fun _ => 170) (fun _ => 187) 0)
      (·.acknowledged) sender = .ok [] := by
    decide +kernel
  obtain ⟨sender', hp, _⟩ := of_outcome run
  have hg : p.contents = sampleRequest.bytes := contents_ofBytes _
  have reliable : protects sender.gc p = true := by decide +kernel
  obtain ⟨altered, -, handed⟩ := encapsulation_not_transparent hg rfl reliable hp
  exact ⟨sender', hp, altered, handed (HashTable.not_mem_empty _)⟩

end

end Blackadder.Reliability
