import Blackadder.Proxy.RequestPackets

namespace Blackadder.Application

open List hiding Vector
open View

open Proxy (eventBytes)
open Wire (bytes nodeIDLen pursuitIDLen)

/-- An identifier with a length of one byte. -/
abbrev ShortID : Type := { id : ID // id.length ≤ 255 }

/-- What the proxy delivers to an application. Data with an implicit subscription has no node
identifier if it is from an application of the same node. -/
inductive Message where
  | publishedData (id : ShortID) (data : List UInt8)
  | publishedDataISub (id : ShortID) (nodeId : Option Fragment) (isubID : ShortID)
    (data : List UInt8)
  | notification (id : ShortID) (type : { type : MessageType //
      type.code ≠ MessageType.publishedData.code ∧ type.code ≠ MessageType.publishedDataISub.code })

def nodeIdBytes (nodeId : Option Fragment) : List UInt8 := (nodeId.map Vector.toList).getD []

def Message.sent : Message → List UInt8
  | publishedData id data => eventBytes .publishedData id data
  | publishedDataISub id nodeId isubID data => eventBytes .publishedDataISub id
      (nodeIdBytes nodeId ++ UInt8.ofNat isubID.1.length :: (bytes isubID ++ data))
  | notification id type => eventBytes type id []

/-- `sizeof (struct nlmsghdr)`. -/
def nlmsghdrLen : Nat := 16

/-- `data` is the place in the buffer, behind which `buffer` has what the memory holds. -/
structure Event where
  type : UInt8
  id : List UInt8
  nodeId : List UInt8 := []
  isubID : List UInt8 := []
  data : Option Nat := none
  dataLen : Nat := 0
  buffer : View

/-- The rest of the message, as an unsigned number if `ptr` is behind its end. -/
def restLen (bytesRead ptr : Nat) : Nat :=
  if ptr ≤ bytesRead then bytesRead - ptr else 4294967296 - (ptr - bytesRead)

def getEvent (buffer : View) (bytesRead : Nat) : Event :=
  let type := buffer nlmsghdrLen
  let idLen := (buffer (nlmsghdrLen + 1)).toNat * pursuitIDLen
  let ptr := nlmsghdrLen + 1 + 1
  let id := buffer.read ptr idLen
  let ptr := ptr + idLen
  if type = MessageType.publishedData.code then
    { type, id, buffer, data := some ptr, dataLen := restLen bytesRead ptr }
  else if type = MessageType.publishedDataISub.code then
    let nodeId := buffer.read ptr nodeIDLen
    let ptr := ptr + nodeIDLen
    let isubIDLen := (buffer ptr).toNat * pursuitIDLen
    let ptr := ptr + 1
    let isubID := buffer.read ptr isubIDLen
    let ptr := ptr + isubIDLen
    { type, id, nodeId, isubID, buffer, data := some ptr, dataLen := restLen bytesRead ptr }
  else { type, id, buffer }

/-- Where the copy constructor expects the data: it takes the size of a `string` object, which is 32
or, with older compilers, that of a pointer, for the length of the node identifier. -/
def Event.dataPlace (stringLen : Nat) (ev : Event) : Nat :=
  nlmsghdrLen + 1 + 1 + ev.id.length + stringLen + 1 + ev.isubID.length

/-- The bytes that the copy constructor reads. -/
def Event.copied (stringLen : Nat) (ev : Event) : Nat := ev.dataPlace stringLen + ev.dataLen

/-- The copy constructor, which gets a buffer on `stale` memory. -/
def Event.copy (stringLen : Nat) (ev : Event) (stale : View) : Event :=
  { ev with
    data := some (ev.dataPlace stringLen)
    buffer := stale.memcpy 0 (ev.buffer.read 0 (ev.copied stringLen)) }

/-- What an application finds in an event. -/
def Event.content (ev : Event) :=
  (ev.type, ev.id, ev.nodeId, ev.isubID, ev.dataLen,
    (ev.data.map fun data => ev.buffer.read data ev.dataLen).getD [])

def Message.content : Message → UInt8 × List UInt8 × List UInt8 × List UInt8 × Nat × List UInt8
  | publishedData id data => (MessageType.publishedData.code, bytes id, [], [], data.length, data)
  | publishedDataISub id nodeId isubID data => (MessageType.publishedDataISub.code, bytes id,
      nodeIdBytes nodeId, bytes isubID, data.length, data)
  | notification id type => (type.1.code, bytes id, [], [], 0, [])

/-- The event of a message that is received into some memory. -/
def Message.event (msg : Message) (memory : View) : Event :=
  getEvent (memory.memcpy nlmsghdrLen msg.sent) (nlmsghdrLen + msg.sent.length)

variable {view : View}

open Message

end Blackadder.Application
