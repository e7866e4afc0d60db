import Mathlib.Init

namespace Blackadder

/-- One identifier fragment of `PURSUIT_ID_LEN` bytes. -/
abbrev Fragment : Type := Vector UInt8 8

/-- Identifiers are strings made of whole fragments. -/
abbrev ID : Type := List Fragment

/-- `remoteHostID` and `gc->nodeID`. Both are strings of whole fragments as well. -/
abbrev NodeID : Type := List Fragment

/-- `substring(length() - PURSUIT_ID_LEN, PURSUIT_ID_LEN)`, empty for an empty identifier. -/
def lastFragment (id : ID) : ID := id.drop (id.length - 1)

/-- `substring(0, length() - PURSUIT_ID_LEN)`, empty for an empty identifier. -/
def fatherID (id : ID) : ID := id.dropLast

/-- `substring(0, PURSUIT_ID_LEN)`. -/
def rootFragment (id : ID) : ID := id.take 1

@[simp] theorem lastFragment_append_singleton (path : ID) (frag : Fragment) :
    lastFragment (path ++ [frag]) = [frag] := by
  simp [lastFragment]

theorem rootFragment_append (path suffix : ID) (inner : path ≠ []) :
    rootFragment (path ++ suffix) = rootFragment path := by
  obtain ⟨first, rest, rfl⟩ := List.exists_cons_of_ne_nil inner
  rfl

/-- A fragment that is zero but for its last byte. -/
def smallFragment (byte : UInt8) : Fragment := #v[0, 0, 0, 0, 0, 0, 0, byte]

/-- The identifier of such fragments. -/
def smallID (bytes : List UInt8) : ID := bytes.map smallFragment

/-- `enum Strategies`; a request may carry any byte. -/
abbrev Strategy : Type := UInt8

namespace Strategy

def linkLocal : Strategy := 1
def domainLocal : Strategy := 2
def implicitRendezvous : Strategy := 3
def broadcastIf : Strategy := 4
def nodeLocal : Strategy := 5

end Strategy

/-- The request and notification types of the platform that the models use. -/
inductive MessageType where
  | publishScope | publishInfo | unpublishScope | unpublishInfo
  | subscribeScope | subscribeInfo | unsubscribeScope | unsubscribeInfo
  | publishData | publishDataISub | disconnect | disconnected | reconnected
  | updateRvFid | updateTmFid
  | startPublish | stopPublish | scopePublished | scopeUnpublished | publishedData
  | matchPubSubs | rvResponse | updateFid | updatePublish
  | publishedDataISub | matchPubISubs | publishDataIMulticast | updateFidISub
  | rePublish | pausePublish | resumePublish | startPublishISub | stopPublishISub
  | controlReqFailure
  deriving DecidableEq, Repr

def MessageType.code : MessageType → UInt8
  | publishScope => 0
  | publishInfo => 1
  | unpublishScope => 2
  | unpublishInfo => 3
  | subscribeScope => 4
  | subscribeInfo => 5
  | unsubscribeScope => 6
  | unsubscribeInfo => 7
  | publishData => 8
  | publishDataISub => 9
  | disconnect => 11
  | disconnected => 14
  | reconnected => 15
  | updateRvFid => 55
  | updateTmFid => 56
  | startPublish => 100
  | stopPublish => 101
  | scopePublished => 102
  | scopeUnpublished => 103
  | publishedData => 104
  | matchPubSubs => 105
  | rvResponse => 106
  | updateFid => 107
  | updatePublish => 108
  | publishedDataISub => 109
  | matchPubISubs => 110
  | publishDataIMulticast => 111
  | updateFidISub => 112
  | rePublish => 113
  | pausePublish => 114
  | resumePublish => 115
  | startPublishISub => 116
  | stopPublishISub => 117
  | controlReqFailure => 158

/-- `enum root_namespaces_t` as far as the rendezvous element uses it. -/
def namespaceIp : UInt8 := 0
def namespaceHttp : UInt8 := 1
def namespaceUnknown : UInt8 := 14

/-- `gc->IP_ROOTSCOPE`, `gc->HTTP_ROOTSCOPE` and the wildcard item `gc->HTTP_DEFAULT_IID`. -/
def ipRootScope : ID := [smallFragment 0]
def httpRootScope : ID := [smallFragment 1]
def httpDefaultIid : ID := httpRootScope ++ [smallFragment 0]

end Blackadder
