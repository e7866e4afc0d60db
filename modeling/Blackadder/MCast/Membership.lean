import Blackadder.Library.Program
import Std.Data.TreeMap
import Mathlib.Data.List.Induction

namespace Blackadder.MCast

open Std (TreeMap)
open Program

inductive Mutex
  | buffer
  | ctrlFwdState
  | dataFwdState
  | sNapCounter
deriving DecidableEq

inductive Fault
  /-- A thread waits for a mutex that it holds itself. -/
  | deadlock (mutex : Mutex)
  /-- A mutex is given back that is not held. -/
  | notHeld (mutex : Mutex)
  /-- A null pointer is used as the address of a group. -/
  | noAddress
  /-- The end of a map is used as an entry. -/
  | atEnd
deriving DecidableEq

/-- The type of scope that an identifier stands in. -/
inductive Scope
  | ctrl
  | data
  | unknown
deriving DecidableEq

structure State where
  held : Mutex → Bool
  packetBuffer : TreeMap UInt32 (List UInt8)
  ctrlFwdState : TreeMap UInt32 Bool
  dataFwdState : TreeMap UInt32 Bool
  isServerNAP : Bool
  published : List (UInt32 × List UInt8)

def lock (mutex : Mutex) : Program State Fault Unit := do
  if ← read (·.held mutex) then fail (.deadlock mutex)
  update fun s => { s with held := fun other => other = mutex || s.held other }

def unlock (mutex : Mutex) : Program State Fault Unit := do
  if !(← read (·.held mutex)) then fail (.notHeld mutex)
  update fun s => { s with held := fun other => other ≠ mutex && s.held other }

def publish (cid : UInt32) (packet : List UInt8) : Program State Fault Unit :=
  update fun s => { s with published := s.published ++ [(cid, packet)] }

def deleteBufferedPacket (cid : UInt32) : Program State Fault Unit := do
  lock .buffer
  update fun s => { s with packetBuffer := s.packetBuffer.erase cid }
  unlock .buffer

def igmpLeaveGroup : UInt8 := 0x17

/-- `_tryClearCNapStateFor(packet, &cid)`, where the address of the group is left out. -/
def tryClearCNapStateFor (packet : List UInt8) : Program State Fault Unit := do
  if packet.head? = some igmpLeaveGroup then fail .noAddress

def startPublishFromCtrlBuffer (ctrlCID : UInt32) : Program State Fault Unit := do
  lock .buffer
  let found ← read (·.packetBuffer[ctrlCID]?)
  unlock .buffer
  match found with
  | none => return
  | some packet =>
    lock .ctrlFwdState
    if ← expect .atEnd (← read (·.ctrlFwdState[ctrlCID]?)) then
      unlock .ctrlFwdState
      lock .buffer
      unlock .buffer
      publish ctrlCID packet
      tryClearCNapStateFor packet
      deleteBufferedPacket ctrlCID
    unlock .ctrlFwdState

/-- `_tryPublishData(cid, packet, size)`, without the nodes and the address of the group. -/
def tryPublishData : Program State Fault Unit := do
  lock .sNapCounter
  fail .noAddress

def publishFromDataBuffer (dataCID : UInt32) : Program State Fault Unit := do
  lock .buffer
  match ← read (·.packetBuffer[dataCID]?) with
  | none => unlock .buffer
  | some _ =>
    lock .dataFwdState
    if ← expect .atEnd (← read (·.dataFwdState[dataCID]?)) then
      lock .buffer
      unlock .buffer
      tryPublishData
      deleteBufferedPacket dataCID
    unlock .dataFwdState
    unlock .buffer

def forwardingData (dataCID : UInt32) (state : Bool) : Program State Fault Unit := do
  lock .dataFwdState
  let _ ← expect .atEnd (← read (·.dataFwdState[dataCID]?))
  update fun s => { s with dataFwdState := s.dataFwdState.insert dataCID state }
  unlock .dataFwdState

def handleSTART_PUBLISH (scope : Scope) (icnId : UInt32) : Program State Fault Unit := do
  if scope = .ctrl then startPublishFromCtrlBuffer icnId

def handleSTART_PUBLISH_iSUB (scope : Scope) (rCId : UInt32) : Program State Fault Unit := do
  if scope = .data ∧ (← read (·.isServerNAP)) then
    forwardingData rCId true
    publishFromDataBuffer rCId

/-- The packet is published once and leaves the buffer, and all mutexes are given back. -/
def Flushes (handler : Program State Fault Unit) (cid : UInt32) (packet : List UInt8) (s : State) :
    Prop :=
  ∃ s', handler s = .ok ((), s') ∧ s'.published = s.published ++ [(cid, packet)] ∧
    s'.packetBuffer = s.packetBuffer.erase cid ∧ s'.held = s.held

variable {s : State} {cid : UInt32} {packet : List UInt8} (free : ∀ mutex, s.held mutex = false)
  (buffered : s.packetBuffer[cid]? = some packet)

include free buffered

/-- A leave message needs the address, and for another one a mutex is given back twice. -/
theorem handleSTART_PUBLISH_fails (enabled : s.ctrlFwdState[cid]? = some true) :
    wp (handleSTART_PUBLISH .ctrl cid) (fun _ _ => False)
      (· = if packet.head? = some igmpLeaveGroup then .noAddress else .notHeld .ctrlFwdState)
        s := by
  simp [handleSTART_PUBLISH, startPublishFromCtrlBuffer, lock, unlock, wp_fail, publish,
    tryClearCNapStateFor, deleteBufferedPacket, free, buffered, enabled]

theorem handleSTART_PUBLISH_iSUB_fails (server : s.isServerNAP = true)
    (known : cid ∈ s.dataFwdState) :
    wp (handleSTART_PUBLISH_iSUB .data cid) (fun _ _ => False) (· = .deadlock .buffer) s := by
  simp [handleSTART_PUBLISH_iSUB, forwardingData, publishFromDataBuffer, lock, unlock, wp_fail,
    free, buffered, server, TreeMap.getElem?_eq_some_getElem known]

/-- No packet is ever flushed as it should be. -/
theorem never_flushes :
    (s.ctrlFwdState[cid]? = some true → ¬ Flushes (handleSTART_PUBLISH .ctrl cid) cid packet s) ∧
    (s.isServerNAP = true → cid ∈ s.dataFwdState →
      ¬ Flushes (handleSTART_PUBLISH_iSUB .data cid) cid packet s) := by
  constructor
  · rintro enabled ⟨s', returns, -⟩
    exact wp_ok (handleSTART_PUBLISH_fails free buffered enabled) returns
  · rintro server known ⟨s', returns, -⟩
    exact wp_ok (handleSTART_PUBLISH_iSUB_fails free buffered server known) returns

omit free buffered

/-- A report and a leave message are buffered, and data. -/
def waiting : State where
  held := fun _ => false
  packetBuffer := ((TreeMap.empty.insert 1 [0x16]).insert 2 [0x17]).insert 3 [0]
  ctrlFwdState := (TreeMap.empty.insert 1 true).insert 2 true
  dataFwdState := TreeMap.empty.insert 3 false
  isServerNAP := true
  published := []

theorem never_flushes_waiting : ¬ Flushes (handleSTART_PUBLISH .ctrl 1) 1 [0x16] waiting :=
  (never_flushes (fun _ => rfl) rfl).1 rfl

/-- A mutex that is not held for the report, a null pointer for the leave, a deadlock for data. -/
theorem waiting_fails : handleSTART_PUBLISH .ctrl 1 waiting = .error (.notHeld .ctrlFwdState) ∧
    handleSTART_PUBLISH .ctrl 2 waiting = .error .noAddress ∧
    handleSTART_PUBLISH_iSUB .data 3 waiting = .error (.deadlock .buffer) :=
  ⟨rfl, rfl, rfl⟩

open List Function Option

inductive IgmpType
  | v1Report
  | v2Report
  | leave
  | other

/-- A message to the server. Its repetitions are not counted. -/
inductive ToServer
  | report
  | leave
deriving DecidableEq

structure SNap where
  counterOfCNapIDs : UInt32 → Option (List String)
  /-- The groups for which a detached thread is to send a report. -/
  threads : List UInt32
  /-- What has been sent for a group, the last message first. -/
  sent : UInt32 → List ToServer

namespace SNap

/-- Groups that nobody has joined. -/
def initial (known : UInt32 → Bool) : SNap :=
  ⟨fun group => if known group then some [] else none, [], fun _ => []⟩

variable (s : SNap) (group : UInt32) (cNapNodeId : String)

def incSNapCounterFor : SNap × Int :=
  match s.counterOfCNapIDs group with
  | some cNapNids =>
    if cNapNodeId ∈ cNapNids then (s, -1)
    else
      let cNapNids := cNapNids ++ [cNapNodeId]
      ({ s with counterOfCNapIDs := update s.counterOfCNapIDs group (some cNapNids) },
        cNapNids.length)
  | none => (s, -2)

def decrSNapCounterFor : SNap × Int :=
  match s.counterOfCNapIDs group with
  | some cNapNids =>
    if cNapNodeId ∈ cNapNids then
      let cNapNids := cNapNids.erase cNapNodeId
      ({ s with counterOfCNapIDs := update s.counterOfCNapIDs group (some cNapNids) },
        cNapNids.length)
    else (s, -1)
  | none => (s, -2)

def sNapToIPTVServer (type : ToServer) : SNap :=
  { s with sent := update s.sent group (type :: s.sent group) }

def handleCtrlPub_dataISub (type : IgmpType) : SNap :=
  match s.counterOfCNapIDs group, type with
  | none, _ => s
  | some _, .v1Report | some _, .v2Report =>
    let (s, counter) := s.incSNapCounterFor group cNapNodeId
    if counter = 1 then { s with threads := s.threads ++ [group] } else s
  | some _, .leave =>
    let (s, counter) := s.decrSNapCounterFor group cNapNodeId
    if counter = 0 then s.sNapToIPTVServer group .leave else s
  | some _, .other => s

/-- A message of a cNAP is handled, or one of the threads runs. -/
inductive Event
  | message (type : IgmpType) (group : UInt32) (cNapNodeId : String)
  | thread (index : Nat)

def step : Event → SNap
  | .message type group cNapNodeId => s.handleCtrlPub_dataISub group cNapNodeId type
  | .thread index =>
    match s.threads[index]? with
    | some group => { s with threads := s.threads.eraseIdx index }.sNapToIPTVServer group .report
    | none => s

def run (events : List Event) : SNap := events.foldl step s

/-- Reports and leaves alternate. The first message, which is the last one here, is a report. -/
def Alternating : List ToServer → Prop
  | [] => True
  | [type] => type = .report
  | type :: before :: rest => type ≠ before ∧ Alternating (before :: rest)

/-- The server has been told whether there are members. -/
def Told : Prop :=
  ∀ group cNapNids, s.counterOfCNapIDs group = some cNapNids →
    Alternating (s.sent group) ∧ ((s.sent group).head? = some .report ↔ cNapNids ≠ [])

/-- A thread that waits has only to run for the server to be told. -/
def Sound : Prop :=
  s.threads = [] ∧ s.Told ∨
    ∃ group, s.threads = [group] ∧ s.counterOfCNapIDs group ≠ none ∧
      (s.sNapToIPTVServer group .report).Told

variable {s group cNapNodeId} {s' : SNap} {log : List ToServer} {cNapNids : List String}

theorem alternating_report (h : Alternating log) (hn : log.head? ≠ some .report) :
    Alternating (.report :: log) := by
  cases log with
  | nil => rfl
  | cons => exact ⟨fun he => hn (by simp [← he]), h⟩

theorem alternating_leave (h : Alternating log) (hr : log.head? = some .report) :
    Alternating (.leave :: log) := by
  cases log with
  | nil => simp at hr
  | cons => exact ⟨fun he => by simp [← he] at hr, h⟩

/-- Only the group of the message matters. -/
theorem Told.set (h : s.Told)
    (ho : ∀ other, other ≠ group → s'.counterOfCNapIDs other = s.counterOfCNapIDs other ∧
      s'.sent other = s.sent other)
    (hc : s'.counterOfCNapIDs group = some cNapNids) (ha : Alternating (s'.sent group))
    (hl : (s'.sent group).head? = some .report ↔ cNapNids ≠ []) : s'.Told := by
  intro other nids hn
  by_cases he : other = group
  · subst he
    rw [hc] at hn
    cases hn
    exact ⟨ha, hl⟩
  · obtain ⟨hk, hs⟩ := ho other he
    rw [hs]
    exact h other nids (hk ▸ hn)

theorem Told.not_before (h : (s.sNapToIPTVServer group .report).Told)
    (hk : s.counterOfCNapIDs group ≠ none) : ¬ s.Told := by
  intro hs
  obtain ⟨cNapNids, hc⟩ := ne_none_iff_exists'.mp hk
  obtain ⟨ha, hl⟩ := h group cNapNids hc
  simp only [sNapToIPTVServer, update_self, head?_cons, true_iff] at ha hl
  have hr := (hs group cNapNids hc).2.mpr hl
  cases hg : s.sent group with
  | nil => simp [hg] at hr
  | cons =>
    simp only [hg, head?_cons, some.injEq] at hr
    rw [hg, hr] at ha
    exact ha.1 rfl

section

variable (h : s.Told) (ht : s.threads = []) (hc : s.counterOfCNapIDs group = some cNapNids)

include h ht hc

theorem Told.report :
    (let (s, ctr) := s.incSNapCounterFor group cNapNodeId
     if ctr = 1 then { s with threads := s.threads ++ [group] } else s).Sound := by
  obtain ⟨ha, hl⟩ := h group cNapNids hc
  by_cases hm : cNapNodeId ∈ cNapNids
  · have hs : s.Sound := .inl ⟨ht, h⟩
    simpa [incSNapCounterFor, hc, hm] using hs
  cases cNapNids with
  | nil =>
    -- The first member: a thread is to send the report.
    simp only [incSNapCounterFor, hc]
    refine .inr ⟨group, by simp [ht], by simp, h.set (fun other he => ?_) (update_self ..) ?_ ?_⟩
    · simp [sNapToIPTVServer, he]
    · simpa [sNapToIPTVServer] using alternating_report ha (by simp [hl])
    · simp [sNapToIPTVServer]
  | cons first others =>
    have hn : ((first :: others ++ [cNapNodeId]).length : Int) ≠ 1 := by simp; omega
    simp only [incSNapCounterFor, hc, hm, ↓reduceIte, hn]
    exact .inl ⟨ht, h.set (fun other he => by simp [he]) (update_self ..) ha (by simp [hl])⟩

theorem Told.leave :
    (let (s, ctr) := s.decrSNapCounterFor group cNapNodeId
     if ctr = 0 then s.sNapToIPTVServer group .leave else s).Sound := by
  obtain ⟨ha, hl⟩ := h group cNapNids hc
  by_cases hm : cNapNodeId ∈ cNapNids
  · have hr := hl.mpr (ne_nil_of_mem hm)
    by_cases he : cNapNids.erase cNapNodeId = []
    · simp only [decrSNapCounterFor, hc, hm, he]
      refine .inl ⟨ht, h.set (fun other he => ?_) (update_self ..) ?_ ?_⟩
      · simp [sNapToIPTVServer, he]
      · simpa [sNapToIPTVServer] using alternating_leave ha hr
      · simp [sNapToIPTVServer]
    · have hn : ((cNapNids.erase cNapNodeId).length : Int) ≠ 0 := by simp [he]
      simp only [decrSNapCounterFor, hc, hm, ↓reduceIte, hn]
      exact .inl ⟨ht, h.set (fun other he => by simp [he]) (update_self ..) ha (by simp [hr, he])⟩
  · have hs : s.Sound := .inl ⟨ht, h⟩
    simpa [decrSNapCounterFor, hc, hm] using hs

end

theorem Told.message (h : s.Told) (ht : s.threads = []) (type : IgmpType) :
    (s.handleCtrlPub_dataISub group cNapNodeId type).Sound := by
  unfold handleCtrlPub_dataISub
  split
  · exact .inl ⟨ht, h⟩
  · exact h.report ht ‹_›
  · exact h.report ht ‹_›
  · exact h.leave ht ‹_›
  · exact .inl ⟨ht, h⟩

theorem Sound.thread (h : s.Sound) (idx : Nat) : (s.step (.thread idx)).Sound := by
  cases hi : s.threads[idx]? with
  | none => simpa [step, hi] using h
  | some other =>
    obtain ⟨ht, -⟩ | ⟨group, ht, -, h⟩ := h
    · simp [ht] at hi
    cases idx with
    | zero =>
      simp only [ht] at hi
      have hs : (s.step (.thread 0)) = { s with threads := [] }.sNapToIPTVServer group .report := by
        simp [step, ht]
      exact hs ▸ .inl ⟨rfl, h⟩
    | succ idx => simp [ht] at hi

theorem Sound.told_iff (h : s.Sound) : s.Told ↔ s.threads = [] := by
  obtain ⟨ht, h⟩ | ⟨group, ht, hk, h⟩ := h
  · simp [h, ht]
  · simp [h.not_before hk, ht]

/-- The next event, if there is one, is a message. -/
def Rests (rest : List Event) : Prop :=
  ∀ index, rest.head? ≠ some (.thread index)

variable (known : UInt32 → Bool) {events before rest : List Event}

theorem sound_run (he : events = before ++ rest)
    (h : ∀ earlier later, earlier.length < before.length → events = earlier ++ later →
      Rests later → ((initial known).run earlier).threads = []) :
    ((initial known).run before).Sound := by
  induction before using List.reverseRecOn generalizing rest with
  | nil =>
    refine .inl ⟨rfl, fun group cNapNids hc => ⟨trivial, ?_⟩⟩
    simp only [run, foldl_nil, initial, ite_none_right_eq_some, some.injEq] at hc
    simp [run, initial, hc.2]
  | append_singleton before event ih =>
    rw [append_assoc] at he
    have hs := ih he fun earlier later hl => h earlier later (by simp; omega)
    simp only [run, foldl_append]
    cases event with
    | message type =>
      have ht := h before _ (by simp) he fun idx => by simp
      exact (hs.told_iff.mpr ht).message ht type
    | thread idx => exact hs.thread idx

/-- The server is told the truth iff the thread of a report has always run by the next message. -/
theorem told_iff_threads_run (events : List Event) :
    (∀ before rest, events = before ++ rest → Rests rest → ((initial known).run before).Told) ↔
      ∀ before rest, events = before ++ rest → Rests rest →
        ((initial known).run before).threads = [] := by
  constructor
  · intro h before
    induction hn : before.length using Nat.strongRecOn generalizing before with
    | ind n ih =>
      intro rest he hr
      have hs := sound_run known he fun earlier later hl => ih _ (hn ▸ hl) earlier rfl later
      exact hs.told_iff.mp (h before rest he hr)
  · intro h before rest he hr
    have hs := sound_run known he fun earlier later _ => h earlier later
    exact hs.told_iff.mpr (h before rest he hr)

theorem report_sent_after_leave :
    let s := (initial fun _ => true).run
      [.message .v2Report 1 "00000001", .message .leave 1 "00000001", .thread 0]
    s.counterOfCNapIDs 1 = some [] ∧ s.sent 1 = [.report, .leave] ∧ ¬ s.Told := by
  refine ⟨by decide, by decide, fun h => ?_⟩
  have := (h 1 [] (by decide)).2.mp (by decide)
  contradiction

end SNap

end Blackadder.MCast
