import Blackadder.Library.Custody
import Blackadder.Proxy.Run

namespace Blackadder.Proxy

open Program

/-- Nothing is done with any packet. -/
def Idle (s s' : LocalProxy) : Prop := s'.uses = s.uses

instance : Std.Refl Idle := ⟨fun _ => rfl⟩

instance : Trans Idle Idle Idle := ⟨fun first second => Eq.trans second first⟩

section

variable {type : MessageType} {host : Ptr} {id : ID}

theorem deref_idle : Respects Idle (deref host) :=
  .bind .read fun _ => .expect

theorem assign_idle {change : LocalHost → LocalHost} : Respects Idle (assign host change) :=
  .bind deref_idle fun _ => .update fun _ => rfl

theorem assignNode_idle (nid : NodeID) (change : ActiveNode → ActiveNode) :
    Respects Idle (assignNode nid change) :=
  .update fun _ => rfl

theorem publicationAt_idle : Respects Idle (publicationAt id) :=
  .bind .read fun _ => .expect

theorem subscriptionAt_idle : Respects Idle (subscriptionAt id) :=
  .bind .read fun _ => .expect

theorem sendNotificationLocally_idle (type : MessageType) (host : Ptr) (id : ID) :
    Respects Idle (sendNotificationLocally type host id) :=
  .bind deref_idle fun _ => .update fun _ => rfl

theorem withdrawFromRV_idle {fullID : ID} {rvFid : BABitvector} {strat : Strategy} :
    Respects Idle (withdrawFromRV type fullID rvFid strat) :=
  .bind (.bind .read fun _ => .pure) fun _ => .update fun _ => rfl

end

section

variable {pub sub : Ptr} {id name : ID} {strat : Strategy} {rvFid : BABitvector} {isScope : Bool}

theorem leavePublication_idle : Respects Idle (leavePublication pub id name) :=
  .bind assign_idle fun _ => .bind (.update fun _ => rfl) fun _ =>
    .bind publicationAt_idle fun _ =>
      .ite (.bind (.update fun _ => rfl) fun _ => .pure) .pure

theorem leaveSubscription_idle : Respects Idle (leaveSubscription sub id name) :=
  .bind assign_idle fun _ => .bind (.update fun _ => rfl) fun _ =>
    .bind subscriptionAt_idle fun _ =>
      .ite (.bind (.update fun _ => rfl) fun _ => .pure) .pure

theorem removeActivePublication_idle : Respects Idle (removeActivePublication pub id strat) := by
  refine .ite (.bind .read fun found => ?_) .pure
  split
  · exact .pure
  · exact .ite leavePublication_idle .pure

theorem removeActiveSubscription_idle : Respects Idle (removeActiveSubscription sub id strat) := by
  refine .bind .read fun found => ?_
  split
  · exact .pure
  · exact .ite (.bind leaveSubscription_idle fun _ => .pure) .pure

variable [IterationOrder]

theorem joinPublication_idle : Respects Idle (joinPublication pub id) :=
  .bind (.update fun _ => rfl) fun _ => assign_idle

theorem storeActivePublication_idle :
    Respects Idle (storeActivePublication pub id strat rvFid isScope) := by
  refine .ite (.bind .read fun found => ?_) .pure
  split
  · exact .bind (.update fun _ => rfl) fun _ => .bind joinPublication_idle fun _ => .pure
  · exact .ite .pure (.ite (.bind joinPublication_idle fun _ => .pure) .pure)

theorem newSubscription_idle : Respects Idle (newSubscription sub id strat rvFid isScope) :=
  .bind (.update fun _ => rfl) fun _ => .bind (.update fun _ => rfl) fun _ =>
    assign_idle

theorem storeActiveSubscription_idle :
    Respects Idle (storeActiveSubscription sub id strat rvFid isScope) := by
  refine .bind .read fun found => ?_
  split
  · refine .bind newSubscription_idle fun _ => ?_
    exact .ite (.bind newSubscription_idle fun _ => .pure) .pure
  · refine .ite (.bind (.update fun _ => rfl) fun _ =>
      .bind assign_idle fun _ => .ite ?_ .pure) .pure
    exact .bind subscriptionAt_idle fun _ => .bind (.update fun _ => rfl) fun _ => .pure

theorem handleLocalRequest_idle {host : Ptr} {req : Wire.Request} {rvFid : BABitvector} :
    Respects Idle (handleLocalRequest host req rvFid) :=
  .ite storeActivePublication_idle <| .ite storeActivePublication_idle <|
  .ite removeActivePublication_idle <| .ite removeActivePublication_idle <|
  .ite storeActiveSubscription_idle <| .ite storeActiveSubscription_idle <|
  .ite removeActiveSubscription_idle <| .ite removeActiveSubscription_idle <|
  .ite storeActiveSubscription_idle .pure

end

section

variable {pub sub host : Ptr} {id : ID}

theorem dropScopePublication_idle : Respects Idle (dropScopePublication pub id) :=
  .bind publicationAt_idle fun _ =>
    .ite (.bind leavePublication_idle fun _ =>
      .ite withdrawFromRV_idle .pure) .pure

theorem dropSubscription_idle {type : MessageType} {sub : Ptr} {id : ID}
    {as : ActiveSubscription} : Respects Idle (dropSubscription type sub id as) :=
  .bind leaveSubscription_idle fun _ => .ite withdrawFromRV_idle .pure

theorem dropItemSubscription_idle : Respects Idle (dropItemSubscription sub id) :=
  .bind subscriptionAt_idle fun _ => .ite .pure dropSubscription_idle

theorem dropScopeSubscription_idle : Respects Idle (dropScopeSubscription sub id) :=
  .bind subscriptionAt_idle fun _ => .ite dropSubscription_idle .pure

theorem maxLevel_idle {isScope : ID → LP Bool} (reads : ∀ id, Respects Idle (isScope id))
    (ids : List ID) : Respects Idle (maxLevel isScope ids) :=
  .foldlM fun _ id => .bind (reads id) fun _ => .pure

theorem sweepLevels_idle {listed : LP (List ID)} {visit : ID → LP Unit}
    (reads : Respects Idle listed) (visits : ∀ id, Respects Idle (visit id)) (level : Nat) :
    Respects Idle (sweepLevels listed visit level) := by
  induction level with
  | zero => exact .pure
  | succ level ih =>
    exact .bind reads fun ids => .bind (.forM fun id => .ite (visits id) .pure) fun _ => ih

theorem forgetHost_idle : Respects Idle (forgetHost host) :=
  .bind deref_idle fun _ => .update fun _ => rfl

theorem notifyNext_idle : Respects Idle (notifyNext id) :=
  .bind publicationAt_idle fun _ => .bind .expect fun _ =>
    .bind (.update fun _ => rfl) fun _ => sendNotificationLocally_idle _ _ _

theorem dropItemPublication_idle : Respects Idle (dropItemPublication pub id) :=
  .bind publicationAt_idle fun _ => .ite .pure <|
    .bind leavePublication_idle fun _ =>
      .ite withdrawFromRV_idle (.ite notifyNext_idle .pure)

theorem disconnect_idle : Respects Idle (disconnect host) :=
  .bind (.bind deref_idle fun _ => .forM fun _ => dropItemPublication_idle) fun _ =>
  .bind (.bind deref_idle fun _ => .forM fun _ => dropItemSubscription_idle) fun _ =>
  .bind (.bind deref_idle fun _ =>
    .bind (maxLevel_idle (fun _ => .bind publicationAt_idle fun _ => .pure) _) fun _ =>
      sweepLevels_idle (.bind deref_idle fun _ => .pure)
        (fun _ => dropScopePublication_idle) _) fun _ =>
  .bind (.bind deref_idle fun _ =>
    .bind (maxLevel_idle (fun _ => .bind subscriptionAt_idle fun _ => .pure) _) fun _ =>
      sweepLevels_idle (.bind deref_idle fun _ => .pure)
        (fun _ => dropScopeSubscription_idle) _) fun _ => forgetHost_idle

end

section

variable {ids : List ID} {lid : Wire.Fid} {id : ID}

theorem storeFid_idle {fid : BABitvector} : Respects Idle (storeFid ids fid) :=
  .forM fun _ => .update fun _ => rfl

theorem startFirst_idle (id : ID) : Respects Idle (startFirst id) := by
  refine .bind .read fun found => ?_
  split
  · exact .bind (.update fun _ => rfl) fun _ => sendNotificationLocally_idle _ _ _
  · exact .pure

theorem stopStarted_idle : Respects Idle (stopStarted ids id) := by
  refine .bind .read fun found => ?_
  split
  · refine .bind (.update fun _ => rfl) fun _ => .forM fun host => .ite ?_ .pure
    exact .bind (.update fun _ => rfl) fun _ => sendNotificationLocally_idle _ _ _
  · exact .pure

theorem invalidate_idle : Respects Idle (invalidate lid id) := by
  refine .bind publicationAt_idle fun ap => ?_
  split
  · exact .ite (.update fun _ => rfl) .pure
  · exact .pure

theorem pause_idle : Respects Idle (pause id) :=
  .bind publicationAt_idle fun _ => .ite .pure (.update fun _ => rfl)

theorem resume_idle : Respects Idle (resume id) :=
  .bind publicationAt_idle fun _ => .ite .pure <| .forM fun _ =>
    .ite (.bind (.update fun _ => rfl) fun _ => .bind .expect fun _ =>
      sendNotificationLocally_idle _ _ _) .pure

variable [IterationOrder]

theorem updateStates_idle {state : UInt8} : Respects Idle (updateStates state) :=
  .bind .read fun _ => .bind .read fun _ =>
    .ite (.bind (.update fun _ => rfl) fun _ => .bind (.forM fun _ => pause_idle) fun _ =>
      .forM fun _ => assignNode_idle _ _) <|
    .ite (.bind (.forM fun _ => resume_idle) fun _ => .ite (.update fun _ => rfl) .pure)
      .pure

end

open Custody List Use

def Use.event : Use → Event Handle
  | .look p => { touched := p }
  | .clone p copy => { touched := p, copy := some copy }
  | .kill p | .handOn p => { touched := p, spends := true }

/-- The packet and each copy are given back or handed on once, and not touched afterwards. -/
def Consumed (uses : List Use) : Prop := Linear .given (uses.map Use.event)

/-- The uses from number `start` on settle the packet. -/
def Settled (start : Nat) (log : List Use) : Prop :=
  Settles Handle.copy .given start (log.map Use.event)

/-- Whether the packet is settled, as the case may be. -/
def Verdict (good : Prop) (start : Nat) (log : List Use) : Prop :=
  (good → Settled start log) ∧ (¬ good → spentOnce .given (log.map Use.event) = false)

theorem Verdict.good {good : Prop} {start : Nat} {log : List Use} (is : good)
    (hs : Settled start log) : Verdict good start log :=
  ⟨fun _ => hs, absurd is⟩

variable {good : Prop} {start : Nat} {log : List Use}

theorem Verdict.bad (isNot : ¬ good) (unspent : spentOnce .given (log.map event) = false) :
    Verdict good start log :=
  ⟨fun is => absurd is isNot, fun _ => unspent⟩

theorem Verdict.consumed_iff (verdict : Verdict good start log) : Consumed log ↔ good := by
  constructor
  · intro consumed
    by_contra isNot
    have once : spentOnce .given (log.map event) = true := consumed.once
    rw [verdict.2 isNot] at once
    cases once
  · exact fun is => (verdict.1 is).toLinear

theorem settled_of_looks {looks : List Use} (only : ∀ use ∈ looks, use = .look .given)
    (hs : Settled start log) : Settled start (looks ++ log) := by
  induction looks with
  | nil => exact hs
  | cons use rest ih =>
    rw [only use mem_cons_self]
    exact Settles.look (ih fun other hi => only other (mem_cons_of_mem _ hi)) rfl rfl
      rfl

section

variable {α β : Type} {expected : Nat → List Use → Prop} {s : LocalProxy} {p : Packet}

/-- What a handler does with packets, as it depends on how much has been done before. -/
def LogsFrom (s : LocalProxy) (expected : Nat → List Use → Prop) (m : LP α) : Prop :=
  wp m (fun _ s' => ∃ log, s'.uses = s.uses ++ log ∧ expected s.uses.length log) (fun _ => True) s

def Logs (expected : Nat → List Use → Prop) (m : LP α) : Prop := ∀ s, LogsFrom s expected m

variable {m : LP α} {remote : Packet → LP Unit} {next : LP Unit}

theorem LogsFrom.mono {expected' : Nat → List Use → Prop} (logs : LogsFrom s expected m)
    (weaker : ∀ log, expected s.uses.length log → expected' s.uses.length log) :
    LogsFrom s expected' m := by
  refine wp_post logs ?_
  rintro _ s' ⟨log, uses, is⟩
  exact ⟨log, uses, weaker log is⟩

theorem LogsFrom.idle (idle : Respects Idle m) (nothing : expected s.uses.length []) :
    LogsFrom s expected m := by
  refine wp_post (idle s) fun _ s' same => ⟨[], ?_, nothing⟩
  rw [append_nil]
  exact same

namespace Logs

variable {m : LP β} {next : β → LP α}

theorem afterIdle (idle : Respects Idle m) (logs : ∀ val, Logs expected (next val)) :
    Logs expected (m >>= next) := by
  intro s
  rw [LogsFrom]
  refine wp_seq (idle s) fun val s1 same => ?_
  have later := logs val s1
  rw [LogsFrom, show s1.uses = s.uses from same] at later
  exact later

theorem thenIdle (logs : Logs expected m) (idle : ∀ val, Respects Idle (next val)) :
    Logs expected (m >>= next) := by
  intro s
  rw [LogsFrom]
  refine wp_seq (logs s) fun val s1 logged => ?_
  refine wp_post (idle val s1) fun _ s2 same => ?_
  rw [show s2.uses = s1.uses from same]
  exact logged

theorem verdict {m : LP α} (is : good) (hs : Logs Settled m) : LogsFrom s (Verdict good) m :=
  (hs s).mono fun _ => Verdict.good is

theorem verdictAfterLook {m : LP α} (hg : p.handle = .given)
    (logs : LogsFrom { s with uses := s.uses ++ [.look p.handle] } (Verdict good) m) :
    LogsFrom s (Verdict good) (look p >>= fun _ => m) := by
  refine wp_post logs ?_
  rintro _ s' ⟨log, uses, settles, unsettled⟩
  refine ⟨.look p.handle :: log, ?_, fun is => ?_, fun isNot => ?_⟩
  · rw [uses, append_assoc]
    rfl
  · refine Settles.look ((settles is).mono ?_) hg rfl rfl
    rw [length_append]
    exact Nat.le_add_right _ _
  · rw [map_cons, spentOnce_cons (by rintro ⟨-, ⟨⟩⟩)]
    exact unsettled isNot

theorem afterLook {m : LP α} (hg : p.handle = .given) (logs : Logs Settled m) :
    Logs Settled (look p >>= fun _ => m) := by
  intro s
  have verdict : LogsFrom s (Verdict True) (look p >>= fun _ => m) :=
    verdictAfterLook hg (verdict trivial logs)
  exact verdict.mono fun _ is => is.1 trivial

theorem ite {test : Prop} [Decidable test] {yes no : LP α} (whenTrue : test → Logs expected yes)
    (whenFalse : ¬ test → Logs expected no) : Logs expected (if test then yes else no) := by
  split
  · rename_i is
    exact whenTrue is
  · rename_i isNot
    exact whenFalse isNot

end Logs

/-- A handler that spends its packet and touches no other. -/
def Disposes (p : Packet) (m : LP Unit) : Prop :=
  Logs (fun _ log => spentOnce p.handle (log.map Use.event) = true ∧
    ∀ use ∈ log, use.event.touched = p.handle ∧ use.event.copy = none) m

theorem kill_disposes (p : Packet) : Disposes p (kill p) := by
  intro s
  refine ⟨[.kill p.handle], rfl, ?_, ?_⟩
  · simp [spentOnce, event]
  · intro use hm
    rw [mem_singleton.mp hm]
    exact ⟨rfl, rfl⟩

theorem handOn_disposes (p : Packet) (pkt : Out) : Disposes p (handOn p pkt) := by
  intro s
  refine ⟨[.handOn p.handle], rfl, ?_, ?_⟩
  · simp [spentOnce, event]
  · intro use hm
    rw [mem_singleton.mp hm]
    exact ⟨rfl, rfl⟩

theorem pushDataToLocalSubscriber_disposes (host : Ptr) (id : ID) (p : Packet)
    (apiType : MessageType) : Disposes p (pushDataToLocalSubscriber host id p apiType) :=
  Logs.afterIdle deref_idle fun _ => handOn_disposes p _

theorem pushTypedDataToRemoteSubscribers_disposes (ids : List ID) (fid : BABitvector) (p : Packet) :
    Disposes p (pushTypedDataToRemoteSubscribers ids .publishData fid p) := by
  intro s
  refine ⟨[.look p.handle, .kill p.handle], ?_, ?_, ?_⟩
  · exact append_assoc _ _ _
  · simp [spentOnce, event]
  · intro use hm
    rcases mem_pair.mp hm with rfl | rfl
    · exact ⟨rfl, rfl⟩
    · exact ⟨rfl, rfl⟩

theorem Disposes.settles {m : LP Unit} (hg : p.handle = .given) (hd : Disposes p m) :
    Logs Settled m := by
  intro s
  refine wp_post (hd s) ?_
  rintro _ s' ⟨log, uses, once, own⟩
  rw [hg] at once own
  exact ⟨log, uses, .own once (forall_mem_map.mpr own)⟩

theorem kill_settles (hg : p.handle = .given) : Logs Settled (kill p) :=
  (kill_disposes p).settles hg

theorem clone_settles (hg : p.handle = .given) (hd : ∀ copy, Disposes copy (remote copy))
    (settles : Logs Settled next) : Logs Settled (do let copy ← clone p; remote copy; next) := by
  intro s
  simp only [LogsFrom, clone, wp_bind, wp_read, note, wp_update, wp_pure]
  refine wp_post (hd _ _) ?_
  rintro _ s1 ⟨before, uses, once, own⟩
  refine wp_post (settles _) ?_
  rintro _ s2 ⟨after, uses', hs⟩
  refine ⟨.clone p.handle (.copy s.uses.length) :: (before ++ after), ?_, ?_⟩
  · rw [uses', uses]
    simp
  rw [Settled, map_cons, map_append]
  refine Settles.copy (fun _ _ same => Handle.copy.inj same) (fun _ => Handle.noConfusion)
    (hs.mono ?_) once (forall_mem_map.mpr own) hg rfl rfl
  rw [uses]
  simp only [length_append, length_singleton]
  omega

theorem pushCopy_settles (fid : BABitvector) (hg : p.handle = .given)
    (hd : ∀ copy, Disposes copy (remote copy)) (settles : Logs Settled next) :
    Logs Settled (do pushCopy fid p remote; next) := by
  unfold pushCopy
  rw [bind_assoc]
  refine Logs.afterIdle .read fun tmFid => ?_
  split
  · rw [pure_bind]
    exact settles
  · rw [bind_assoc]
    exact clone_settles hg hd settles

/-- The last subscriber gets the packet itself. -/
theorem deliver_settles (apiType : MessageType) (hg : p.handle = .given)
    {subs : List (Ptr × ID)} (some : subs ≠ []) : Logs Settled (deliver p apiType subs) := by
  fun_induction deliver p apiType subs with
  | case1 => exact absurd rfl some
  | case2 host id => exact (pushDataToLocalSubscriber_disposes host id p apiType).settles hg
  | case3 host id next rest ih =>
    exact clone_settles hg (fun copy => pushDataToLocalSubscriber_disposes host id copy apiType)
      (ih (cons_ne_nil _ _))

end

section

variable [IterationOrder] {p : Packet} {s : LocalProxy}

theorem handleNetworkPublication_settles (ids : List ID) (apiType : MessageType)
    (hg : p.handle = .given) : Logs Settled (handleNetworkPublication ids p apiType) := by
  refine Logs.afterIdle .read fun subs => Logs.ite (fun hp => ?_) fun _ => ?_
  · refine deliver_settles apiType hg ?_
    intro none
    rw [map_eq_nil_iff] at none
    rw [HashTable.size, HashTable.keys, AList.keys, none] at hp
    exact Nat.lt_irrefl 0 hp
  · exact kill_settles hg

theorem processTMNotification_settles (hg : p.handle = .given) :
    Logs Settled (processTMNotification p) :=
  Logs.afterLook hg <| Logs.thenIdle (kill_settles hg) fun _ =>
    .bind .read fun _ => .bind (.forM fun _ => invalidate_idle) fun _ =>
      .bind .read fun _ => .bind (affectedNodes_respects _ _) fun _ =>
        .ite (.update fun _ => rfl) .pure

/-- `handleRVNotification` looks at the packet and leaves it to its caller. -/
theorem handleRVNotification_settles (hg : p.handle = .given) :
    Logs Settled (do handleRVNotification p; kill p) := by
  unfold handleRVNotification
  refine Logs.afterLook hg (Logs.afterIdle ?_ fun _ => kill_settles hg)
  refine .ite (notifyScopeSubscribers_respects sendNotificationLocally_idle _ _) <|
    .ite (notifyScopeSubscribers_respects sendNotificationLocally_idle _ _) <|
    .ite (.bind storeFid_idle fun _ => .forM startFirst_idle) <|
    .ite (.bind storeFid_idle fun _ => .forM (updateFirst_respects sendNotificationLocally_idle)) <|
    .ite (.update fun _ => rfl) <| .ite (.update fun _ => rfl) <|
    .ite (.forM fun _ => stopStarted_idle) <|
    .ite (.forM fun _ => updateNode_respects sendNotificationLocally_idle assignNode_idle _ _) .pure

theorem handleImplicitPublication_settles (id : ID) (fid : BABitvector) (host : Ptr)
    (apiType : MessageType) {remote : List ID → Packet → LP Unit} (hg : p.handle = .given)
    (hd : ∀ ids copy, Disposes copy (remote ids copy)) :
    Logs Settled (handleImplicitPublication id fid p host apiType remote) := by
  refine Logs.afterIdle (augmentedIDs_respects id) fun ids =>
    Logs.afterIdle (otherSubscribers_respects ids host id) fun subs =>
      Logs.ite (fun _ => (hd ids p).settles hg) fun some => ?_
  refine pushCopy_settles fid hg (hd ids) (deliver_settles apiType hg ?_)
  rintro rfl
  exact some rfl

end

end Blackadder.Proxy
