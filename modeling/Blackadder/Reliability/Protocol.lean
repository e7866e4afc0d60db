import Blackadder.Reliability.Encapsulation

namespace Blackadder.Reliability

open Program PendingLRU
open List hiding Vector

open Wire (Buffer fidLen)

variable {out : List Out} {hdr : Header}

section

variable {e e' : ControlReliability}

theorem wp_changeLRU {change : PendingLRU → Option PendingLRU}
    {post : Unit → ControlReliability → Prop} {fault : Fault → Prop} :
    wp (changeLRU change) post fault e ↔
      (∀ lru, change e.lru = some lru → post () { e with lru := lru }) ∧
        (change e.lru = none → fault .pointer) := by
  simp [changeLRU, wp_expect]

/-- Bytes that no receiver takes for a packet under the control reliability scope. -/
def Foreign (bytes : List UInt8) : Prop :=
    ∀ view : View, view.Shows 0 bytes → readControl view = none

variable {p : Buffer}

theorem pushFromForwarder_foreign (foreign : Foreign p.contents) : pushFromForwarder p e =
      .ok ((), { e with out := e.out ++ [.plain (p.pull fidLen).contents] }) := by
  have read := foreign p.data (shows_of_contents rfl).2
  simp [pushFromForwarder, read, bind, StateT.bind, Program.read, Except.bind, emit, Program.update]

/-- An acknowledgement takes away its pending request, and does nothing else. -/
theorem pushFromForwarder_ack (hg : p.contents = hdr.bytes) (answer : hdr.type = controlAck)
    (hp : pushFromForwarder p e = .ok ((), e')) : ∃ lru, e.lru.remove hdr.ackID = some lru ∧
      e' = { e with
        lru := lru
        acknowledged :=
          if hdr.ackID ∈ e.lru.objects then hdr.ackID :: e.acknowledged
          else e.acknowledged } := by
  have read := readControl_of_shows (hg ▸ (shows_of_contents rfl).2)
  have other : ¬ controlAck = controlRec := by decide
  have spec : wlp (pushFromForwarder p)
      (fun _ final => ∃ lru, e.lru.remove hdr.ackID = some lru ∧ final = { e with
          lru := lru
          acknowledged :=
            if hdr.ackID ∈ e.lru.objects then hdr.ackID :: e.acknowledged
            else e.acknowledged }) e := by
    simp only [pushFromForwarder, read, answer, if_neg other, if_true, wp_bind,
      wp_read, wp_changeLRU, id, wp_ite, wp_pure]
    refine ⟨fun lru hr => ⟨fun ht => ⟨lru, hr, ?_⟩, fun gone => ⟨lru, hr, ?_⟩⟩, fun _ => trivial⟩
    · rw [if_pos ht]
    · rw [if_neg gone]
  exact wp_ok spec hp

/-- The timer sends again what is pending, reports it as failed or does nothing. -/
theorem runTimer_cases [IterationOrder] {now : Nat} (ran : runTimer now e = .ok ((), e')) :
    ∃ lru out, e' = { e with lru := lru, out := e.out ++ out } ∧ lru.Within e.lru ∧
      ∀ bytes, .packet bytes ∈ out →
        ∃ ackID obj, e.lru.objects.get ackID = some obj ∧ bytes = obj.data := by
  have idle : ∃ lru out, e = { e with lru := lru, out := e.out ++ out } ∧ lru.Within e.lru ∧
      ∀ bytes, .packet bytes ∈ out →
        ∃ ackID obj, e.lru.objects.get ackID = some obj ∧ bytes = obj.data :=
    ⟨e.lru, [], by rw [append_nil], .refl _, nofun⟩
  have spec : wlp (runTimer now)
      (fun _ final => ∃ lru out, final = { e with lru := lru, out := e.out ++ out } ∧
        lru.Within e.lru ∧ ∀ bytes, .packet bytes ∈ out →
          ∃ ackID obj, e.lru.objects.get ackID = some obj ∧ bytes = obj.data) e := by
    simp only [runTimer, wp_bind, wp_ite, wp_expect, wp_changeLRU]
    refine ⟨fun _ => ⟨fun tail _ => ⟨fun _ => ⟨fun obj hf => ⟨fun _ => ?_, fun _ => ?_⟩,
      fun _ => trivial⟩, fun _ => idle⟩, fun _ => trivial⟩, fun _ => idle⟩
    · refine ⟨fun lru hr => ⟨lru, _, rfl, remove_within hr, ?_⟩, fun _ => trivial⟩
      intro bytes hm
      cases mem_singleton.mp hm
    refine ⟨fun lru updated => ⟨fun counted assigned => ⟨counted, _, rfl, ?_, ?_⟩,
      fun _ => trivial⟩, fun _ => trivial⟩
    · exact (assign_within assigned fun _ => rfl).trans (update_within updated)
    · intro bytes hm
      cases mem_singleton.mp hm
      exact ⟨tail, obj, hf, rfl⟩
  exact wp_ok spec ran

/-- The requests in what an element has pushed. -/
def requestsIn (out : List Out) : List AckID :=
  out.filterMap fun
    | .request ackID _ => some ackID
    | _ => none

theorem requestsIn_append (out more : List Out) :
    requestsIn (out ++ more) = requestsIn out ++ requestsIn more :=
  filterMap_append

theorem mem_requestsIn {ackID : AckID} :
    ackID ∈ requestsIn out ↔ ∃ bytes, .request ackID bytes ∈ out := by
  rw [requestsIn, mem_filterMap]
  constructor
  · rintro ⟨pushed, hm, hf⟩
    cases pushed with
    | request other bytes =>
      cases hf
      exact ⟨bytes, hm⟩
    | _ => cases hf
  · rintro ⟨bytes, hm⟩
    exact ⟨_, hm, rfl⟩

end

/-- Any number of senders and one receiver. Whatever has been pushed may still arrive, any number of
times and in any order. `requests` has the requests that have been sent so far. -/
structure System where
  senders : Nat → ControlReliability
  receiver : ControlReliability
  requests : List (AckID × List UInt8) := []

inductive Action where
  | submit (sender : Nat) (packet : ProxyPacket) (ackID : AckID) (stale stale' : View) (now : Nat)
  | forward (sender : Nat) (p : Buffer)
  | expire (sender : Nat) (now : Nat)
  | request (p : Buffer)
  | acknowledge (sender : Nat) (p : Buffer)

namespace System

def atSender (i : Nat) (m : CR Unit) : Program System Fault Unit := fun s =>
  (m (s.senders i)).map fun (_, e) => ((), { s with senders := Function.update s.senders i e })

def atReceiver (m : CR Unit) : Program System Fault Unit := fun s =>
  (m s.receiver).map fun (_, e) => ((), { s with receiver := e })

def perform [IterationOrder] : Action → Program System Fault Unit
  | .submit i packet ackID stale stale' now => do
    atSender i (pushFromProxy (.ofBytes packet.bytes) ackID stale stale' now)
    Program.update fun s => { s with requests := (ackID, packet.body) :: s.requests }
  | .forward i p => atSender i (pushFromProxy p 0 p.data p.data 0)
  | .expire i now => atSender i (runTimer now)
  | .request p => atReceiver (pushFromForwarder p)
  | .acknowledge i p => atSender i (pushFromForwarder p)

/-- A request has an `ackID` of its own, nothing else is under the control reliability scope, and
nothing arrives that has not been sent. -/
def Permits (s : System) : Action → Prop
  | .submit i packet ackID _ _ _ =>
    protects (s.senders i).gc (.ofBytes packet.bytes) = true ∧ ackID ∉ s.requests.map Prod.fst
  | .forward i p => protects (s.senders i).gc p = false ∧ Foreign p.contents
  | .expire _ _ => True
  | .request p => ∃ i, .packet p.contents ∈ (s.senders i).out
  | .acknowledge _ p => .packet p.contents ∈ s.receiver.out

/-- The requests that the receiver has handed to its proxy, in that order. -/
def deliveries (s : System) : List AckID := requestsIn s.receiver.out

/-- The receiver's table of identifiers has whatever was in that memory before. -/
def initial (confs : Nat → GlobalConf) (gc : GlobalConf)
    (tables : Nat → Vector AckID cprStateSize) (table : Vector AckID cprStateSize) : System where
  senders i := started (confs i) (tables i)
  receiver := started gc table

/-- A run, with the steps it consists of and the states they are taken in. -/
inductive Run [IterationOrder] (start : System) : List (System × Action) → System → Prop where
  | start : Run start [] start
  | step {trace : List (System × Action)} {s s' : System} {action : Action}
      (before : Run start trace s) (permitted : s.Permits action)
      (performed : perform action s = .ok ((), s')) : Run start ((s, action) :: trace) s'

/-- No request is, by chance, in a slot of the receiver's table that has never been written. -/
def Clear (table : Vector AckID cprStateSize) (s : System) : Action → Prop
  | .request p => ∀ control, readControl p.data = some control →
      control.ackID ∉ table.toList.drop s.deliveries.length
  | _ => True

end System

namespace System

section

/-- The packet of one of the requests. -/
def PacketOf (requests : List (AckID × List UInt8)) (ackID : AckID) (bytes : List UInt8) : Prop :=
  ∃ (header : Header) (body tail : List UInt8), header.type = controlRec ∧
    header.ackID = ackID ∧ (ackID, body) ∈ requests ∧ bytes = header.bytes ++ (body ++ tail)

/-- A sender pushes and keeps requests, and `answered` holds of those it has got answers for. -/
structure Sender (requests : List (AckID × List UInt8)) (answered : AckID → Prop)
    (e : ControlReliability) : Prop where
  guarded : e.byPassMode = false
  sent : ∀ bytes, .packet bytes ∈ e.out → Foreign bytes ∨ ∃ ackID, PacketOf requests ackID bytes
  kept : ∀ ackID obj, e.lru.objects.get ackID = some obj → PacketOf requests ackID obj.data
  acknowledged : ∀ ackID ∈ e.acknowledged, answered ackID

/-- The answers of the receiver are about deliveries as long as `clear` holds. -/
structure Sound (table : Vector AckID cprStateSize) (clear : Prop) (s : System) : Prop where
  senders : ∀ i, Sender s.requests (fun ackID => clear → ackID ∈ s.deliveries) (s.senders i)
  delivered : ∀ ackID bytes, .request ackID bytes ∈ s.receiver.out →
    ∃ body tail, (ackID, body) ∈ s.requests ∧ bytes = body ++ tail
  answers : ∀ bytes, .packet bytes ∈ s.receiver.out →
    ∃ header : Header, header.type = controlAck ∧ bytes = header.bytes ∧
      (clear → header.ackID ∈ s.deliveries)
  records : s.receiver.lastReceivedAckIDs.Records table s.deliveries
  spaced : Spaced cprStateSize s.deliveries

variable {table : Vector AckID cprStateSize} {clear : Prop} {s s' : System}
  {requests requests' : List (AckID × List UInt8)} {answered answered' : AckID → Prop}
  {e e' : ControlReliability} {ackID : AckID} {bytes : List UInt8}

theorem PacketOf.mono (pkt : PacketOf requests ackID bytes) (more : requests ⊆ requests') :
    PacketOf requests' ackID bytes := by
  obtain ⟨hdr, body, tail, type, hs, hm, layout⟩ := pkt
  exact ⟨hdr, body, tail, type, hs, more hm, layout⟩

theorem Sender.mono (sender : Sender requests answered e) (more : requests ⊆ requests')
    (weaker : ∀ ackID, answered ackID → answered' ackID) : Sender requests' answered' e where
  guarded := sender.guarded
  sent bytes hm := by
    refine (sender.sent bytes hm).imp_right ?_
    rintro ⟨ackID, pkt⟩
    exact ⟨ackID, pkt.mono more⟩
  kept ackID obj hf := (sender.kept ackID obj hf).mono more
  acknowledged ackID hm := weaker ackID (sender.acknowledged ackID hm)

theorem sound_initial (confs : Nat → GlobalConf) (gc : GlobalConf)
    (tables : Nat → Vector AckID cprStateSize) (table : Vector AckID cprStateSize) :
    (initial confs gc tables table).Sound table True where
  senders _ :=
    { guarded := rfl
      sent := nofun
      kept := nofun
      acknowledged := nofun }
  delivered _ _ hm := nomatch hm
  answers _ hm := nomatch hm
  records := RingBuffer.records_start table (by decide)
  spaced := spaced_nil

theorem Sound.weaken {other : Prop} (sound : s.Sound table clear) (weaker : other → clear) :
    s.Sound table other where
  senders i := (sound.senders i).mono (fun _ hm => hm)
    fun _ about hh => about (weaker hh)
  delivered := sound.delivered
  answers bytes hm := by
    obtain ⟨hdr, answer, hs, about⟩ := sound.answers bytes hm
    exact ⟨hdr, answer, hs, fun hh => about (weaker hh)⟩
  records := sound.records
  spaced := sound.spaced

variable {i : Nat} {m : CR Unit}

theorem Sound.update_sender (sound : s.Sound table clear) (more : s.requests ⊆ requests)
    (sender : Sender requests (fun ackID => clear → ackID ∈ s.deliveries) e) : Sound table clear
      { s with senders := Function.update s.senders i e, requests := requests } where
  senders := by
    refine (Function.forall_update_iff s.senders fun _ => Sender requests fun ackID =>
      clear → ackID ∈ s.deliveries).mpr ⟨sender, fun j _ => ?_⟩
    exact (sound.senders j).mono more fun _ => id
  delivered ackID bytes hm := by
    obtain ⟨body, tail, hi, layout⟩ := sound.delivered ackID bytes hm
    exact ⟨body, tail, more hi, layout⟩
  answers := sound.answers
  records := sound.records
  spaced := sound.spaced

section

variable [IterationOrder] {stale stale' : View} {now : Nat}

theorem Sender.submit (sender : Sender requests answered e) {pkt : ProxyPacket}
    (reliable : protects e.gc (.ofBytes pkt.bytes) = true)
    (hp : pushFromProxy (.ofBytes pkt.bytes) ackID stale stale' now e = .ok ((), e')) :
    Sender ((ackID, pkt.body) :: requests) answered e' := by
  obtain ⟨lru, inserted, rfl⟩ := pushFromProxy_protected sender.guarded reliable hp
  have old := sender.mono (subset_cons_self (ackID, pkt.body) requests) fun _ => id
  obtain ⟨reverse, tail, tail', _, _, _, first, ha⟩ :=
    encapsulate_bytes e.gc ackID (contents_ofBytes pkt.bytes) stale stale'
  have layout : ∀ tail, PacketOf ((ackID, pkt.body) :: requests) ackID
      (Header.bytes ⟨pkt.fid, controlRec, reverse, ackID⟩ ++ pkt.body ++ tail) :=
    fun tail => ⟨_, pkt.body, tail, rfl, rfl, mem_cons_self, append_assoc ..⟩
  refine { old with sent := ?_, kept := ?_ }
  · intro bytes hm
    rcases mem_append.mp hm with before | new
    · exact old.sent bytes before
    · cases mem_singleton.mp new
      exact .inr ⟨ackID, first ▸ layout tail⟩
  · intro other obj hf
    rcases insert_contents inserted hf with ⟨rfl, hs⟩ | ⟨before, ht, hs⟩
    · rw [hs, ha]
      exact layout tail'
    · rw [hs]
      exact old.kept other before ht

variable {p : Buffer}

theorem Sender.forward (sender : Sender requests answered e) (plain : protects e.gc p = false)
    (foreign : Foreign p.contents) (hp : pushFromProxy p ackID stale stale' now e = .ok ((), e')) :
    Sender requests answered e' := by
  have outcome : pushFromProxy p ackID stale stale' now e =
      .ok ((), { e with out := e.out ++ [.packet p.contents] }) := by
    simp [pushFromProxy, bind, StateT.bind, Program.read, Except.bind, plain, emit, Program.update]
  rw [outcome] at hp
  cases hp
  refine { sender with sent := ?_ }
  intro bytes hm
  rcases mem_append.mp hm with before | new
  · exact sender.sent bytes before
  · cases mem_singleton.mp new
    exact .inl foreign

theorem Sender.expire (sender : Sender requests answered e)
    (ran : runTimer now e = .ok ((), e')) : Sender requests answered e' := by
  obtain ⟨lru, out, rfl, within, ha⟩ := runTimer_cases ran
  refine { sender with sent := ?_, kept := ?_ }
  · intro bytes hm
    rcases mem_append.mp hm with before | new
    · exact sender.sent bytes before
    · obtain ⟨ackID, obj, hf, rfl⟩ := ha bytes new
      exact .inr ⟨ackID, sender.kept ackID obj hf⟩
  · intro ackID obj hf
    obtain ⟨old, ht, hs⟩ := within ackID obj hf
    rw [hs]
    exact sender.kept ackID old ht

omit [IterationOrder] in
theorem Sender.acknowledge (sender : Sender requests answered e) (hg : p.contents = hdr.bytes)
    (answer : hdr.type = controlAck) (about : answered hdr.ackID)
    (hp : pushFromForwarder p e = .ok ((), e')) : Sender requests answered e' := by
  obtain ⟨lru, hr, rfl⟩ := pushFromForwarder_ack hg answer hp
  refine { sender with kept := ?_, acknowledged := ?_ }
  · intro ackID obj hf
    obtain ⟨old, ht, hs⟩ := remove_within hr ackID obj hf
    rw [hs]
    exact sender.kept ackID old ht
  · intro ackID hm
    split at hm
    · rcases mem_cons.mp hm with rfl | before
      · exact about
      · exact sender.acknowledged ackID before
    · exact sender.acknowledged ackID hm

end

/-- A step of the receiver, in which it pushes `out`. -/
theorem Sound.update_receiver (sound : s.Sound table clear) (hp : e.out = s.receiver.out ++ out)
    (hd : ∀ ackID bytes, .request ackID bytes ∈ out → ∃ body tail, (ackID, body) ∈ s.requests ∧
      bytes = body ++ tail)
    (answers : ∀ bytes, .packet bytes ∈ out → ∃ hdr : Header, hdr.type = controlAck ∧ bytes =
      hdr.bytes ∧ (clear → hdr.ackID ∈ s.deliveries ++ requestsIn out))
    (records : e.lastReceivedAckIDs.Records table (s.deliveries ++ requestsIn out))
    (spaced : Spaced cprStateSize (s.deliveries ++ requestsIn out)) :
    Sound table clear { s with receiver := e } := by
  have grown : deliveries { s with receiver := e } = s.deliveries ++ requestsIn out := by
    rw [deliveries, hp, requestsIn_append, deliveries]
  refine ⟨?_, ?_, ?_, grown ▸ records, grown ▸ spaced⟩
  · intro i
    refine (sound.senders i).mono (fun _ => id) fun ackID about hh => ?_
    rw [grown]
    exact mem_append_left _ (about hh)
  · intro ackID bytes hm
    rw [hp] at hm
    exact (mem_append.mp hm).elim (sound.delivered ackID bytes) (hd ackID bytes)
  · intro bytes hm
    rw [hp] at hm
    rw [grown]
    rcases mem_append.mp hm with before | new
    · obtain ⟨hdr, answer, hs, about⟩ := sound.answers bytes before
      exact ⟨hdr, answer, hs, fun hh => mem_append_left _ (about hh)⟩
    · exact answers bytes new

/-- A request is delivered, or was a short time ago, or is taken for one that was. -/
theorem Sound.request (sound : s.Sound table clear) {p : Buffer}
    (sent : .packet p.contents ∈ (s.senders i).out) (chance : clear → s.Clear table (.request p))
    (hp : pushFromForwarder p s.receiver = .ok ((), e)) :
    Sound table clear { s with receiver := e } := by
  rcases (sound.senders i).sent _ sent with foreign | ⟨ackID, hdr, body, tail, type, rfl,
    member, layout⟩
  · rw [pushFromForwarder_foreign foreign] at hp
    cases hp
    refine sound.update_receiver rfl ?_ ?_ ?_ ?_
    · intro ackID bytes plain
      cases mem_singleton.mp plain
    · intro bytes plain
      cases mem_singleton.mp plain
    · exact (append_nil s.deliveries).symm ▸ sound.records
    · exact (append_nil s.deliveries).symm ▸ sound.spaced
  · obtain ⟨fid, outcome⟩ := pushFromForwarder_request layout type s.receiver
    have hk : isAckIDStored s.receiver hdr.ackID = true ↔
        hdr.ackID ∈ s.deliveries.drop (s.deliveries.length - cprStateSize) ∨
          hdr.ackID ∈ table.toList.drop s.deliveries.length := by
      rw [isAckIDStored, Vector.contains_iff_mem, sound.records.mem_iff]
    rw [outcome] at hp
    cases hs : isAckIDStored s.receiver hdr.ackID with
    | true =>
      rw [hs] at hp
      cases hp
      refine sound.update_receiver rfl ?_ ?_ ?_ ?_
      · intro ackID bytes answer
        cases mem_singleton.mp answer
      · intro bytes answer
        cases mem_singleton.mp answer
        refine ⟨_, rfl, rfl, fun hh => mem_append_left _ ?_⟩
        have read := readControl_of_shows
          (View.shows_append.mp (layout ▸ (shows_of_contents rfl).2)).1
        exact (hk.mp hs).elim mem_of_mem_drop fun unset => absurd unset (chance hh _ read)
      · exact (append_nil s.deliveries).symm ▸ sound.records
      · exact (append_nil s.deliveries).symm ▸ sound.spaced
    | false =>
      rw [hs] at hp
      cases hp
      refine sound.update_receiver rfl ?_ ?_ ?_ ?_
      · intro ackID bytes req
        simp only [mem_cons, reduceCtorEq, not_mem_nil, or_false, false_or] at req
        obtain ⟨rfl, rfl⟩ := req
        exact ⟨body, tail, member, rfl⟩
      · intro bytes answer
        simp only [mem_cons, reduceCtorEq, Out.packet.injEq, not_mem_nil, or_false] at answer
        exact ⟨_, rfl, answer, fun _ => mem_append_right _ mem_cons_self⟩
      · exact sound.records.store hdr.ackID
      · refine sound.spaced.append fun recent => ?_
        rw [hk.mpr (.inl recent)] at hs
        cases hs

theorem atSender_ok (ran : atSender i m s = .ok ((), s')) : ∃ e, m (s.senders i) = .ok ((), e) ∧
      s' = { s with senders := Function.update s.senders i e } := by
  unfold atSender at ran
  cases outcome : m (s.senders i) with
  | error => rw [outcome] at ran; cases ran
  | ok result =>
    rw [outcome] at ran
    cases ran
    exact ⟨result.2, rfl, rfl⟩

theorem atReceiver_ok (ran : atReceiver m s = .ok ((), s')) :
    ∃ e, m s.receiver = .ok ((), e) ∧ s' = { s with receiver := e } := by
  unfold atReceiver at ran
  cases outcome : m s.receiver with
  | error => rw [outcome] at ran; cases ran
  | ok result =>
    rw [outcome] at ran
    cases ran
    exact ⟨result.2, rfl, rfl⟩

variable [IterationOrder]

theorem Sound.step (sound : s.Sound table clear) {action : Action} (permits : s.Permits action)
    (chance : clear → s.Clear table action) (performed : perform action s = .ok ((), s')) :
    s'.Sound table clear := by
  cases action with
  | submit i pkt ackID stale stale' now =>
    simp only [perform, bind, StateT.bind] at performed
    cases ran : atSender i (pushFromProxy (.ofBytes pkt.bytes) ackID stale stale' now) s with
    | error => rw [ran] at performed; cases performed
    | ok =>
      rw [ran] at performed
      cases performed
      obtain ⟨e, hp, hs⟩ := atSender_ok ran
      rw [hs]
      exact sound.update_sender (subset_cons_self _ _) ((sound.senders i).submit permits.1 hp)
  | forward i p =>
    obtain ⟨e, hp, rfl⟩ := atSender_ok performed
    exact sound.update_sender (fun _ => id) ((sound.senders i).forward permits.1 permits.2 hp)
  | expire i now =>
    obtain ⟨e, ran, rfl⟩ := atSender_ok performed
    exact sound.update_sender (fun _ => id) ((sound.senders i).expire ran)
  | request p =>
    obtain ⟨e, hp, rfl⟩ := atReceiver_ok performed
    obtain ⟨i, sent⟩ := permits
    exact sound.request sent chance hp
  | acknowledge i p =>
    obtain ⟨e, hp, rfl⟩ := atSender_ok performed
    obtain ⟨hdr, answer, hs, about⟩ := sound.answers _ permits
    exact sound.update_sender (fun _ => id) ((sound.senders i).acknowledge hs answer about hp)

theorem Run.sound {confs : Nat → GlobalConf} {gc : GlobalConf}
    {tables : Nat → Vector AckID cprStateSize} {trace : List (System × Action)}
    (run : Run (initial confs gc tables table) trace s) :
    s.Sound table (∀ step ∈ trace, step.1.Clear table step.2) := by
  induction run with
  | start => exact (sound_initial confs gc tables table).weaken fun _ => trivial
  | step before hp performed ih =>
    refine (ih.weaken fun every step hm => ?_).step hp (fun every => ?_) performed
    · exact every step (mem_cons_of_mem _ hm)
    · exact every _ mem_cons_self

end

section

variable [IterationOrder] {confs : Nat → GlobalConf} {gc : GlobalConf}
  {tables : Nat → Vector AckID cprStateSize} {table : Vector AckID cprStateSize}
  {trace : List (System × Action)} {s : System}

/-- A removed request was delivered, as long as none was found in unset memory, and no request is
delivered again before `CPR_STATE_SIZE` others have been. -/
theorem acknowledged_delivered_once (run : Run (initial confs gc tables table) trace s) :
    ((∀ step ∈ trace, step.1.Clear table step.2) →
      ∀ i, ∀ ackID ∈ (s.senders i).acknowledged,
        ∃ body tail, (ackID, body) ∈ s.requests ∧
          .request ackID (body ++ tail) ∈ s.receiver.out) ∧ ∀ ackID before between after,
      s.deliveries = before ++ ackID :: (between ++ ackID :: after) →
        cprStateSize ≤ (between.toFinset.erase ackID).card := by
  have sound := run.sound
  constructor
  · intro every i ackID hm
    obtain ⟨bytes, hp⟩ := mem_requestsIn.mp ((sound.senders i).acknowledged ackID hm every)
    obtain ⟨body, tail, sent, rfl⟩ := sound.delivered ackID bytes hp
    exact ⟨body, tail, sent, hp⟩
  · intro ackID before between after split
    exact Spaced.others (split ▸ sound.spaced)

/-- Whatever is in unset memory, all that the receiver hands on and all that waits to be sent again
has been submitted. -/
theorem nothing_invented (run : Run (initial confs gc tables table) trace s) :
    (∀ ackID bytes, .request ackID bytes ∈ s.receiver.out →
      ∃ body tail, (ackID, body) ∈ s.requests ∧ bytes = body ++ tail) ∧
    ∀ i ackID obj, (s.senders i).lru.objects.get ackID = some obj →
      PacketOf s.requests ackID obj.data :=
  ⟨run.sound.delivered, fun i => (run.sound.senders i).kept⟩

/-- The state that an action leads to. -/
def after (s : System) (action : Action) : System :=
  match perform action s with
  | .ok (_, s') => s'
  | .error _ => s

theorem Run.after {start : System} {action : Action} (run : Run start trace s)
    (hp : s.Permits action) (hr : (perform action s).isOk = true) :
    Run start ((s, action) :: trace) (s.after action) := by
  refine run.step hp ?_
  unfold System.after
  cases outcome : perform action s with
  | error => rw [outcome] at hr; cases hr
  | ok => rfl

end

variable (value : AckID)

/-- One sender and one receiver, whose table has the same value everywhere at first. -/
def sampleStart : System :=
  initial (fun _ => sampleConf) sampleConf (fun _ => Vector.replicate 100 0)
    (Vector.replicate 100 value)

def sampleSubmit : Action := .submit 0 sampleRequest 7 (fun _ => 0) (fun _ => 0) 0

def sampleArrival : Action :=
  .request (.ofBytes (encapsulate sampleConf 7 (.ofBytes sampleRequest.bytes) (fun _ => 0)
    (fun _ => 0)).packet)

def sampleAnswer : Action :=
  .acknowledge 0 (.ofBytes
    (Header.bytes ⟨sampleConf.defaultFromRV, controlAck, sampleConf.defaultFromRV, 7⟩))

def sampleSent : System :=
  let _ : IterationOrder := insertionOrder
  (sampleStart value).after sampleSubmit

def sampleArrived : System :=
  let _ : IterationOrder := insertionOrder
  (sampleSent value).after sampleArrival

def sampleAnswered : System :=
  let _ : IterationOrder := insertionOrder
  (sampleArrived value).after sampleAnswer

/-- The three actions return, and the last two are about packets that have been pushed. -/
def sampleReturns : Bool :=
  let _ : IterationOrder := insertionOrder
  (perform sampleSubmit (sampleStart value)).isOk &&
    decide (.packet (encapsulate sampleConf 7 (.ofBytes sampleRequest.bytes) (fun _ => 0)
      (fun _ => 0)).packet ∈ ((sampleSent value).senders 0).out) &&
    (perform sampleArrival (sampleSent value)).isOk &&
    decide (.packet (Header.bytes
      ⟨sampleConf.defaultFromRV, controlAck, sampleConf.defaultFromRV, 7⟩) ∈
        (sampleArrived value).receiver.out) &&
    (perform sampleAnswer (sampleArrived value)).isOk

theorem sample_run {val : AckID} (hr : sampleReturns val = true) :
    let _ : IterationOrder := insertionOrder
    Run (sampleStart val)
      [(sampleArrived val, sampleAnswer), (sampleSent val, sampleArrival),
        (sampleStart val, sampleSubmit)] (sampleAnswered val) := by
  intro order
  have reliable : protects sampleConf (.ofBytes sampleRequest.bytes) = true := by decide +kernel
  simp only [sampleReturns, Bool.and_eq_true, decide_eq_true_eq] at hr
  obtain ⟨⟨⟨⟨first, sent⟩, second⟩, answer⟩, third⟩ := hr
  have arriving : (sampleSent val).Permits sampleArrival := by
    simp only [sampleArrival, Permits, contents_ofBytes]
    exact ⟨0, sent⟩
  have answering : (sampleArrived val).Permits sampleAnswer := by
    exact answer
  have submitting : (sampleStart val).Permits sampleSubmit := ⟨reliable, not_mem_nil⟩
  exact ((Run.start.after submitting first).after arriving second).after answering third

/-- The `ackID` is in the unset table: the request is acknowledged but not delivered. -/
theorem acknowledged_not_delivered :
    let _ : IterationOrder := insertionOrder
    ∃ trace, Run (sampleStart 7) trace (sampleAnswered 7) ∧
      ((sampleAnswered 7).senders 0).acknowledged = [7] ∧ (sampleAnswered 7).deliveries = [] := by
  exact ⟨_, sample_run (by decide +kernel), by decide +kernel, by decide +kernel⟩

theorem acknowledged_delivered_once_sample : ∃ body tail, (7, body) ∈ (sampleAnswered 0).requests ∧
      .request 7 (body ++ tail) ∈ (sampleAnswered 0).receiver.out := by
  let _ : IterationOrder := insertionOrder
  have hr : sampleReturns 0 = true := by decide +kernel
  have run := sample_run hr
  refine (acknowledged_delivered_once run).1 ?_ 0 7 (by decide +kernel)
  intro step hm
  simp only [mem_cons, not_mem_nil, or_false] at hm
  rcases hm with rfl | rfl | rfl
  · trivial
  · intro control read hm
    have hf : (readControl (Buffer.ofBytes (encapsulate sampleConf 7
        (.ofBytes sampleRequest.bytes) (fun _ => 0) (fun _ => 0)).packet).data).map
          Control.ackID = some 7 := by
      decide +kernel
    rw [read] at hf
    have zero : control.ackID = 0 :=
      Vector.eq_of_mem_replicate (Vector.mem_toList_iff.mp (mem_of_mem_drop hm))
    rw [Option.map_some, zero] at hf
    exact absurd hf (by decide)
  · trivial

theorem nothing_invented_sample : ∃ bytes, .request 7 bytes ∈ (sampleAnswered 0).receiver.out ∧
    ∃ body tail, (7, body) ∈ (sampleAnswered 0).requests ∧ bytes = body ++ tail := by
  let _ : IterationOrder := insertionOrder
  have hm : 7 ∈ (sampleAnswered 0).deliveries := by decide +kernel
  obtain ⟨bytes, hp⟩ := mem_requestsIn.mp hm
  exact ⟨bytes, hp, (nothing_invented (sample_run (by decide +kernel))).1 7 bytes hp⟩

end System

end Blackadder.Reliability
