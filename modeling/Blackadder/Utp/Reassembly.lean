import Blackadder.Ltp.Wire
import Blackadder.Library.NestedMap

/-!
The unreliable transport protocol cuts a packet into fragments that carry a number and a state, but
not how many there are.
-/

namespace Blackadder.Utp

open List UInt16 Nat

open Ltp (word16 read16 length_word16 read16_word16 read16_skip)

/-- `TransportStates`. -/
inductive TransportState
  | start
  | fragment
  | finished
  | singlePacket
  | unknown
deriving DecidableEq

/-- The number of a state, as it is in the header. -/
def TransportState.code : TransportState → UInt8
  | .start => 0
  | .fragment => 1
  | .finished => 2
  | .singlePacket => 3
  | .unknown => 4

/-- The states of the packets that `handle` buffers. -/
def Fragmented (state : UInt8) : Prop :=
  state = TransportState.start.code ∨ state = TransportState.fragment.code ∨
    state = TransportState.finished.code

instance (state : UInt8) : Decidable (Fragmented state) :=
  inferInstanceAs (Decidable (_ ∨ _ ∨ _))

/-- `utp_header_t`. -/
structure Header where
  key : UInt16
  payloadLength : UInt16
  sequence : UInt8
  state : UInt8
deriving DecidableEq

/-- `sizeof(utp_header_t)`. -/
def sizeofHeader : Nat := 6

def Header.bytes (header : Header) : List UInt8 :=
  word16 header.key ++ (word16 header.payloadLength ++ [header.sequence, header.state])

def readHeader (packet : List UInt8) : Header :=
  ⟨read16 0 packet, read16 2 packet, (packet.drop 4).headD 0, (packet.drop 5).headD 0⟩

/-- The bytes that `handle` copies. -/
def readPayload (packet : List UInt8) : List UInt8 :=
  (packet.drop sizeofHeader).take (readHeader packet).payloadLength.toNat

section

variable (header : Header) (payload : List UInt8)

open Header

theorem Header.length_bytes : header.bytes.length = sizeofHeader := by
  rfl

theorem readHeader_bytes : readHeader (header.bytes ++ payload) = header := by
  have behind : ∀ more, (header.bytes ++ payload).drop (4 + more) =
      ([header.sequence, header.state] ++ payload).drop more := by
    intro more
    rw [bytes, ← append_assoc, append_assoc, ← drop_drop, drop_left']
    rw [length_append, length_word16, length_word16]
  have key : read16 0 (header.bytes ++ payload) = header.key := by
    rw [bytes, append_assoc, read16_word16]
  have len : read16 2 (header.bytes ++ payload) = header.payloadLength := by
    rw [bytes, append_assoc, read16_skip (length_word16 _) 0, append_assoc, read16_word16]
  rw [readHeader, key, len, behind 1]
  rfl

theorem readPayload_bytes :
    readPayload (header.bytes ++ payload) = payload.take header.payloadLength.toNat := by
  rw [readPayload, readHeader_bytes, drop_left' header.length_bytes]

end

/-- `maxPayloadLength`, as a 16-bit number. -/
def maxPayloadLength (mitu : UInt16) (idLength : UInt32) : UInt16 :=
  (mitu.toUInt32 - idLength - 20 - UInt32.ofNat sizeofHeader).toUInt16

/-- The loop of `publish`, with a bound on its rounds. -/
def fragments (dataSize : UInt16) (rounds : Nat) (header : Header) (bytesSent : UInt16)
    (data : List UInt8) : Option (List (List UInt8)) :=
  if bytesSent < dataSize then
    match rounds with
    | 0 => none
    | rounds + 1 => do
      let last : Bool := bytesSent.toNat + header.payloadLength.toNat > dataSize.toNat
      let header : Header :=
        ⟨header.key, if last then dataSize - bytesSent else header.payloadLength,
          header.sequence + 1, if last then TransportState.finished.code else header.state⟩
      let later ← fragments dataSize rounds
        ⟨header.key, header.payloadLength, header.sequence, TransportState.fragment.code⟩
        (bytesSent + header.payloadLength) (data.drop header.payloadLength.toNat)
      return (header.bytes ++ data.take header.payloadLength.toNat) :: later
  else some []

/-- The packets of a message, with the key that was drawn for it. -/
def publish (key : UInt16) (mitu : UInt16) (idLength : UInt32) (data : List UInt8) :
    Option (List (List UInt8)) :=
  let dataSize := UInt16.ofNat data.length
  if maxPayloadLength mitu idLength < dataSize then
    fragments dataSize data.length
      ⟨key, maxPayloadLength mitu idLength, 0, TransportState.start.code⟩ 0 data
  else
    let header : Header := ⟨key, dataSize, 1, TransportState.singlePacket.code⟩
    some [header.bytes ++ data.take dataSize.toNat]

/-- Fragments with consecutive numbers from one on. Only the first of all says so, and only the last
can say so, which it does if it is `shorter` than the others. -/
structure Cut (key : UInt16) (first : Nat) (shorter : Prop) (data : List UInt8)
    (packets : List (List UInt8)) : Prop where
  whole : packets.flatMap readPayload = data
  key : ∀ packet ∈ packets, (readHeader packet).key = key
  length : ∀ packet ∈ packets,
    (readHeader packet).payloadLength.toNat = (readPayload packet).length
  sequence : ∀ i packet, packets[i]? = some packet →
    (readHeader packet).sequence.toNat = first + i + 1
  start : ∀ i packet, packets[i]? = some packet →
    ((readHeader packet).state = TransportState.start.code ↔ first + i = 0)
  finished : ∀ i packet, packets[i]? = some packet →
    ((readHeader packet).state = TransportState.finished.code ↔ i + 1 = packets.length ∧ shorter)
  fragmented : ∀ packet ∈ packets, Fragmented (readHeader packet).state

section

variable {key : UInt16} {first : Nat} {shorter : Prop} {data : List UInt8}
  {pkts : List (List UInt8)}

theorem Cut.nil (key : UInt16) (first : Nat) (shorter : Prop) : Cut key first shorter [] [] where
  whole := rfl
  key _ hm := nomatch hm
  length _ hm := nomatch hm
  sequence _ _ hf := nomatch hf
  start _ _ hf := nomatch hf
  finished _ _ hf := nomatch hf
  fragmented _ hm := nomatch hm

/-- The state of a fragment that is not the last one. -/
def inside (first : Nat) : UInt8 :=
  if first = 0 then TransportState.start.code else TransportState.fragment.code

open TransportState

theorem inside_spec (first : Nat) : (inside first = start.code ↔ first = 0) ∧
    inside first ≠ finished.code ∧ Fragmented (inside first) := by
  unfold inside
  split
  · rename_i zero
    exact ⟨by simp [zero], by decide, by decide⟩
  · rename_i other
    exact ⟨⟨fun hs => absurd hs (by decide), fun zero => absurd zero other⟩, by decide, by decide⟩

theorem Cut.cons {payload : List UInt8} {len : UInt16} {state : UInt8}
    (later : Cut key (first + 1) shorter data pkts) (size : payload.length = len.toNat)
    (hs : first + 1 < 256) (starts : state = TransportState.start.code ↔ first = 0)
    (finishes : state = TransportState.finished.code ↔ pkts = [] ∧ shorter)
    (hk : Fragmented state) : Cut key first shorter (payload ++ data)
      (((⟨key, len, UInt8.ofNat (first + 1), state⟩ : Header).bytes ++ payload) :: pkts) := by
  generalize whole : (⟨key, len, UInt8.ofNat (first + 1), state⟩ : Header).bytes ++ payload = pkt
  have hdr : readHeader pkt = ⟨key, len, UInt8.ofNat (first + 1), state⟩ := by
    rw [← whole, readHeader_bytes]
  have read : readPayload pkt = payload := by
    rw [← whole, readPayload_bytes, ← size, take_length]
  constructor
  · rw [flatMap_cons, read, later.whole]
  · intro other hm
    cases hm with
    | head => rw [hdr]
    | tail _ inside => exact later.key other inside
  · intro other hm
    cases hm with
    | head => rw [hdr, read, size]
    | tail _ inside => exact later.length other inside
  · intro i other hf
    cases i with
    | zero =>
      cases hf
      rw [hdr]
      rw [UInt8.toNat_ofNat']
      omega
    | succ i =>
      rw [later.sequence i other hf]
      omega
  · intro i other hf
    cases i with
    | zero =>
      cases hf
      rw [hdr]
      exact starts
    | succ i =>
      rw [later.start i other hf]
      omega
  · intro i other hf
    cases i with
    | zero =>
      cases hf
      rw [hdr, length_cons, add_right_cancel_iff, @eq_comm Nat 0, length_eq_zero_iff]
      exact finishes
    | succ i => rw [later.finished i other hf, length_cons, add_right_cancel_iff]
  · intro other hm
    cases hm with
    | head =>
      rw [hdr]
      exact hk
    | tail _ inside => exact later.fragmented other inside

theorem Cut.tail {pkt : List UInt8} (cut : Cut key first shorter data (pkt :: pkts)) :
    Cut key (first + 1) shorter (pkts.flatMap readPayload) pkts where
  whole := rfl
  key other hm := cut.key other (.tail _ hm)
  length other hm := cut.length other (.tail _ hm)
  sequence i other hf := by
    rw [cut.sequence (i + 1) other hf]
    omega
  start i other hf := by
    rw [cut.start (i + 1) other hf]
    omega
  finished i other hf := by
    rw [cut.finished (i + 1) other hf, length_cons, add_right_cancel_iff]
  fragmented other hm := cut.fragmented other (.tail _ hm)

theorem Cut.eq_of_sequence (cut : Cut key first shorter data pkts) {one two : List UInt8}
    (mine : one ∈ pkts) (yours : two ∈ pkts)
    (hs : (readHeader one).sequence = (readHeader two).sequence) : one = two := by
  obtain ⟨i, foundOne⟩ := List.getElem?_of_mem mine
  obtain ⟨j, foundTwo⟩ := List.getElem?_of_mem yours
  have nums := cut.sequence i one foundOne
  rw [hs, cut.sequence j two foundTwo] at nums
  have idx : i = j := by omega
  rw [idx, foundTwo] at foundOne
  exact (Option.some.inj foundOne).symm

theorem Cut.sorted (cut : Cut key first shorter data pkts) :
    pkts.Pairwise fun one two => (readHeader one).sequence < (readHeader two).sequence := by
  rw [pairwise_iff_getElem]
  intro i j insideI insideJ less
  have one := cut.sequence i _ (List.getElem?_eq_getElem insideI)
  have two := cut.sequence j _ (List.getElem?_eq_getElem insideJ)
  rw [UInt8.lt_iff_toNat_lt]
  omega

variable {dataSize : UInt16}

theorem fragments_done {bytesSent : UInt16} (all : ¬ bytesSent < dataSize) {rounds : Nat}
    {hdr : Header} : fragments dataSize rounds hdr bytesSent data = some [] := by
  unfold fragments
  exact if_neg all

/-- The loop cuts the data into packets of one size but the last. -/
theorem fragments_spec {unit : UInt16} (hp : 0 < unit.toNat) (rounds : Nat)
    (bytesSent : UInt16) (sent : bytesSent.toNat + data.length = dataSize.toNat)
    (enough : data.length ≤ rounds)
    (few : first + (data.length + unit.toNat - 1) / unit.toNat ≤ 255)
    (more : first ≠ 0 ∨ unit.toNat ≤ data.length) :
    ∃ pkts, fragments dataSize rounds ⟨key, unit, UInt8.ofNat first, inside first⟩ bytesSent
        data = some pkts ∧ Cut key first (data.length % unit.toNat ≠ 0) data pkts := by
  induction rounds generalizing first bytesSent data with
  | zero =>
    have none : data = [] := eq_nil_of_length_eq_zero (by omega)
    subst none
    refine ⟨[], fragments_done ?_, Cut.nil _ _ _⟩
    rw [lt_iff_toNat_lt]
    omega
  | succ rounds ih =>
    by_cases he : data = []
    · subst he
      refine ⟨[], fragments_done ?_, Cut.nil _ _ _⟩
      rw [lt_iff_toNat_lt]
      simp only [length_nil] at sent
      omega
    have some := length_pos_iff.mpr he
    have left : bytesSent < dataSize := by
      rw [lt_iff_toNat_lt]
      omega
    have count : 1 ≤ (data.length + unit.toNat - 1) / unit.toNat :=
      (one_le_div_iff hp).mpr (by omega)
    have next : UInt8.ofNat first + 1 = UInt8.ofNat (first + 1) := (UInt8.ofNat_add first 1).symm
    rw [fragments, if_pos left]
    by_cases last : data.length < unit.toNat
    · -- the rest, which is shorter
      have size : (dataSize - bytesSent).toNat = data.length := by
        rw [UInt16.toNat_sub_of_le _ _ (UInt16.le_of_lt left)]
        omega
      have end_ : bytesSent + (dataSize - bytesSent) = dataSize := by
        rw [UInt16.add_comm, UInt16.sub_add_cancel]
      have state : first ≠ 0 := by omega
      simp only [show bytesSent.toNat + unit.toNat > dataSize.toNat by omega, decide_true,
        if_true, end_, size, next, take_length]
      rw [fragments_done (UInt16.lt_irrefl _)]
      refine ⟨_, rfl, ?_⟩
      have cut := @Cut.cons key first (data.length % unit.toNat ≠ 0) [] [] data
        (dataSize - bytesSent) finished.code (Cut.nil _ _ _) size.symm (by omega)
        ⟨fun hs => absurd hs (by decide), fun zero => absurd zero state⟩
        ⟨fun _ => ⟨rfl, by rw [mod_eq_of_lt last]; omega⟩, fun _ => rfl⟩ (by decide)
      rwa [append_nil] at cut
    · -- a fragment of full length
      have advanced : (bytesSent + unit).toNat = bytesSent.toNat + unit.toNat := by
        have hb := dataSize.toNat_lt
        rw [UInt16.toNat_add]
        omega
      have rest : (data.drop unit.toNat).length = data.length - unit.toNat := length_drop
      have hs : (data.drop unit.toNat).length % unit.toNat = data.length % unit.toNat := by
        rw [rest, ← mod_eq_sub_mod (by omega)]
      have fewer : (data.length + unit.toNat - 1) / unit.toNat =
          (data.length - unit.toNat + unit.toNat - 1) / unit.toNat + 1 := by
        rw [← add_div_right _ hp]
        congr 1
        omega
      obtain ⟨pkts, hl, cut⟩ := @ih (first + 1) (data.drop unit.toNat)
        (bytesSent + unit) (by omega) (by omega) (by rw [rest]; omega) (.inl (by omega))
      have state : inside (first + 1) = fragment.code := if_neg (by omega)
      rw [state] at hl
      rw [hs] at cut
      obtain ⟨starts, unfinished, hk⟩ := inside_spec first
      simp only [show ¬ bytesSent.toNat + unit.toNat > dataSize.toNat by omega, decide_false,
        Bool.false_eq_true, if_false, next, hl]
      refine ⟨_, rfl, ?_⟩
      have whole := @Cut.cons key first (data.length % unit.toNat ≠ 0) (data.drop unit.toNat)
        pkts (data.take unit.toNat) unit (inside first) cut
        (by rw [length_take]; omega) (by omega) starts
        ⟨fun hs => absurd hs unfinished, fun ⟨last, shorter⟩ => ?_⟩ hk
      · rwa [take_append_drop] at whole
      · -- nothing is left only if the length is a multiple
        have nothing := cut.whole
        rw [last, flatMap_nil] at nothing
        rw [← nothing, length_nil] at hs
        exact absurd hs.symm shorter

end

variable {data : List UInt8}

/-- A packet that fits is published as it is, and any other one in fragments. -/
theorem publish_spec (key : UInt16) {mitu : UInt16} {idLength : UInt32} {unit : Nat}
    (val : (maxPayloadLength mitu idLength).toNat = unit) (hp : 0 < unit) (hs : data.length ≤ 65535)
    (few : (data.length + unit - 1) / unit ≤ 255) :
    if data.length ≤ unit then publish key mitu idLength data =
        some [(⟨key, ofNat data.length, 1, TransportState.singlePacket.code⟩ :
          Header).bytes ++ data] else ∃ pkts, publish key mitu idLength data = some pkts ∧
      Cut key 0 (data.length % unit ≠ 0) data pkts := by
  have size : (ofNat data.length).toNat = data.length := by
    rw [toNat_ofNat']
    omega
  subst val
  split
  · rename_i fits
    rw [publish, if_neg]
    · rw [size, take_length]
    · rw [lt_iff_toNat_lt]
      omega
  rw [publish, if_pos]
  · apply fragments_spec hp data.length 0
    · rw [size]
      exact zero_add _
    · exact Nat.le_refl _
    · rw [Nat.zero_add]
      exact few
    · exact .inr (by omega)
  · rw [lt_iff_toNat_lt]
    omega

open Std (TreeMap)

/-- What there is of a packet, by the numbers of the fragments. -/
abbrev Fragments := TreeMap UInt8 (Header × List UInt8)

/-- `_reassemblyBuffer`. -/
abbrev ReassemblyBuffer := TreeMap UInt32 Fragments

/-- The state of the last fragment and the length of all, unless one is missing. Zero stands for
none before. -/
def scan : List (UInt8 × Header × List UInt8) → (previousSequenceNumber : Nat) →
    (transportStateFinished : UInt8) → (reassembledPacketLength : UInt16) → Option (UInt8 × UInt16)
  | [], _, state, length => some (state, length)
  | (number, header, _) :: later, previous, state, length =>
    if previous = 0 then
      if header.state ≠ TransportState.start.code then none
      else scan later number.toNat state (length + header.payloadLength)
    else if number.toNat ≠ previous + 1 then none
    else scan later number.toNat header.state (length + header.payloadLength)

/-- The packet that is sent to the IP socket if it is complete. -/
def reassemble (fragments : Fragments) : Option (List UInt8) := do
  let (state, length) ← scan fragments.toList 0 TransportState.unknown.code 0
  if state ≠ TransportState.finished.code then none
  else some ((fragments.toList.flatMap fun entry => entry.2.2).take length.toNat)

/-- The buffer and what is sent to the IP socket. -/
def handle (buffer : ReassemblyBuffer) (packet : List UInt8) :
    ReassemblyBuffer × Option (List UInt8) :=
  let header := readHeader packet
  if Fragmented header.state then
    let fragments := (buffer[header.key.toUInt32]?.getD ∅).insertIfNew header.sequence
      (header, readPayload packet)
    let buffer := buffer.insert header.key.toUInt32 fragments
    match reassemble fragments with
    | none => (buffer, none)
    | some sent => (buffer.erase header.key.toUInt32, some sent)
  else if header.state = TransportState.singlePacket.code then
    let dataSize := UInt16.ofNat packet.length - UInt16.ofNat sizeofHeader
    (buffer, some ((packet.drop sizeofHeader).take dataSize.toNat))
  else (buffer, none)

/-- The packets sent to the IP socket while others arrive, each with the key it came under. -/
def run (buffer : ReassemblyBuffer) :
    List (List UInt8) → ReassemblyBuffer × List (UInt16 × List UInt8)
  | [] => (buffer, [])
  | packet :: later =>
    let (buffer, sent) := handle buffer packet
    let (buffer, rest) := run buffer later
    (buffer, sent.toList.map ((readHeader packet).key, ·) ++ rest)

def arrivalsFor (key : UInt16) (arrivals : List (List UInt8)) : List (List UInt8) :=
  arrivals.filter fun packet => (readHeader packet).key = key

def sentFor (key : UInt16) (sent : List (UInt16 × List UInt8)) : List (List UInt8) :=
  (sent.filter fun one => one.1 = key).map Prod.snd

def entry (packet : List UInt8) : UInt8 × Header × List UInt8 :=
  ((readHeader packet).sequence, readHeader packet, readPayload packet)

section

variable {key : UInt16} {first : Nat} {shorter : Prop} {data : List UInt8}
  {packets : List (List UInt8)}

/-- With nothing missing the scan gets to the last fragment. -/
theorem scan_whole (cut : Cut key first shorter data packets) (later : first ≠ 0) (state : UInt8)
    (len : UInt16) : ∃ final,
      scan (packets.map entry) first state len = some (final, len + ofNat data.length) ∧
      (final = TransportState.finished.code ↔
        if packets = [] then state = TransportState.finished.code else shorter) := by
  induction packets generalizing first data state len with
  | nil =>
    have none := cut.whole
    subst none
    exact ⟨state, by simp [scan], by rw [if_pos rfl]⟩
  | cons pkt packets ih =>
    have num : (readHeader pkt).sequence.toNat = first + 1 := cut.sequence 0 pkt rfl
    have size := cut.length pkt (.head _)
    have whole := cut.whole
    obtain ⟨final, hs, finishes⟩ := ih cut.tail (by omega) (readHeader pkt).state
      (len + (readHeader pkt).payloadLength)
    refine ⟨final, ?_, ?_⟩
    · rw [map_cons, entry, scan, if_neg later, if_neg (by omega), num, hs, ← whole,
        flatMap_cons, length_append, UInt16.ofNat_add, ← size, UInt16.ofNat_toNat, UInt16.add_assoc]
    · rw [finishes, if_neg (cons_ne_nil _ _)]
      by_cases last : packets = []
      · rw [cut.finished 0 pkt rfl, last]
        exact and_iff_right rfl
      · rw [if_neg last]

variable {arrived : List UInt8 → Bool} {missing : List UInt8}

theorem scan_missing (cut : Cut key first shorter data packets) (later : first ≠ 0)
    (hm : missing ∈ packets) (ha : arrived missing = false) {state : UInt8}
    (unfinished : state ≠ TransportState.finished.code) (len total : UInt16) :
    scan ((packets.filter arrived).map entry) first state len ≠
      some (TransportState.finished.code, total) := by
  induction packets generalizing first data state len with
  | nil => cases hm
  | cons pkt packets ih =>
    have num : (readHeader pkt).sequence.toNat = first + 1 := cut.sequence 0 pkt rfl
    by_cases here : arrived pkt = true
    · have behind : missing ∈ packets := by
        cases hm with
        | head => rw [here] at ha; cases ha
        | tail _ behind => exact behind
      have notLast : (readHeader pkt).state ≠ TransportState.finished.code := by
        intro finishes
        have last := ((cut.finished 0 pkt rfl).mp finishes).1
        have some := length_pos_of_mem behind
        simp only [length_cons] at last
        omega
      rw [filter_cons_of_pos here, map_cons, entry, scan, if_neg later, if_neg (by omega), num]
      exact ih cut.tail (by omega) behind notLast _
    · -- the next fragment that is there has a larger number
      rw [filter_cons_of_neg here]
      cases rest : packets.filter arrived with
      | nil =>
        intro same
        cases same
        exact unfinished rfl
      | cons next _ =>
        have kept : next ∈ packets.filter arrived := by
          rw [rest]
          exact .head _
        have less := rel_of_pairwise_cons cut.sorted (mem_filter.mp kept).1
        rw [UInt8.lt_iff_toNat_lt] at less
        rw [map_cons, entry, scan, if_neg later, if_pos (by omega)]
        exact nofun

variable {fragments : Fragments}

theorem reassemble_missing (cut : Cut key 0 shorter data packets)
    (hl : fragments.toList = (packets.filter arrived).map entry) (hm : missing ∈ packets)
    (ha : arrived missing = false) : reassemble fragments = none := by
  have unfinished : ∀ total, scan fragments.toList 0 TransportState.unknown.code 0 ≠
      some (TransportState.finished.code, total) := by
    intro total
    rw [hl]
    cases packets with
    | nil => cases hm
    | cons pkt packets =>
      have stored := (cut.start 0 pkt rfl).mpr rfl
      have num : (readHeader pkt).sequence.toNat = 0 + 1 := cut.sequence 0 pkt rfl
      by_cases here : arrived pkt = true
      · have behind : missing ∈ packets := by
          cases hm with
          | head => rw [here] at ha; cases ha
          | tail _ behind => exact behind
        rw [filter_cons_of_pos here, map_cons, entry, scan, if_neg (not_not_intro stored), num]
        exact scan_missing cut.tail (by omega) behind ha (by decide) _ _
      · -- no other fragment starts the packet
        rw [filter_cons_of_neg here]
        cases rest : packets.filter arrived with
        | nil => exact nofun
        | cons next _ =>
          have kept : next ∈ packets.filter arrived := by
            rw [rest]
            exact .head _
          obtain ⟨i, hf⟩ := List.getElem?_of_mem (mem_filter.mp kept).1
          have inner := mt (cut.start (i + 1) next hf).mp (by omega)
          rw [map_cons, entry, scan, if_pos inner]
          exact nofun
  rw [reassemble]
  cases hs : scan fragments.toList 0 TransportState.unknown.code 0 with
  | none => rfl
  | some res =>
    obtain ⟨state, total⟩ := res
    apply if_pos
    rintro rfl
    exact unfinished total hs

theorem reassemble_whole [Decidable shorter] (cut : Cut key 0 shorter data packets)
    (some : packets ≠ []) (small : data.length ≤ 65535)
    (hl : fragments.toList = packets.map entry) :
    reassemble fragments = if shorter then Option.some data else none := by
  have payloads : (fragments.toList.flatMap fun entry => entry.2.2) = data := by
    rw [hl, flatMap_map, ← cut.whole]
    rfl
  have size : (ofNat data.length).toNat = data.length := by
    rw [toNat_ofNat']
    omega
  obtain ⟨final, hs, finishes⟩ : ∃ final, scan fragments.toList 0 TransportState.unknown.code 0 =
        Option.some (final, ofNat data.length) ∧
      (final = TransportState.finished.code ↔ shorter) := by
    rw [hl]
    cases packets with
    | nil => exact absurd rfl some
    | cons pkt packets =>
      have stored := (cut.start 0 pkt rfl).mpr rfl
      have num : (readHeader pkt).sequence.toNat = 0 + 1 := cut.sequence 0 pkt rfl
      have len := cut.length pkt (.head _)
      have whole := cut.whole
      obtain ⟨final, hs, finishes⟩ := scan_whole cut.tail (by omega)
        TransportState.unknown.code (0 + (readHeader pkt).payloadLength)
      refine ⟨final, ?_, ?_⟩
      · rw [map_cons, entry, scan, if_pos rfl, if_neg (not_not_intro stored), num,
          hs, ← whole, flatMap_cons, length_append, ofNat_add, ← len,
          UInt16.ofNat_toNat, UInt16.zero_add]
      rw [finishes]
      by_cases ha : packets = []
      · -- a fragment that starts the packet does not finish it
        have only := cut.finished 0 pkt rfl
        rw [stored, ha] at only
        rw [if_pos ha]
        exact ⟨fun same => absurd same (by decide),
          fun shorter => absurd (only.mpr ⟨rfl, shorter⟩) (by decide)⟩
      · rw [if_neg ha]
  rw [reassemble, hs]
  simp only [Option.bind_eq_bind, Option.bind_some, payloads, size, take_length]
  by_cases short : shorter
  · rw [if_pos short]
    exact if_neg (not_not_intro (finishes.mpr short))
  · rw [if_neg short]
    exact if_pos (mt finishes.mp short)

theorem toList_insertIfNew (cut : Cut key first shorter data packets) {arrived : List (List UInt8)}
    (hl : fragments.toList = (packets.filter (· ∈ arrived)).map entry) {pkt : List UInt8}
    (hm : pkt ∈ packets) (hf : pkt ∉ arrived) : (fragments.insertIfNew (readHeader pkt).sequence
      (readHeader pkt, readPayload pkt)).toList =
      (packets.filter (· ∈ pkt :: arrived)).map entry := by
  have hh : ∀ num val, fragments[num]? = some val ↔
      ∃ other ∈ packets, other ∈ arrived ∧ entry other = (num, val) := by
    intro num val
    rw [← TreeMap.mem_toList_iff_getElem?_eq_some, hl]
    simp [and_assoc]
  have new : (readHeader pkt).sequence ∉ fragments := by
    rw [TreeMap.mem_iff_isSome_getElem?]
    cases found : fragments[(readHeader pkt).sequence]? with
    | none => exact Bool.false_ne_true
    | some val =>
      obtain ⟨other, hi, came, same⟩ := (hh _ _).mp found
      rw [cut.eq_of_sequence hi hm (Prod.mk.inj same).1] at came
      exact absurd came hf
  apply NestedMap.toList_eq
  · rw [pairwise_map]
    apply (cut.sorted.filter _).imp
    intro one two less
    exact Std.compare_eq_lt.mpr less
  intro num val
  rw [TreeMap.getElem?_insertIfNew]
  simp only [NestedMap.compare_eq_iff, mem_map, mem_filter, decide_eq_true_eq, mem_cons]
  by_cases same : num = (readHeader pkt).sequence
  · rw [if_pos ⟨same, new⟩, same]
    constructor
    · intro hs
      exact ⟨pkt, ⟨hm, .inl rfl⟩, congrArg _ (Option.some.inj hs)⟩
    · rintro ⟨other, ⟨hi, _⟩, hs⟩
      rw [cut.eq_of_sequence hi hm (Prod.mk.inj hs).1] at hs
      exact congrArg some (Prod.mk.inj hs).2
  · rw [if_neg (same ·.1), hh]
    constructor
    · rintro ⟨other, hi, came, hs⟩
      exact ⟨other, ⟨hi, .inr came⟩, hs⟩
    · rintro ⟨other, ⟨hi, rfl | came⟩, hs⟩
      · exact absurd (Prod.mk.inj hs).1.symm same
      · exact ⟨other, hi, came, hs⟩

end

section

variable {key : UInt16} {buf : ReassemblyBuffer} {pkt : List UInt8}

theorem key_inj {one two : UInt16} : one.toUInt32 = two.toUInt32 ↔ one = two := by
  rw [← UInt32.toNat_inj, UInt16.toNat_toUInt32, UInt16.toNat_toUInt32, UInt16.toNat_inj]

theorem arrivalsFor_own (own : (readHeader pkt).key = key) (later : List (List UInt8)) :
    arrivalsFor key (pkt :: later) = pkt :: arrivalsFor key later :=
  filter_cons_of_pos (decide_eq_true own)

theorem arrivalsFor_other (other : (readHeader pkt).key ≠ key) (later : List (List UInt8)) :
    arrivalsFor key (pkt :: later) = arrivalsFor key later :=
  filter_cons_of_neg (by simpa using other)

theorem handle_elsewhere (other : (readHeader pkt).key ≠ key) :
    (handle buf pkt).1[key.toUInt32]? = buf[key.toUInt32]? := by
  have hd := mt key_inj.mp other.symm
  unfold handle
  dsimp only
  split
  · split
    · rw [NestedMap.getElem?_insert, if_neg hd]
    · rw [NestedMap.getElem?_erase, if_neg hd, NestedMap.getElem?_insert, if_neg hd]
  · split
    · rfl
    · rfl

theorem handle_fragment (fragmented : Fragmented (readHeader pkt).state)
    (own : (readHeader pkt).key = key) {fragments : Fragments}
    (hs : (buf[key.toUInt32]?.getD ∅).insertIfNew (readHeader pkt).sequence
      (readHeader pkt, readPayload pkt) = fragments) :
    (handle buf pkt).2 = reassemble fragments ∧ (handle buf pkt).1[key.toUInt32]? =
        if (reassemble fragments).isSome then none else some fragments := by
  subst own
  simp only [handle, if_pos fragmented, hs]
  cases reassemble fragments with
  | none => exact ⟨rfl, TreeMap.getElem?_insert_self⟩
  | some sent => exact ⟨rfl, TreeMap.getElem?_erase_self⟩

theorem sentFor_cons {later : List (List UInt8)} : sentFor key (run buf (pkt :: later)).2 =
      (if (readHeader pkt).key = key then (handle buf pkt).2.toList else []) ++
        sentFor key (run (handle buf pkt).1 later).2 := by
  rw [run, sentFor, filter_append, map_append, filter_map]
  split
  · rename_i own
    simp [Function.comp_def, own, sentFor]
  · rename_i other
    simp [other, sentFor]

theorem run_elsewhere {arrivals : List (List UInt8)} (other : arrivalsFor key arrivals = []) :
    (run buf arrivals).1[key.toUInt32]? = buf[key.toUInt32]? ∧
      sentFor key (run buf arrivals).2 = [] := by
  induction arrivals generalizing buf with
  | nil => exact ⟨rfl, rfl⟩
  | cons pkt later ih =>
    have foreign : (readHeader pkt).key ≠ key := by
      intro own
      rw [arrivalsFor_own own] at other
      cases other
    rw [arrivalsFor_other foreign] at other
    have after := @ih (handle buf pkt).1 other
    constructor
    · exact after.1.trans (handle_elsewhere foreign)
    · rw [sentFor_cons, if_neg foreign]
      exact after.2

/-- The fragments of a packet arrive in any order, with any others between them. -/
theorem run_fragments {shorter : Prop} [Decidable shorter] {data : List UInt8}
    {packets : List (List UInt8)} (cut : Cut key 0 shorter data packets)
    (small : data.length ≤ 65535) {arrivals : List (List UInt8)} {arrived : List (List UInt8)}
    (hl : (buf[key.toUInt32]?.getD ∅).toList = (packets.filter (· ∈ arrived)).map entry)
    (all : (arrived ++ arrivalsFor key arrivals).Perm packets)
    (more : arrivalsFor key arrivals ≠ []) :
    sentFor key (run buf arrivals).2 = (if shorter then [data] else []) ∧
      (shorter → (run buf arrivals).1[key.toUInt32]? = none) := by
  -- the invariant is that the entry lists the fragments that have arrived
  induction arrivals generalizing buf arrived with
  | nil => exact absurd rfl more
  | cons pkt later ih =>
    by_cases own : (readHeader pkt).key = key
    · rw [arrivalsFor_own own] at all
      have hd : (arrived ++ pkt :: arrivalsFor key later).Nodup :=
        all.nodup_iff.mpr (cut.sorted.imp fun {one two} less same => by
          rw [same] at less
          exact UInt8.lt_irrefl _ less)
      have hm : pkt ∈ packets := all.mem_iff.mp (by simp)
      have hf : pkt ∉ arrived := fun came =>
        (nodup_append.mp hd).2.2 pkt came pkt (.head _) rfl
      have hs := toList_insertIfNew cut hl hm hf
      generalize put : (buf[key.toUInt32]?.getD ∅).insertIfNew (readHeader pkt).sequence
        (readHeader pkt, readPayload pkt) = fragments at hs
      obtain ⟨sent, kept⟩ := handle_fragment (cut.fragmented pkt hm) own put
      rw [sentFor_cons, if_pos own, sent]
      by_cases last : arrivalsFor key later = []
      · rw [last] at all
        have everything : packets.filter (· ∈ pkt :: arrived) = packets := by
          apply filter_eq_self.mpr
          intro one hi
          have came := all.mem_iff.mpr hi
          simp only [mem_append, mem_singleton] at came
          exact decide_eq_true (mem_cons.mpr came.symm)
        rw [everything] at hs
        have res := reassemble_whole cut (ne_nil_of_mem hm) small hs
        obtain ⟨same, silent⟩ := @run_elsewhere key (handle buf pkt).1 later last
        rw [res] at kept ⊢
        rw [silent]
        constructor
        · by_cases short : shorter
          · rw [if_pos short, if_pos short]
            rfl
          · rw [if_neg short, if_neg short]
            rfl
        · intro short
          rw [if_pos short] at kept
          exact same.trans kept
      · obtain ⟨missing, expected⟩ := exists_mem_of_ne_nil _ last
        have ha : missing ∉ pkt :: arrived := by
          intro came
          have apart := nodup_append.mp hd
          cases came with
          | head => exact (nodup_cons.mp apart.2.1).1 expected
          | tail _ came => exact apart.2.2 missing came missing (.tail _ expected) rfl
        have res := reassemble_missing cut hs (all.mem_iff.mp (by simp [expected]))
          (decide_eq_false ha)
        rw [res] at kept ⊢
        apply @ih (handle buf pkt).1 (pkt :: arrived)
        · rw [kept]
          exact hs
        · exact perm_middle.symm.trans all
        · exact last
    · rw [arrivalsFor_other own] at all more
      rw [sentFor_cons, if_neg own]
      exact ih (by rwa [handle_elsewhere own]) all more

theorem handle_single {hdr : Header} (single : hdr.state = TransportState.singlePacket.code)
    (hs : data.length ≤ 65535) : handle buf (hdr.bytes ++ data) = (buf, some data) := by
  have size : (ofNat (hdr.bytes ++ data).length - ofNat sizeofHeader).toNat = data.length := by
    rw [length_append, hdr.length_bytes, Nat.add_comm, ofNat_add,
      UInt16.add_sub_cancel, UInt16.toNat_ofNat']
    omega
  have whole : ¬ Fragmented hdr.state := by
    rw [single]
    decide
  rw [handle, readHeader_bytes]
  dsimp only
  rw [if_neg whole, if_pos single, drop_left' hdr.length_bytes, size, take_length]

theorem run_single {data : List UInt8} {arrivals : List (List UInt8)}
    (only : arrivalsFor key arrivals = [pkt]) (sends : ∀ buf, handle buf pkt = (buf, some data)) :
    sentFor key (run buf arrivals).2 = [data] ∧
      (run buf arrivals).1[key.toUInt32]? = buf[key.toUInt32]? := by
  induction arrivals generalizing buf with
  | nil => cases only
  | cons first later ih =>
    by_cases own : (readHeader first).key = key
    · rw [arrivalsFor_own own] at only
      obtain ⟨rfl, rest⟩ := List.cons.inj only
      obtain ⟨same, hs⟩ := @run_elsewhere key (handle buf first).1 later rest
      constructor
      · rw [sentFor_cons, if_pos own, hs, sends]
        rfl
      · rw [sends] at same
        rw [run, sends]
        exact same
    · rw [arrivalsFor_other own] at only
      obtain ⟨sent, kept⟩ := @ih (handle buf first).1 only
      constructor
      · rw [sentFor_cons, if_neg own, nil_append, sent]
      · exact kept.trans (handle_elsewhere own)

end

/-- A packet passed to `publish` comes out of `handle` once, whatever the order in which its
fragments arrive and whatever else arrives between them, unless several fragments have the same
length, none of which is then marked as the last one. -/
theorem reassembled_iff (key mitu : UInt16) (idLength : UInt32) (data : List UInt8)
    (positive : 0 < maxPayloadLength mitu idLength) (small : data.length ≤ 65535)
    (few : (data.length + (maxPayloadLength mitu idLength).toNat - 1) /
      (maxPayloadLength mitu idLength).toNat ≤ 255) :
    ∃ packets, publish key mitu idLength data = some packets ∧
      ∀ (buffer : ReassemblyBuffer) (arrivals : List (List UInt8)),
        buffer[key.toUInt32]? = none → (arrivalsFor key arrivals).Perm packets →
        (sentFor key (run buffer arrivals).2 = [data] ∧
            (run buffer arrivals).1[key.toUInt32]? = none ↔
          data.length ≤ (maxPayloadLength mitu idLength).toNat ∨
            data.length % (maxPayloadLength mitu idLength).toNat ≠ 0) := by
  have published := publish_spec key rfl (lt_iff_toNat_lt.mp positive) small few
  by_cases fits : data.length ≤ (maxPayloadLength mitu idLength).toNat
  · rw [if_pos fits] at published
    refine ⟨_, published, ?_⟩
    intro buffer arrivals hf all
    obtain ⟨sent, kept⟩ := @run_single key buffer _ data arrivals (perm_singleton.mp all)
      fun _ => handle_single rfl small
    exact iff_of_true ⟨sent, kept.trans hf⟩ (.inl fits)
  rw [if_neg fits] at published
  obtain ⟨packets, published, cut⟩ := published
  refine ⟨packets, published, ?_⟩
  intro buffer arrivals hf all
  have some : packets ≠ [] := by
    rintro rfl
    have whole := cut.whole
    rw [← whole] at fits
    exact fits (Nat.zero_le _)
  have res := @run_fragments key buffer _ _ data packets cut small arrivals [] (by
    rw [hf, filter_eq_nil_iff.mpr (by simp)]
    rfl) all (fun none => some (by rw [none] at all; exact all.nil_eq.symm))
  constructor
  · rintro ⟨sent, -⟩
    right
    intro multiple
    rw [res.1, if_neg (not_not_intro multiple)] at sent
    cases sent
  · intro condition
    have ragged := condition.resolve_left fits
    rw [res.1, if_pos ragged]
    exact ⟨rfl, res.2 ragged⟩

/-- Three bytes go in a fragment of two and one of one. -/
theorem reassembled_iff_ragged : ∃ packets, publish 7 44 16 [1, 2, 3] = some packets ∧
    ∀ (buffer : ReassemblyBuffer) (arrivals : List (List UInt8)),
      buffer[(7 : UInt16).toUInt32]? = none → (arrivalsFor 7 arrivals).Perm packets →
      sentFor 7 (run buffer arrivals).2 = [[1, 2, 3]] ∧
        (run buffer arrivals).1[(7 : UInt16).toUInt32]? = none := by
  obtain ⟨packets, published, reassembled⟩ := reassembled_iff 7 44 16 [1, 2, 3] (by decide)
    (by decide) (by decide)
  exact ⟨packets, published, fun buffer arrivals hf all =>
    (reassembled buffer arrivals hf all).mpr (by decide)⟩

/-- Two fragments of one byte each: nothing is sent when both have arrived. -/
theorem equal_fragments_never_sent : ∃ packets, publish 7 43 16 [1, 2] = some packets ∧
    (run ∅ packets).2 = [] ∧ (run ∅ packets).1[(7 : UInt16).toUInt32]? ≠ none := by
  refine ⟨[[7, 0, 1, 0, 1, 0, 1], [7, 0, 1, 0, 2, 1, 2]], ?_, ?_, ?_⟩
  · decide +kernel
  · decide +kernel
  · decide +kernel

end Blackadder.Utp
