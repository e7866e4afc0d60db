import Mathlib.Algebra.Group.Nat.Defs
import Mathlib.Data.List.Basic

namespace Blackadder.Http

open List Option

/-- `string::find` from a position on. -/
def find (text pattern : List UInt8) (pos : Nat) : Option Nat :=
  (range' pos (text.length - pos)).find? fun i => pattern <+: text.drop i

theorem find_eq_some {text pattern : List UInt8} {pos i : Nat} (ha : pos ≤ i) (hb : i < text.length)
    (hp : pattern <+: text.drop i) (first : ∀ j, pos ≤ j → j < i → ¬ pattern <+: text.drop j) :
    find text pattern pos = some i := by
  rw [find, find?_range'_eq_some]
  refine ⟨decide_eq_true hp, ?_, fun j hj hi => ?_⟩
  · rw [mem_range'_1]
    omega
  · simpa using first j hj hi

theorem find_isSome (text pattern : List UInt8) (pos : Nat) : (find text pattern pos).isSome ↔
      ∃ i, pos ≤ i ∧ i < text.length ∧ pattern <+: text.drop i := by
  simp only [find, find?_isSome, mem_range'_1, decide_eq_true_eq]
  refine exists_congr fun i => ?_
  rw [and_assoc]
  refine and_congr_right fun _ => and_congr_left fun _ => ?_
  omega

/-- The two functions of this name. -/
inductive Overload
  | bytes
  | chars

/-- The loop that copies up to the next blank. Without one it leaves the packet. -/
def copyResource : List UInt8 → Option (List UInt8)
  | [] => none
  | character :: rest =>
    if character = 32 then some [] else (copyResource rest).map (character :: ·)

/-- The outer option says whether these many calls are enough, and the inner one whether all that is
read is in the packet. The first function calls itself, not the second one. -/
def readResource : Overload → Nat → List UInt8 → Option (Option (List UInt8))
  | _, 0, _ => none
  | .bytes, calls + 1, packet => readResource .bytes calls packet
  | .chars, _ + 1, packet =>
    match find packet [32, 47] 1 with
    | none => some (some [47])
    | some pos => some ((copyResource (packet.drop (pos + 2))).map (47 :: ·))

theorem readResource_bytes (calls : Nat) (pkt : List UInt8) :
    readResource .bytes calls pkt = none := by
  induction calls with
  | zero => rfl
  | succ calls ih => exact ih

theorem copyResource_append {r : List UInt8} (rest : List UInt8) (hr : 32 ∉ r) :
    copyResource (r ++ 32 :: rest) = some r := by
  induction r with
  | nil => rfl
  | cons _ _ ih =>
    rw [mem_cons, not_or] at hr
    rw [cons_append, copyResource, if_neg (Ne.symm hr.1), ih hr.2]
    rfl

theorem copyResource_isSome (rest : List UInt8) : (copyResource rest).isSome ↔ 32 ∈ rest := by
  induction rest with
  | nil => simp [copyResource]
  | cons character rest ih =>
    by_cases blank : character = 32
    · simp [copyResource, blank]
    · simp [copyResource, blank, ih, Ne.symm blank]

/-- A result is reached inside the packet, and is the resource behind a method. -/
def ReadsResource (overload : Overload) (packet : List UInt8) : Prop :=
  (∃ calls resource, readResource overload calls packet = some (some resource)) ∧
  ∀ method r rest, packet = method ++ 32 :: 47 :: r ++ 32 :: rest → method ≠ [] → 32 ∉ method →
    32 ∉ r → ∃ calls, readResource overload calls packet = some (some (47 :: r))

theorem find_resource {method tail : List UInt8} (hn : method ≠ []) (hm : 32 ∉ method) :
    find (method ++ 32 :: 47 :: tail) [32, 47] 1 = some method.length := by
  apply find_eq_some
  · exact length_pos_iff.mpr hn
  · simp
  · simp
  · intro j _ hj hp
    rw [drop_append_of_le_length (Nat.le_of_lt hj), drop_eq_getElem_cons hj, cons_append,
      cons_prefix_cons] at hp
    exact hm (hp.1 ▸ getElem_mem hj)

/-- The second function needs a blank behind the resource, and the first one never returns. -/
theorem readsResource_iff (overload : Overload) (packet : List UInt8) :
    ReadsResource overload packet ↔
      overload = .chars ∧ ∀ pos, find packet [32, 47] 1 = some pos →
        32 ∈ packet.drop (pos + 2) := by
  cases overload with
  | bytes => simp [ReadsResource, readResource_bytes]
  | chars =>
    constructor
    · rintro ⟨⟨calls, resource, hr⟩, -⟩
      refine ⟨rfl, fun pos hf => (copyResource_isSome _).mp ?_⟩
      cases calls with
      | zero => cases hr
      | succ calls =>
        simp only [readResource, hf, some.injEq, map_eq_some_iff] at hr
        obtain ⟨r, copied, -⟩ := hr
        exact isSome_of_eq_some copied
    · rintro ⟨-, blank⟩
      constructor
      · cases hf : find packet [32, 47] 1 with
        | none => exact ⟨1, [47], by simp [readResource, hf]⟩
        | some pos =>
          obtain ⟨r, hr⟩ := isSome_iff_exists.mp ((copyResource_isSome _).mpr (blank pos hf))
          exact ⟨1, 47 :: r, by simp [readResource, hf, hr]⟩
      · rintro method r rest rfl hn hm hr
        refine ⟨1, ?_⟩
        simp [readResource, find_resource hn hm, copyResource_append rest hr]

/-- Without a blank behind the resource, the second function reads on behind the packet. -/
theorem resource_not_returned :
    (∀ calls, readResource .bytes calls [71, 69, 84, 32, 47, 97, 32] = none) ∧
      readResource .chars 1 [71, 69, 84, 32, 47, 97] = some none :=
  ⟨fun calls => readResource_bytes calls _, by decide⟩

inductive HttpMethod
  | connect
  | delete
  | extension
  | get
  | head
  | options
  | post
  | put
  | trace
deriving DecidableEq

def HttpMethod.name : HttpMethod → List UInt8
  | connect => [99, 111, 110, 110, 101, 99, 116]
  | delete => [100, 101, 108, 101, 116, 101]
  | extension => [101, 120, 116, 101, 110, 115, 105, 111, 110]
  | get => [103, 101, 116]
  | head => [104, 101, 97, 100]
  | options => [111, 112, 116, 105, 111, 110, 115]
  | post => [112, 111, 115, 116]
  | put => [112, 117, 116]
  | trace => [116, 114, 97, 99, 101]

theorem HttpMethod.length_name (method : HttpMethod) :
    3 ≤ method.name.length ∧ method.name.length ≤ 9 := by
  cases method <;> decide

/-- `::tolower`. -/
def lower (byte : UInt8) : UInt8 := if 65 ≤ byte ∧ byte ≤ 90 then byte + 32 else byte

/-- Each search goes on from a position that has a name. The second one for `delete` uses that of
`put`. -/
def searches : List (HttpMethod × HttpMethod) :=
  [(.connect, .connect), (.delete, .delete), (.extension, .extension), (.get, .get), (.head, .head),
    (.options, .options), (.post, .post), (.put, .put), (.put, .delete), (.trace, .trace)]

/-- `npos` is `none`. One more than that is 0. -/
def increment : Option Nat → Nat
  | none => 0
  | some pos => pos + 1

def searchAll (text : List UInt8) (positions : HttpMethod → Option Nat) :
    List (HttpMethod × HttpMethod) → Option HttpMethod × (HttpMethod → Option Nat)
  | [] => (none, positions)
  | (position, method) :: rest =>
    if (find text method.name (increment (positions position))).isSome then (some method, positions)
    else searchAll text (fun other => if other = position then none else positions other) rest

/-- The loop, for a number of rounds. -/
def readMethod (text : List UInt8) (packetSize : Nat) :
    Nat → Nat → (HttpMethod → Option Nat) → Option (Option HttpMethod)
  | 0, _, _ => none
  | rounds + 1, pos, positions =>
    match searchAll text positions searches with
    | (some method, _) => some (some method)
    | (none, positions) =>
      if (pos + 1) % 2 ^ 64 = packetSize then some none
      else readMethod text packetSize rounds ((pos + 1) % 2 ^ 64) positions

def readHttpRequestMethod (rounds : Nat) (packet : List UInt8) : Option (Option HttpMethod) :=
  readMethod ((packet.take 50).map lower) packet.length rounds 0 fun _ => some 0

/-- For an empty packet the number of the round overflows before the loop ends. -/
theorem readMethod_ends {packetSize rounds pos : Nat} (text : List UInt8)
    (positions : HttpMethod → Option Nat) (last : (pos + rounds + 1) % 2 ^ 64 = packetSize) :
    (readMethod text packetSize (rounds + 1) pos positions).isSome := by
  induction rounds generalizing pos positions with
  | zero =>
    rw [readMethod]
    split
    · rfl
    · rw [if_pos last]
      rfl
  | succ rounds ih =>
    rw [readMethod]
    split
    · rfl
    split
    · rfl
    · apply ih
      omega

/-- Where the searches of a round start, as long as nothing is found. -/
def startsOf (positions : HttpMethod → Option Nat) :
    List (HttpMethod × HttpMethod) → List (Nat × HttpMethod)
  | [] => []
  | (position, method) :: rest => (increment (positions position), method) ::
      startsOf (fun other => if other = position then none else positions other) rest

theorem searchAll_fst (text : List UInt8) (positions : HttpMethod → Option Nat)
    (list : List (HttpMethod × HttpMethod)) : (searchAll text positions list).1 =
      ((startsOf positions list).find? fun s => (find text s.2.name s.1).isSome).map (·.2) := by
  fun_induction searchAll text positions list with
  | case1 => rfl
  | case2 _ _ _ _ found => simp [startsOf, found]
  | case3 _ _ _ _ missing ih => simp [startsOf, missing, ih]

theorem searchAll_snd {text : List UInt8} {positions : HttpMethod → Option Nat}
    {list : List (HttpMethod × HttpMethod)} (missing : (searchAll text positions list).1 = none) :
    (searchAll text positions list).2 =
      fun other => if other ∈ list.map Prod.fst then none else positions other := by
  fun_induction searchAll text positions list with
  | case1 => simp
  | case2 => cases missing
  | case3 _ _ _ _ _ ih =>
    rw [ih missing]
    funext other
    split_ifs <;> simp_all

/-- The name stands in the text, but not only at the first byte. -/
def standsBehind (text : List UInt8) (method : HttpMethod) : Bool :=
    (find text method.name 1).isSome

def firstNames : List HttpMethod :=
  [.connect, .delete, .extension, .get, .head, .options, .post, .put]

/-- The names looked for behind the first byte, before `delete` is found at it. -/
def searchedFirst (method : HttpMethod) : List HttpMethod :=
  firstNames ++ if method = .delete then [] else [.trace]

theorem eq_of_name_start {method other : HttpMethod} {tail : List UInt8}
    (hp : other.name <+: method.name ++ tail) : other = method := by
  cases other <;> cases method <;> first | rfl | simp [HttpMethod.name] at hp

section

variable {text : List UInt8} {positions : HttpMethod → Option Nat} {packetSize rounds pos : Nat}

theorem readMethod_found {method : HttpMethod}
    (found : (searchAll text positions searches).1 = some method) :
    readMethod text packetSize (rounds + 1) pos positions = some (some method) := by
  rw [readMethod]
  split
  · simp_all
  · simp_all

theorem readMethod_missing (missing : (searchAll text positions searches).1 = none)
    (more : (pos + 1) % 2 ^ 64 ≠ packetSize) :
    readMethod text packetSize (rounds + 1) pos positions =
      readMethod text packetSize rounds ((pos + 1) % 2 ^ 64) fun _ => none := by
  have after := searchAll_snd missing
  rw [readMethod]
  split
  · simp_all
  rename_i later same
  rw [if_neg more]
  congr 1
  rw [same] at after
  rw [show later = _ from after]
  funext other
  cases other <;> rfl

end

variable {text tail : List UInt8} {method : HttpMethod} (starts : text = method.name ++ tail)

include starts

theorem find_zero (other : HttpMethod) :
    (find text other.name 0).isSome ↔ other = method ∨ standsBehind text other := by
  rw [standsBehind, find_isSome, find_isSome]
  constructor
  · rintro ⟨i, -, hi, hp⟩
    cases i with
    | zero => exact .inl (eq_of_name_start (starts ▸ hp))
    | succ i => exact .inr ⟨i + 1, by omega, hi, hp⟩
  · rintro (rfl | ⟨i, -, hi, hp⟩)
    · refine ⟨0, by omega, ?_, by simp [starts]⟩
      have := other.length_name
      rw [starts, length_append]
      omega
    · exact ⟨i, by omega, hi, hp⟩

theorem searchAll_first : (searchAll text (fun _ => some 0) searches).1 =
      ((searchedFirst method).find? (standsBehind text)).or
        (if method = .delete then some .delete else none) := by
  have all : startsOf (fun _ => some 0) searches =
      firstNames.map ((1, ·)) ++ [(0, .delete), (1, .trace)] := rfl
  have behind : (fun s : Nat × HttpMethod => (find text s.2.name s.1).isSome) ∘ ((1, ·)) =
    standsBehind text := rfl
  rw [searchAll_fst, all, searchedFirst, find?_append, find?_append, find?_map, behind]
  cases first : firstNames.find? (standsBehind text) with
  | some other => simp
  | none =>
    have delete := find?_eq_none.mp first .delete (by decide)
    have zero := find_zero starts .delete
    by_cases same : method = .delete
    · simp [same, zero.mpr (.inl same.symm)]
    have missing : (find text HttpMethod.delete.name 0).isSome = false := by
      simpa [delete, Ne.symm same] using zero
    simp [same, missing, find?_cons, standsBehind]
    split <;> rfl

theorem searchAll_second (missing : ∀ other, ¬ standsBehind text other) :
    (searchAll text (fun _ => none) searches).1 = some method := by
  have all : startsOf (fun _ => none) searches = searches.map fun search => (0, search.2) := rfl
  have only : ∀ other : HttpMethod, (find text other.name 0).isSome = decide (other = method) := by
    intro other
    rw [Bool.eq_iff_iff, decide_eq_true_iff]
    exact (find_zero starts other).trans (or_iff_left (missing other))
  rw [searchAll_fst, all, find?_map]
  simp only [Function.comp_def, only]
  cases method <;> rfl

omit starts

/-- Other names may stand behind the first byte, as long as that of the method is searched for
first. -/
theorem readHttpRequestMethod_iff (packet : List UInt8) (small : packet.length < 2 ^ 16) :
    (∃ rounds, (readHttpRequestMethod rounds packet).isSome) ∧
    ∀ method name rest, method ≠ .extension → name.map lower = method.name →
      packet = name ++ 32 :: rest →
      ((∃ rounds, readHttpRequestMethod rounds packet = some (some method)) ↔
        ((searchedFirst method).find? (standsBehind ((packet.take 50).map lower))).getD method =
          method) := by
  refine ⟨⟨packet.length + 2 ^ 64 - 1 + 1, readMethod_ends _ _ ?_⟩, ?_⟩
  · omega
  rintro method name rest - same rfl
  have size := method.length_name
  rw [← same, length_map] at size
  have starts : ((name ++ 32 :: rest).take 50).map lower =
      method.name ++ ((32 :: rest).take (50 - name.length)).map lower := by
    rw [take_append, map_append, take_of_length_le (by omega), same]
  have first := searchAll_first starts
  have second := searchAll_second starts
  have long : 1 ≠ (name ++ 32 :: rest).length := by
    rw [length_append]
    omega
  simp only [readHttpRequestMethod]
  generalize ((name ++ 32 :: rest).take 50).map lower = text at first second
  cases hf : (searchedFirst method).find? (standsBehind text) with
  | some other =>
    rw [hf] at first
    refine ⟨?_, fun same => ⟨1, ?_⟩⟩
    · rintro ⟨rounds, hr⟩
      cases rounds with
      | zero => cases hr
      | succ =>
        rw [readMethod_found first] at hr
        simpa using hr
    · rw [readMethod_found first, ← same]
      rfl
  | none =>
    refine iff_of_true ?_ rfl
    rw [hf] at first
    split at first
    · rename_i delete
      exact ⟨1, by rw [readMethod_found first, delete]⟩
    rename_i other
    refine ⟨2, ?_⟩
    rw [readMethod_missing first long, readMethod_found (second ?_)]
    have missing := find?_eq_none.mp hf
    rw [searchedFirst, if_neg other] at missing
    exact fun other => missing other (by cases other <;> decide)

theorem readHttpRequestMethod_get :
    ∃ rounds, readHttpRequestMethod rounds [71, 69, 84, 32, 47, 32] = some (some .get) :=
  ((readHttpRequestMethod_iff _ (by decide)).2 .get [71, 69, 84] [47, 32] (by decide) (by decide)
    rfl).mpr (by decide)

/-- The request `GET /delete` is read as one to delete something. -/
theorem get_read_as_delete :
    readHttpRequestMethod 1 [71, 69, 84, 32, 47, 100, 101, 108, 101, 116, 101, 32] =
      some (some .delete) := by
  decide

end Blackadder.Http
