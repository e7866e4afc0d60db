import Mathlib.Data.List.TakeWhile
import Mathlib.Data.Nat.Digits.Lemmas

namespace Blackadder.Nap

open List Nat UInt8

/-- A `std::string`. -/
abbrev Text : Type := List UInt8

/-- A character as a 32-bit number; `char` is signed. -/
def ofChar (c : UInt8) : UInt32 := c.toInt8.toInt32.toUInt32

/-- `_hashString`, which sees the text up to a NUL character. `_hashIcnId` has the same body. -/
def hashString (str : Text) : UInt32 :=
  (str.takeWhile (· ≠ 0)).foldl (fun hashed c => hashed * 31 + ofChar c) 0

/-- A number as `operator<<` writes it. -/
def decimal (n : Nat) : Text :=
  if n = 0 then [48] else (Nat.digits 10 n).reverse.map fun digit => UInt8.ofNat (48 + digit)

/-- A text written after `setw(width) << setfill('0')`. -/
def pad (width : Nat) (text : Text) : Text := List.replicate (width - text.length) 48 ++ text

def scopeLevels (str : Text) : UInt8 :=
  if str.length % 16 ≠ 0 then UInt8.ofNat (str.length / 16) + 1 else UInt8.ofNat (str.length / 16)

structure IcnId where
  icnIdString : Text
  icnIdHashed : UInt32
  fidRequested : Bool
  forwarding : Bool
  pausing : Bool
deriving DecidableEq

/-- `NAMESPACE_HTTP`, as it starts an identifier. -/
def namespaceHttp : Text := pad 16 (decimal 1)

namespace IcnId

/-- An identifier with its text. -/
def initialise (icnIdString : Text) : IcnId :=
    ⟨icnIdString, hashString icnIdString, false, false, false⟩

/-- The number that stands for a host: that of the wildcard is `DEFAULT_HTTP_IID`. -/
def hashFqdn (fqdn : Text) : UInt32 := if fqdn = [42] then 0 else hashString fqdn

/-- The identifier with a hashed name below the HTTP namespace. -/
def ofHashed (hashed : UInt32) : IcnId :=
  let text := decimal hashed.toNat
  initialise (namespaceHttp ++ pad ((scopeLevels text).toNat * 16) text)

/-- `IcnId(string fqdn)`. -/
def ofFqdn (fqdn : Text) : IcnId := ofHashed (hashFqdn fqdn)

/-- `IcnId(string fqdn, string resource)`. -/
def ofUrl (fqdn resource : Text) : IcnId := ofHashed (hashString (fqdn ++ resource))

/-- `IcnId(uint32_t hashedFqdn)`. -/
def ofHashedFqdn (hashedFqdn : UInt32) : IcnId :=
  initialise (namespaceHttp ++ pad 16 (decimal hashedFqdn.toNat))

variable (icnId : IcnId)

def str : Text := icnId.icnIdString

def uint : UInt32 := icnId.icnIdHashed

def id : Text := icnId.icnIdString.drop (icnId.icnIdString.length - 16)

def prefixId : Text := icnId.icnIdString.take (icnId.icnIdString.length - 16)

def rootScopeId : Text := icnId.icnIdString.take 16

def scopeId (scopeLevel : Nat) : Text := (icnId.icnIdString.drop ((scopeLevel - 1) * 16)).take 16

def scopePath (scopeLevel : Nat) : Text := icnId.icnIdString.take (scopeLevel * 16)

/-- The length of the identifier in binary. -/
def length : Nat := icnId.icnIdString.length / 2

end IcnId

/-- The characters of a DNS name: letters, digits, hyphens and dots. -/
def IsDnsCharacter (c : UInt8) : Prop :=
  (97 ≤ c ∧ c ≤ 122) ∨ (65 ≤ c ∧ c ≤ 90) ∨ (48 ≤ c ∧ c ≤ 57) ∨ c = 45 ∨ c = 46

instance (c : UInt8) : Decidable (IsDnsCharacter c) :=
  inferInstanceAs (Decidable (_ ∨ _ ∨ _ ∨ _ ∨ _))

def IsDnsName (name : Text) : Prop := ∀ c ∈ name, IsDnsCharacter c

instance (name : Text) : Decidable (IsDnsName name) :=
  inferInstanceAs (Decidable (∀ c ∈ name, IsDnsCharacter c))

/-- A text read as a number in base 31. -/
def inBase31 (text : Text) : Nat := Nat.ofDigits 31 (text.reverse.map UInt8.toNat)

/-- The decimal digits of a name's hash, read in base 31. -/
def residue (name : Text) : Nat := Nat.ofDigits 31 (Nat.digits 10 (inBase31 name % 2 ^ 32))

section

variable {text : Text} {c : UInt8}

theorem ofChar_of_lt (ascii : c.toNat < 128) : (ofChar c).toNat = c.toNat := by
  have all : ∀ n : Fin 128, (ofChar (ofNat n)).toNat = n := by decide
  have this := all ⟨c.toNat, ascii⟩
  rwa [UInt8.ofNat_toNat] at this

theorem inBase31_append (text more : Text) :
    inBase31 (text ++ more) = inBase31 more + 31 ^ more.length * inBase31 text := by
  rw [inBase31, reverse_append, map_append, ofDigits_append, length_map, length_reverse]
  rfl

/-- The hash of ASCII text is the text in base 31, modulo 2^32. -/
theorem toNat_hashString (ascii : ∀ c ∈ text, 0 < c.toNat ∧ c.toNat < 128) :
    (hashString text).toNat = inBase31 text % 2 ^ 32 := by
  have whole : text.takeWhile (· ≠ 0) = text := by
    rw [takeWhile_eq_self_iff]
    intro c hm
    have hp := (ascii c hm).1
    apply decide_eq_true
    rintro rfl
    exact lt_irrefl _ hp
  rw [hashString, whole]
  clear whole
  -- by induction from the right, as the loop goes
  induction text using List.reverseRecOn with
  | nil => rfl
  | append_singleton text c ih =>
    have before := ih fun other hm => ascii other (mem_append_left _ hm)
    have char := ofChar_of_lt (ascii c (by simp)).2
    have last : inBase31 [c] = c.toNat := ofDigits_singleton
    have base : (31 : UInt32).toNat = 31 := rfl
    rw [foldl_append, foldl_cons, foldl_nil, UInt32.toNat_add, UInt32.toNat_mul,
      base, inBase31_append, length_singleton]
    omega

theorem IsDnsCharacter.ascii (dns : IsDnsCharacter c) : 0 < c.toNat ∧ c.toNat < 128 := by
  simp only [IsDnsCharacter, UInt8.le_iff_toNat_le, ← UInt8.toNat_inj, UInt8.reduceToNat] at dns
  omega

theorem pad_decimal (n : Nat) : pad 16 (decimal n) =
    List.replicate (16 - (digits 10 n).length) 48 ++
      (digits 10 n).reverse.map fun digit => ofNat (48 + digit) := by
  rw [pad, decimal]
  split
  · rename_i zero
    rw [zero]
    decide
  · rw [length_map, length_reverse]

theorem ofDigits_add (digits : List Nat) : ofDigits 31 (digits.map (48 + ·)) =
    ofDigits 31 (List.replicate digits.length 48) + ofDigits 31 digits := by
  induction digits with
  | nil => rfl
  | cons =>
    rw [map_cons, length_cons, replicate_succ, ofDigits_cons, ofDigits_cons, ofDigits_cons]
    omega

theorem inBase31_pad {n : Nat} (short : (digits 10 n).length ≤ 16) : inBase31 (pad 16 (decimal n)) =
      ofDigits 31 (List.replicate 16 48) + ofDigits 31 (digits 10 n) := by
  have digits : (digits 10 n).map (fun digit => (ofNat (48 + digit)).toNat) =
      (digits 10 n).map (48 + ·) := by
    apply map_congr_left
    intro digit hm
    have hs := digits_lt_base (by decide) hm
    rw [toNat_ofNat']
    omega
  have all : List.replicate 16 48 = List.replicate (Nat.digits 10 n).length 48 ++
      List.replicate (16 - (Nat.digits 10 n).length) 48 := by
    rw [replicate_append_replicate]
    congr 1
    omega
  have zero : (48 : UInt8).toNat = 48 := rfl
  rw [pad_decimal, inBase31, reverse_append, map_append, ← map_reverse,
    reverse_reverse, map_map, Function.comp_def, digits, reverse_replicate,
    map_replicate, zero, all, ofDigits_append, ofDigits_append, ofDigits_add,
    length_map, length_replicate]
  omega

variable (hashed : UInt32)

theorem length_digits : (digits 10 hashed.toNat).length ≤ 10 := by
  rw [digits_length_le_iff (by decide)]
  have hb := hashed.toNat_lt
  omega

theorem scopeLevels_decimal : scopeLevels (decimal hashed.toNat) = 1 := by
  have long := length_digits hashed
  have size : 1 ≤ (decimal hashed.toNat).length ∧ (decimal hashed.toNat).length ≤ 10 := by
    rw [decimal]
    split
    · decide
    rename_i hp
    have some := length_pos_iff.mpr (@Nat.digits_ne_nil_iff_ne_zero 10 _ |>.mpr hp)
    rw [length_map, length_reverse]
    omega
  rw [scopeLevels, if_pos (by omega), div_eq_of_lt (by omega)]
  rfl

open IcnId

theorem ofHashed_eq : ofHashed hashed = ofHashedFqdn hashed := by
  have width : (1 : UInt8).toNat * 16 = 16 := rfl
  rw [ofHashed, ofHashedFqdn, scopeLevels_decimal, width]

theorem uint_ofHashed : (ofHashed hashed).uint = hashString (ofHashed hashed).str := by
  rw [uint, str, ofHashed, initialise]

theorem str_ofHashed : (ofHashed hashed).str = namespaceHttp ++ pad 16 (decimal hashed.toNat) := by
  rw [ofHashed_eq, ofHashedFqdn, initialise, str]

theorem decimal_ascii (n : Nat) : ∀ c ∈ pad 16 (decimal n), 0 < c.toNat ∧ c.toNat < 128 := by
  intro c hm
  rw [pad_decimal, mem_append] at hm
  rcases hm with zero | digit
  · rw [eq_of_mem_replicate zero]
    decide
  obtain ⟨digit, hi, rfl⟩ := mem_map.mp digit
  have hs := digits_lt_base (by decide) (mem_reverse.mp hi)
  rw [toNat_ofNat']
  omega

/-- The key of an identifier depends on the digits of the hashed name, up to a constant. -/
theorem toNat_uint_ofHashed : (ofHashed hashed).uint.toNat =
    (ofDigits 31 (List.replicate 16 48) + 31 ^ 16 * inBase31 namespaceHttp +
      ofDigits 31 (digits 10 hashed.toNat)) % 2 ^ 32 := by
  have long := length_digits hashed
  have width : (pad 16 (decimal hashed.toNat)).length = 16 := by
    rw [pad_decimal, length_append, length_replicate, length_map, length_reverse]
    omega
  have ascii : ∀ c ∈ namespaceHttp ++ pad 16 (decimal hashed.toNat),
      0 < c.toNat ∧ c.toNat < 128 := by
    intro c hm
    rcases mem_append.mp hm with http | name
    · exact decimal_ascii 1 c http
    · exact decimal_ascii _ c name
  rw [uint_ofHashed, str_ofHashed, toNat_hashString ascii, inBase31_append,
    inBase31_pad (by omega), width, add_right_comm]

theorem hashFqdn_dns {name : Text} (dns : IsDnsName name) :
    (hashFqdn name).toNat = inBase31 name % 2 ^ 32 := by
  rw [hashFqdn, if_neg]
  · exact toNat_hashString fun c hm => (dns c hm).ascii
  · rintro rfl
    have star := dns 42 (.head _)
    revert star
    decide

/-- Hosts have the same key just if the decimal digits of their hashes are congruent in base 31. -/
theorem shares_iff {one two : Text} (first : IsDnsName one) (second : IsDnsName two) :
    ((ofFqdn one).str = (ofFqdn two).str ∨
        (ofFqdn one).uint = (ofFqdn two).uint) ↔
      residue one ≡ residue two [MOD 2 ^ 32] := by
  have text : (ofFqdn one).str = (ofFqdn two).str → (ofFqdn one).uint = (ofFqdn two).uint := by
    intro same
    rw [ofFqdn, ofFqdn, uint_ofHashed, uint_ofHashed]
    exact congrArg hashString same
  rw [or_iff_right_of_imp text, ← UInt32.toNat_inj, ofFqdn, ofFqdn,
    toNat_uint_ofHashed, toNat_uint_ofHashed, hashFqdn_dns first, hashFqdn_dns second, residue]
  generalize ofDigits 31 (List.replicate 16 48) + 31 ^ 16 * inBase31 namespaceHttp = constant
  exact ⟨ModEq.add_left_cancel' constant, ModEq.add_left constant⟩

end

end Blackadder.Nap
