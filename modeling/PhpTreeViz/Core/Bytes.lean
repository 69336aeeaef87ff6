import Mathlib.Data.List.TakeWhile
import Mathlib.Tactic.Ring

/-!
# Byte strings

Strings of languages whose strings are sequences of bytes: literals, decimal and hexadecimal
numerals, the conversion of a numeral to a 64-bit integer, and the bytes of an integer.
-/

namespace Core

/-- Decided for the bytes of the list, not for all that there are. -/
instance decidableForallMem (p : UInt8 → Prop) [DecidablePred p] (l : List UInt8) :
    Decidable (∀ b ∈ l, p b) :=
  List.decidableBAll p l

/-- The bytes of a literal, in UTF-8. -/
def bytes (s : String) : List UInt8 := s.toByteArray.data.toList

lemma bytes_inj {s t : String} : bytes s = bytes t ↔ s = t := by
  rw [bytes, bytes, Array.toList_inj, ← String.toByteArray_inj, ByteArray.ext_iff]

/-- Each character takes a byte at least. -/
lemma length_le_length_bytes (s : String) : s.length ≤ (bytes s).length := by
  have hchars : ∀ cs : List Char, cs.length ≤ (cs.flatMap String.utf8EncodeChar).length := by
    intro cs
    induction cs with
    | nil => exact Nat.le_refl 0
    | cons c cs ih =>
      have hpos := c.utf8Size_pos
      rw [List.flatMap_cons, List.length_append, String.length_utf8EncodeChar, List.length_cons]
      omega
  have hbytes : bytes s = s.toList.flatMap String.utf8EncodeChar := by
    rw [bytes, ← String.utf8Encode_toList, List.utf8Encode]
    simp
  rw [hbytes, ← String.length_toList]
  exact hchars s.toList

lemma bytes_ofList (cs : List Char) :
    bytes (String.ofList cs) = cs.flatMap String.utf8EncodeChar := by
  rw [bytes, String.toByteArray_ofList, List.utf8Encode]
  simp

/-- The text that some bytes encode, if they are valid UTF-8 -/
def textOf (bs : List UInt8) : Option String := String.fromUTF8? ⟨bs.toArray⟩

@[simp] lemma textOf_bytes (s : String) : textOf (bytes s) = some s := by
  have hbytes : (⟨(bytes s).toArray⟩ : ByteArray) = s.toByteArray := by simp [bytes]
  rw [textOf, hbytes, String.fromUTF8?, dif_pos s.isValidUTF8]
  rfl

/-- One character for every byte. -/
def asciiString (bs : List UInt8) : String := String.ofList (bs.map Char.ofUInt8)

lemma bytes_asciiString {bs : List UInt8} (h : ∀ b ∈ bs, b.toNat < 128) :
    bytes (asciiString bs) = bs := by
  have henc : (bs.map Char.ofUInt8).flatMap String.utf8EncodeChar = bs := by
    induction bs with
    | nil => rfl
    | cons b bs ih =>
      rw [List.forall_mem_cons] at h
      have hsize : (Char.ofUInt8 b).utf8Size = 1 := by
        rw [Char.utf8Size_eq_one_iff, UInt32.le_iff_toNat_le]
        show b.toUInt32.toNat ≤ 127
        rw [UInt8.toNat_toUInt32]
        omega
      rw [List.map_cons, List.flatMap_cons, ih h.2, String.utf8EncodeChar_eq_singleton hsize]
      exact congrArg (· :: bs) (UInt8.toUInt8_toUInt32 b)
  rw [bytes, asciiString, String.toByteArray_ofList, List.utf8Encode, henc]
  simp

/-! ### Letters and hexadecimal digits -/

/-- `u8::to_ascii_lowercase` -/
def toAsciiLowercase (b : UInt8) : UInt8 := if 65 ≤ b ∧ b ≤ 90 then b + 32 else b

lemma eq_of_toAsciiLowercase_eq {b c : UInt8} (hc : c < 97) (h : toAsciiLowercase b = c) :
    b = c := by
  rw [toAsciiLowercase] at h
  split_ifs at h with hb
  · rw [← h, UInt8.lt_iff_toNat_lt, UInt8.toNat_add] at hc
    simp only [UInt8.le_iff_toNat_le, UInt8.reduceToNat] at hb hc
    omega
  · exact h

/-- `u8::is_ascii_hexdigit` -/
def IsAsciiHexdigit (b : UInt8) : Prop := b ∈ bytes "0123456789abcdefABCDEF"

instance (b : UInt8) : Decidable (IsAsciiHexdigit b) := inferInstanceAs (Decidable (_ ∈ _))

/-- `[0-9a-f]` -/
def lowerHexdigits : List UInt8 := bytes "0123456789abcdef"

lemma IsAsciiHexdigit.toAsciiLowercase_mem {b : UInt8} (h : IsAsciiHexdigit b) :
    toAsciiLowercase b ∈ lowerHexdigits := by
  have hall : ∀ b ∈ bytes "0123456789abcdefABCDEF", toAsciiLowercase b ∈ lowerHexdigits := by decide
  exact hall b h

lemma toNat_shiftRight_four_lt (b : UInt8) : (b >>> 4).toNat < lowerHexdigits.length := by
  have hlt := b.toNat_lt
  have hshift : (b >>> 4).toNat = b.toNat / 16 := by simp [Nat.shiftRight_eq_div_pow]
  rw [hshift]
  show _ < 16
  omega

lemma toNat_and_fifteen_lt (b : UInt8) : (b &&& 0x0f).toNat < lowerHexdigits.length := by
  rw [UInt8.toNat_and]
  exact Nat.and_lt_two_pow (n := 4) _ (by decide)

/-- The two digits of each byte. -/
def hexEncode (bs : List UInt8) : List UInt8 :=
  bs.flatMap fun b : UInt8 =>
    [lowerHexdigits.get ⟨(b >>> 4).toNat, toNat_shiftRight_four_lt b⟩,
      lowerHexdigits.get ⟨(b &&& 0x0f).toNat, toNat_and_fifteen_lt b⟩]

lemma length_hexEncode (bs : List UInt8) : (hexEncode bs).length = 2 * bs.length := by
  induction bs with
  | nil => rfl
  | cons b bs ih =>
    show (hexEncode bs).length + 2 = 2 * (bs.length + 1)
    omega

lemma mem_lowerHexdigits_of_mem_hexEncode {bs : List UInt8} :
    ∀ c ∈ hexEncode bs, c ∈ lowerHexdigits := by
  intro c hc
  obtain ⟨b, -, hc⟩ := List.mem_flatMap.mp hc
  simp only [List.mem_cons, List.not_mem_nil, or_false] at hc
  rcases hc with rfl | rfl
  · exact List.get_mem _ _
  · exact List.get_mem _ _

/-! ### The bytes of an integer -/

/-- The lowest `k` bytes of a number, the lowest first. -/
def leBytes : ℕ → ℕ → List UInt8
  | 0, _     => []
  | k + 1, n => UInt8.ofNat n :: leBytes k (n / 256)

@[simp] lemma length_leBytes (k n : ℕ) : (leBytes k n).length = k := by
  induction k generalizing n with
  | zero => rfl
  | succ k ih => rw [leBytes, List.length_cons, ih]

lemma leBytes_inj {k n m : ℕ} (hn : n < 256 ^ k) (hm : m < 256 ^ k) :
    leBytes k n = leBytes k m ↔ n = m := by
  refine ⟨fun h => ?_, fun h => h ▸ rfl⟩
  induction k generalizing n m with
  | zero => omega
  | succ k ih =>
    obtain ⟨hlow, hrest⟩ := List.cons.inj h
    rw [Nat.pow_succ] at hn hm
    have hquot : n / 256 = m / 256 := ih (by omega) (by omega) hrest
    have hmod : n % 256 = m % 256 := by simpa using congrArg UInt8.toNat hlow
    omega

/-! ### Runs of bytes -/

section runs

variable {cs l r : List UInt8}

lemma takeWhile_append_eq (hl : ∀ b ∈ l, b ∈ cs) (hr : ∀ b ∈ r.head?, b ∉ cs) :
    (l ++ r).takeWhile (· ∈ cs) = l := by
  rw [List.takeWhile_append_of_pos (by simpa using hl)]
  cases r with
  | nil      => simp
  | cons b r => rw [List.takeWhile_cons_of_neg (by simpa using hr b rfl), List.append_nil]

lemma dropWhile_append_eq (hl : ∀ b ∈ l, b ∈ cs) (hr : ∀ b ∈ r.head?, b ∉ cs) :
    (l ++ r).dropWhile (· ∈ cs) = r := by
  rw [List.dropWhile_append_of_pos (by simpa using hl)]
  cases r with
  | nil      => rfl
  | cons b r => rw [List.dropWhile_cons_of_neg (by simpa using hr b rfl)]

end runs

/-! ### Decimal numerals -/

/-- `[0-9]` -/
def IsDigit (b : UInt8) : Prop := b ∈ bytes "0123456789"

instance (b : UInt8) : Decidable (IsDigit b) := inferInstanceAs (Decidable (_ ∈ _))

/-- The number that a sequence of digits denotes. -/
def decimal (ds : List UInt8) : ℕ := ds.foldl (fun n d => 10 * n + (d.toNat - 48)) 0

/-- The integer that a string starts with, as a 64-bit integer: a numeral beyond the range becomes
the last number in it. -/
def leadingInt (s : List UInt8) : ℤ :=
  match s with
  | 45 :: s => max (-2 ^ 63) (-decimal (s.takeWhile (IsDigit ·)))
  | s       => min (2 ^ 63 - 1) (decimal (s.takeWhile (IsDigit ·)))

/-- What follows the digits does not matter. -/
lemma leadingInt_append {ds rest : List UInt8} (hne : ds ≠ []) (hds : ∀ b ∈ ds, IsDigit b)
    (hrest : ∀ b ∈ rest.head?, ¬ IsDigit b) :
    leadingInt (ds ++ rest) = min (2 ^ 63 - 1) (decimal ds : ℤ) := by
  have htake : (ds ++ rest).takeWhile (IsDigit ·) = ds := takeWhile_append_eq hds hrest
  obtain ⟨d, ds, rfl⟩ := List.exists_cons_of_ne_nil hne
  have hd : d ≠ 45 := by
    rintro rfl
    exact absurd (hds 45 List.mem_cons_self) (by decide)
  rw [leadingInt, htake]
  intro s h
  exact absurd (List.cons.inj h).1 hd

lemma leadingInt_digits {ds : List UInt8} (hne : ds ≠ []) (hds : ∀ b ∈ ds, IsDigit b) :
    leadingInt ds = min (2 ^ 63 - 1) (decimal ds : ℤ) := by
  have := leadingInt_append hne hds (by simp : ∀ b ∈ ([] : List UInt8).head?, ¬ IsDigit b)
  rwa [List.append_nil] at this

lemma leadingInt_minus {ds : List UInt8} (hds : ∀ b ∈ ds, IsDigit b) :
    leadingInt (45 :: ds) = max (-2 ^ 63) (-decimal ds : ℤ) := by
  rw [leadingInt, List.takeWhile_eq_self_iff.mpr (by simpa using hds)]

/-- The digits of a number, a byte for each -/
lemma bytes_toString (n : ℕ) :
    bytes (toString n) = (Nat.toDigits 10 n).map fun c => c.val.toUInt8 := by
  have hascii : ∀ cs : List Char, (∀ c ∈ cs, c.isDigit) →
      cs.flatMap String.utf8EncodeChar = cs.map fun c => c.val.toUInt8 := by
    intro cs hcs
    induction cs with
    | nil => rfl
    | cons c cs ih =>
      rw [List.forall_mem_cons] at hcs
      have hsize : c.utf8Size = 1 := by
        have hnine := (Char.isDigit_iff_toNat.mp hcs.1).2
        rw [Char.utf8Size_eq_one_iff, UInt32.le_iff_toNat_le]
        exact hnine.trans (by decide)
      rw [List.flatMap_cons, List.map_cons, ih hcs.2, String.utf8EncodeChar_eq_singleton hsize]
      rfl
  rw [Nat.toString_eq_ofList_toDigits, bytes_ofList]
  exact hascii _ fun c => Nat.isDigit_of_mem_toDigits (by decide) (by decide)

lemma bytes_toString_ne_nil (n : ℕ) : bytes (toString n) ≠ [] := by
  rw [bytes_toString]
  simp

lemma toNat_toUInt8_of_isDigit {c : Char} (h : c.isDigit) : c.val.toUInt8.toNat = c.toNat := by
  have hnine : c.toNat ≤ '9'.toNat := (Char.isDigit_iff_toNat.mp h).2
  rw [UInt32.toNat_toUInt8]
  exact Nat.mod_eq_of_lt (hnine.trans_lt (by decide))

lemma isDigit_of_mem_bytes_toString {n : ℕ} {b : UInt8} (h : b ∈ bytes (toString n)) :
    IsDigit b := by
  rw [bytes_toString] at h
  obtain ⟨c, hc, rfl⟩ := List.mem_map.mp h
  have hdigit : c.isDigit := Nat.isDigit_of_mem_toDigits (by decide) (by decide) hc
  obtain ⟨hzero, hnine⟩ := Char.isDigit_iff_toNat.mp hdigit
  rw [← toNat_toUInt8_of_isDigit hdigit] at hzero hnine
  have hall : ∀ n, 48 ≤ n → n < 58 → IsDigit (UInt8.ofNat n) := by
    decide
  rw [← UInt8.ofNat_toNat (x := c.val.toUInt8)]
  exact hall _ hzero (Nat.lt_succ_of_le hnine)

/-- A number is read back from its digits. -/
lemma decimal_bytes_toString (n : ℕ) : decimal (bytes (toString n)) = n := by
  have hfold : ∀ (cs : List Char) (k : ℕ), (∀ c ∈ cs, c.isDigit) →
      (cs.map fun c => c.val.toUInt8).foldl (fun n d => 10 * n + (d.toNat - 48)) k =
        Nat.ofDigitChars 10 cs k := by
    intro cs
    induction cs with
    | nil => exact fun k _ => Nat.ofDigitChars_nil.symm
    | cons c cs ih =>
      intro k hcs
      rw [List.forall_mem_cons] at hcs
      rw [List.map_cons, List.foldl_cons, ih _ hcs.2, Nat.ofDigitChars_cons,
        toNat_toUInt8_of_isDigit hcs.1]
      rfl
  rw [decimal, bytes_toString, hfold, Nat.ofDigitChars_ten_toDigits]
  exact fun c => Nat.isDigit_of_mem_toDigits (by decide) (by decide)

end Core
