import Mathlib.Data.List.DropRight
import PhpTreeViz.Core.Urlencoded

/-!
# Base64

Three bytes are written as four digits of six bits each. In the variant for URLs the digits can
stand anywhere in one without being encoded again, and the padding at the end is left out. Either
way no two byte strings have the same text.
-/

namespace Core

/-! ### Groups of six bits -/

/-- The bits of a byte string in groups of six, the last group filled up with zeros -/
def sextets : List UInt8 → List UInt8
  | a :: b :: c :: s =>
    a / 4 :: (a % 4 * 16 + b / 16) :: (b % 16 * 4 + c / 64) :: c % 64 :: sextets s
  | [a, b] => [a / 4, a % 4 * 16 + b / 16, b % 16 * 4]
  | [a] => [a / 4, a % 4 * 16]
  | [] => []

lemma eq_of_sextets_two {a a' : UInt8} (b b' : UInt8) (h₀ : a / 4 = a' / 4)
    (h₁ : a % 4 * 16 + b / 16 = a' % 4 * 16 + b' / 16) : a = a' ∧ b / 16 = b' / 16 := by
  have hb := b.toNat_lt
  have hb' := b'.toNat_lt
  simp only [← UInt8.toNat_inj, UInt8.toNat_add, UInt8.toNat_mul, UInt8.toNat_mod, UInt8.toNat_div,
    UInt8.reduceToNat] at h₀ h₁ ⊢
  omega

lemma eq_of_sextets_three {b b' : UInt8} (c c' : UInt8) (h₁ : b / 16 = b' / 16)
    (h₂ : b % 16 * 4 + c / 64 = b' % 16 * 4 + c' / 64) : b = b' ∧ c / 64 = c' / 64 := by
  have hc := c.toNat_lt
  have hc' := c'.toNat_lt
  simp only [← UInt8.toNat_inj, UInt8.toNat_add, UInt8.toNat_mul, UInt8.toNat_mod, UInt8.toNat_div,
    UInt8.reduceToNat] at h₁ h₂ ⊢
  omega

lemma eq_of_sextets_four {c c' : UInt8} (h₂ : c / 64 = c' / 64) (h₃ : c % 64 = c' % 64) :
    c = c' := by
  simp only [← UInt8.toNat_inj, UInt8.toNat_mod, UInt8.toNat_div, UInt8.reduceToNat] at h₂ h₃ ⊢
  omega

lemma sextets_inj {s t : List UInt8} (h : sextets s = sextets t) : s = t := by
  induction s using sextets.induct generalizing t with
  | case1 a b c s ih =>
    match t with
    | a' :: b' :: c' :: t =>
      simp only [sextets, List.cons.injEq] at h
      obtain ⟨h₀, h₁, h₂, h₃, hrest⟩ := h
      obtain ⟨rfl, hb⟩ := eq_of_sextets_two _ _ h₀ h₁
      obtain ⟨rfl, hc⟩ := eq_of_sextets_three _ _ hb h₂
      rw [eq_of_sextets_four hc h₃, ih hrest]
    | [_, _] => simp [sextets] at h
    | [_] => simp [sextets] at h
    | [] => simp [sextets] at h
  | case2 a b =>
    match t with
    | _ :: _ :: _ :: _ => simp [sextets] at h
    | [a', b'] =>
      simp only [sextets, List.cons.injEq, and_true] at h
      obtain ⟨h₀, h₁, h₂⟩ := h
      obtain ⟨rfl, hb⟩ := eq_of_sextets_two _ _ h₀ h₁
      obtain ⟨rfl, -⟩ := eq_of_sextets_three 0 0 hb (by rw [h₂])
      rfl
    | [_] => simp [sextets] at h
    | [] => simp [sextets] at h
  | case3 a =>
    match t with
    | _ :: _ :: _ :: _ => simp [sextets] at h
    | [_, _] => simp [sextets] at h
    | [a'] =>
      simp only [sextets, List.cons.injEq, and_true] at h
      obtain ⟨rfl, -⟩ := eq_of_sextets_two 0 0 h.1 (by rw [h.2])
      rfl
    | [] => simp [sextets] at h
  | case4 =>
    match t with
    | _ :: _ :: _ :: _ => simp [sextets] at h
    | [_, _] => simp [sextets] at h
    | [_] => simp [sextets] at h
    | [] => rfl

lemma lt_of_mem_sextets {s : List UInt8} {n : UInt8} (h : n ∈ sextets s) : n < 64 := by
  have hfirst : ∀ a : UInt8, a / 4 < 64 := by
    intro a
    simp only [UInt8.lt_iff_toNat_lt, UInt8.toNat_div, UInt8.reduceToNat]
    have := a.toNat_lt
    omega
  have hsecond : ∀ a b : UInt8, a % 4 * 16 + b / 16 < 64 := by
    intro a b
    simp only [UInt8.lt_iff_toNat_lt, UInt8.toNat_add, UInt8.toNat_mul, UInt8.toNat_mod,
      UInt8.toNat_div, UInt8.reduceToNat]
    have := b.toNat_lt
    omega
  have hthird : ∀ b c : UInt8, b % 16 * 4 + c / 64 < 64 := by
    intro b c
    simp only [UInt8.lt_iff_toNat_lt, UInt8.toNat_add, UInt8.toNat_mul, UInt8.toNat_mod,
      UInt8.toNat_div, UInt8.reduceToNat]
    have := c.toNat_lt
    omega
  have hfourth : ∀ c : UInt8, c % 64 < 64 := by
    intro c
    simp only [UInt8.lt_iff_toNat_lt, UInt8.toNat_mod, UInt8.reduceToNat]
    omega
  have hsecond' : ∀ a : UInt8, a % 4 * 16 < 64 := fun a => by simpa using hsecond a 0
  have hthird' : ∀ b : UInt8, b % 16 * 4 < 64 := fun b => by simpa using hthird b 0
  induction s using sextets.induct with
  | case1 a b c s ih =>
    simp only [sextets, List.mem_cons] at h
    rcases h with rfl | rfl | rfl | rfl | h
    · exact hfirst a
    · exact hsecond a b
    · exact hthird b c
    · exact hfourth c
    · exact ih h
  | case2 a b =>
    simp only [sextets, List.mem_cons, List.not_mem_nil, or_false] at h
    rcases h with rfl | rfl | rfl
    · exact hfirst a
    · exact hsecond a b
    · exact hthird' b
  | case3 a =>
    simp only [sextets, List.mem_cons, List.not_mem_nil, or_false] at h
    rcases h with rfl | rfl
    · exact hfirst a
    · exact hsecond' a
  | case4 => cases h

/-! ### Digits -/

/-- `A-Za-z0-9+/` -/
def base64Digit (n : UInt8) : UInt8 := (alphanumerics ++ bytes "+/").getD n.toNat 0

/-- `base64_encode` -/
def base64Encode (s : List UInt8) : List UInt8 :=
  (sextets s).map base64Digit ++ List.replicate ((3 - s.length % 3) % 3) 61

/-- The digits for URLs -/
def urlDigit (b : UInt8) : UInt8 := if b = 43 then 45 else if b = 47 then 95 else b

/-- Base64 without padding, in the digits for URLs -/
def base64UrlEncode (s : List UInt8) : List UInt8 :=
  ((base64Encode s).map urlDigit).rdropWhile (· = 61)

/-- `A-Za-z0-9-_` -/
def base64UrlDigits : List UInt8 := alphanumerics ++ bytes "-_"

section digits

variable {s t : List UInt8} {b : UInt8}

lemma urlDigit_mem {n : UInt8} (h : n < 64) : urlDigit (base64Digit n) ∈ base64UrlDigits := by
  have hall : ∀ n : UInt8, n < 64 → urlDigit (base64Digit n) ∈ base64UrlDigits :=
    forall_byte (by decide +kernel)
  exact hall n h

lemma urlDigit_inj {m n : UInt8} (hm : m < 64) (hn : n < 64)
    (h : urlDigit (base64Digit m) = urlDigit (base64Digit n)) : m = n := by
  have hall : ∀ m : UInt8, m < 64 →
      base64UrlDigits.idxOf (urlDigit (base64Digit m)) = m.toNat :=
    forall_byte (by decide +kernel)
  rw [← UInt8.toNat_inj, ← hall m hm, ← hall n hn, h]

/-- Only the padding is cut off. -/
lemma base64UrlEncode_eq (s : List UInt8) :
    base64UrlEncode s = (sextets s).map fun n => urlDigit (base64Digit n) := by
  have hdigits : ∀ b ∈ (sextets s).map fun n => urlDigit (base64Digit n), b ≠ 61 := by
    intro b hb
    obtain ⟨n, hn, rfl⟩ := List.mem_map.mp hb
    exact ne_of_mem_of_not_mem (urlDigit_mem (lt_of_mem_sextets hn)) (by decide)
  have hcut : ∀ (l : List UInt8) (k : ℕ), (∀ b ∈ l, b ≠ 61) →
      (l ++ List.replicate k 61).rdropWhile (· = 61) = l := by
    intro l k hl
    induction k with
    | zero =>
      rw [List.replicate_zero, List.append_nil, List.rdropWhile_eq_self_iff]
      exact fun hne => by simpa using hl _ (List.getLast_mem hne)
    | succ k ih =>
      rw [List.replicate_succ', ← List.append_assoc, List.rdropWhile_concat_pos _ _ _ (by simp), ih]
  rw [base64UrlEncode, base64Encode, List.map_append, List.map_map, List.map_replicate]
  exact hcut _ _ hdigits

lemma mem_base64UrlEncode (h : b ∈ base64UrlEncode s) : b ∈ base64UrlDigits := by
  rw [base64UrlEncode_eq] at h
  obtain ⟨n, hn, rfl⟩ := List.mem_map.mp h
  exact urlDigit_mem (lt_of_mem_sextets hn)

/-- The text tells which bytes it is made from. -/
theorem base64UrlEncode_inj : base64UrlEncode s = base64UrlEncode t ↔ s = t := by
  refine ⟨fun h => sextets_inj ?_, fun h => h ▸ rfl⟩
  rw [base64UrlEncode_eq, base64UrlEncode_eq] at h
  have hmap : ∀ l l' : List UInt8, (∀ n ∈ l, n < 64) → (∀ n ∈ l', n < 64) →
      l.map (fun n => urlDigit (base64Digit n)) = l'.map (fun n => urlDigit (base64Digit n)) →
      l = l' := by
    intro l
    induction l with
    | nil =>
      intro l' _ _ h
      exact (List.map_eq_nil_iff.mp h.symm).symm
    | cons n l ih =>
      intro l' hl hl' h
      cases l' with
      | nil => cases h
      | cons n' l' =>
        rw [List.forall_mem_cons] at hl hl'
        obtain ⟨hn, hrest⟩ := List.cons.inj h
        rw [urlDigit_inj hl.1 hl'.1 hn, ih l' hl.2 hl'.2 hrest]
  exact hmap _ _ (fun n => lt_of_mem_sextets) (fun n => lt_of_mem_sextets) h

lemma base64UrlEncode_ne_nil (h : s ≠ []) : base64UrlEncode s ≠ [] := by
  have hnil : base64UrlEncode [] = [] := rfl
  rw [← hnil, Ne, base64UrlEncode_inj]
  exact h

end digits

end Core
