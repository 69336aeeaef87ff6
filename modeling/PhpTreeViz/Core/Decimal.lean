import Mathlib.Algebra.Order.Floor.Ring
import Mathlib.Data.Rat.Floor
import Mathlib.Tactic.Linarith

/-!
# Decimal texts

Numbers are rounded to an integer number of some decimal unit and then written with a point. A text
can be read back as a number, and its digits can be counted.
-/

namespace Core

/-! ### Rounding -/

section round

variable {K : Type*} [Field K] [LinearOrder K] [IsStrictOrderedRing K] [FloorRing K] {x y : K}
  {n : ℤ}

/-- The nearest integer, and the larger one if two are as near. -/
def roundHalfUp (x : K) : ℤ := ⌊x + 1 / 2⌋

lemma le_roundHalfUp_iff : n ≤ roundHalfUp x ↔ n - 1 / 2 ≤ x := by
  rw [roundHalfUp, Int.le_floor, sub_le_iff_le_add]

lemma roundHalfUp_lt_iff : roundHalfUp x < n ↔ x < n - 1 / 2 := by
  rw [roundHalfUp, Int.floor_lt, lt_sub_iff_add_lt]

lemma roundHalfUp_mono (h : x ≤ y) : roundHalfUp x ≤ roundHalfUp y :=
  le_roundHalfUp_iff.mpr ((le_roundHalfUp_iff.mp le_rfl).trans h)

lemma le_roundHalfUp (h : n ≤ x) : n ≤ roundHalfUp x := by
  rw [le_roundHalfUp_iff]
  linarith

lemma roundHalfUp_le (h : x ≤ n) : roundHalfUp x ≤ n := by
  rw [← Int.lt_add_one_iff, roundHalfUp_lt_iff]
  push_cast
  linarith

end round

/-! ### Texts -/

/-- The digits of `n`, at least as many as stand behind the point and one more. -/
def paddedDigits (n frac : ℕ) : List Char :=
  List.replicate (frac + 1 - (Nat.toDigits 10 n).length) '0' ++ Nat.toDigits 10 n

/-- The number `n / 10 ^ frac`. -/
def fixedText (n frac : ℕ) : List Char :=
  if frac = 0 then Nat.toDigits 10 n
  else
    let m := paddedDigits n frac
    m.take (m.length - frac) ++ '.' :: m.drop (m.length - frac)

def decimalValue (text : List Char) : ℚ :=
  let whole := text.takeWhile (· ≠ '.')
  let frac := (text.dropWhile (· ≠ '.')).tail
  Nat.ofDigitChars 10 (whole ++ frac) 0 / 10 ^ frac.length

/-- The digits of a text from the first one that is not zero on. -/
def significantDigits (text : List Char) : List Char :=
  (text.filter Char.isDigit).dropWhile (· = '0')

variable {n frac : ℕ} {c : Char}

lemma isDigit_of_mem_toDigits (h : c ∈ Nat.toDigits 10 n) : c.isDigit :=
  Nat.isDigit_of_mem_toDigits (by decide) (by decide) h

lemma isDigit_of_mem_paddedDigits (h : c ∈ paddedDigits n frac) : c.isDigit := by
  rcases List.mem_append.mp h with h | h
  · rw [List.eq_of_mem_replicate h]
    rfl
  · exact isDigit_of_mem_toDigits h

lemma lt_length_paddedDigits (n frac : ℕ) : frac < (paddedDigits n frac).length := by
  rw [paddedDigits, List.length_append, List.length_replicate]
  omega

lemma ne_of_isDigit {d : Char} (hd : d.isDigit = false) (hc : c.isDigit) : c ≠ d := by
  rintro rfl
  simp [hc] at hd

/-- Without its point, the text is the padded digits. -/
lemma fixedText_eq (n frac : ℕ) : ∃ whole behind, paddedDigits n frac = whole ++ behind ∧
    behind.length = frac ∧
    fixedText n frac = whole ++ if frac = 0 then [] else '.' :: behind := by
  have hlength := lt_length_paddedDigits n frac
  refine ⟨(paddedDigits n frac).take ((paddedDigits n frac).length - frac),
    (paddedDigits n frac).drop ((paddedDigits n frac).length - frac),
    (List.take_append_drop _ _).symm, ?_, ?_⟩
  · rw [List.length_drop]
    omega
  · rw [fixedText]
    split_ifs with hfrac
    · subst hfrac
      have hpos : 0 < (Nat.toDigits 10 n).length := Nat.length_toDigits_pos
      have hpad : 0 + 1 - (Nat.toDigits 10 n).length = 0 := by omega
      simp [paddedDigits, hpad]
    · rfl

lemma mem_fixedText (h : c ∈ fixedText n frac) : c.isDigit ∨ c = '.' := by
  obtain ⟨whole, behind, hdigits, -, htext⟩ := fixedText_eq n frac
  have hall : ∀ c ∈ whole ++ behind, c.isDigit := by
    intro c hc
    rw [← hdigits] at hc
    exact isDigit_of_mem_paddedDigits hc
  rw [htext, List.mem_append] at h
  rcases h with h | h
  · exact .inl (hall c (List.mem_append_left _ h))
  · split_ifs at h
    · simp at h
    · rcases List.mem_cons.mp h with h | h
      · exact .inr h
      · exact .inl (hall c (List.mem_append_right _ h))

/-- Reading a text gives the number that was written. -/
theorem decimalValue_fixedText (n frac : ℕ) : decimalValue (fixedText n frac) = n / 10 ^ frac := by
  obtain ⟨whole, behind, hdigits, hlength, htext⟩ := fixedText_eq n frac
  have hwhole : ∀ c ∈ whole, decide (c ≠ '.') = true := by
    intro c hc
    have hmem : c ∈ paddedDigits n frac := hdigits ▸ List.mem_append_left _ hc
    simpa using ne_of_isDigit rfl (isDigit_of_mem_paddedDigits hmem)
  have hvalue : Nat.ofDigitChars 10 (whole ++ behind) 0 = n := by
    rw [← hdigits, paddedDigits, Nat.ofDigitChars_append, Nat.ofDigitChars_replicate_zero,
      Nat.mul_zero, Nat.ofDigitChars_ten_toDigits]
  rw [decimalValue, htext, List.takeWhile_append_of_pos hwhole, List.dropWhile_append_of_pos hwhole]
  split_ifs with hfrac
  · obtain rfl : behind = [] := List.length_eq_zero_iff.mp (hlength.trans hfrac)
    rw [List.append_nil] at hvalue
    simp [hvalue, hfrac]
  · simp [hvalue, hlength]

/-! ### Significant digits -/

lemma head_toDigits (hn : n ≠ 0) : (Nat.toDigits 10 n).head? ≠ some '0' := by
  induction n using Nat.strong_induction_on with
  | _ n ih =>
    rw [Nat.toDigits_eq_if (by decide)]
    split_ifs with hlt
    · have hchar : ∀ m < 10, m ≠ 0 → m.digitChar ≠ '0' := by decide
      simpa using hchar n hlt hn
    · rw [List.head?_append_of_ne_nil _ Nat.toDigits_ne_nil]
      exact ih (n / 10) (by omega) (by omega)

lemma dropWhile_replicate_append {l : List Char} (hl : l.head? ≠ some '0') (k : ℕ) :
    (List.replicate k '0' ++ l).dropWhile (· = '0') = l := by
  rw [List.dropWhile_append_of_pos fun c hc => by simpa using List.eq_of_mem_replicate hc]
  cases l with
  | nil => rfl
  | cons c l =>
    rw [List.dropWhile_cons_of_neg]
    simpa using hl

theorem significantDigits_fixedText (hn : n ≠ 0) :
    significantDigits (fixedText n frac) = Nat.toDigits 10 n := by
  obtain ⟨whole, behind, hdigits, hlength, htext⟩ := fixedText_eq n frac
  have hfilter : (fixedText n frac).filter Char.isDigit = paddedDigits n frac := by
    have hall : (paddedDigits n frac).filter Char.isDigit = paddedDigits n frac :=
      List.filter_eq_self.mpr fun c hc => isDigit_of_mem_paddedDigits hc
    rw [htext, List.filter_append]
    split_ifs with hfrac
    · obtain rfl : behind = [] := List.length_eq_zero_iff.mp (hlength.trans hfrac)
      rw [hdigits, List.filter_append] at hall
      rw [hdigits]
      exact hall
    · rw [List.filter_cons_of_neg (by decide), ← List.filter_append, ← hdigits]
      exact hall
  rw [significantDigits, hfilter, paddedDigits]
  exact dropWhile_replicate_append (head_toDigits hn) _

/-- Three digits are the numbers from 100 to 999. -/
lemma length_significantDigits_eq_three_iff (hn : 100 ≤ n) :
    (significantDigits (fixedText n frac)).length = 3 ↔ n < 1000 := by
  rw [significantDigits_fixedText (by omega)]
  have hle := Nat.length_toDigits_le_iff (n := n) (b := 10) (k := 3) (by decide) (by decide)
  have hgt := Nat.length_toDigits_le_iff (n := n) (b := 10) (k := 2) (by decide) (by decide)
  omega

end Core
