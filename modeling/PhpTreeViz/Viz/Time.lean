import PhpTreeViz.Core.Decimal

/-!
# Durations

A duration is shown in the largest unit of which it has at least one, with three digits. The unit
and the number of decimals are chosen before the number is rounded, so that a number just below a
power of ten, or below a minute, is shown with a fourth digit or in the wrong unit.
-/

namespace PhpTreeViz

open Core

namespace Time

/-! ### The formatter -/

def nsPerUs : ℤ := 1000

def nsPerMs : ℤ := 1000000

def nsPerS : ℤ := 1000000000

def nsPerM : ℤ := 60 * nsPerS

def nsPerMaxDisplay : ℤ := (99 * 60 + 59) * nsPerS

/-- `toFixed` of a number below `10 ^ 21`: of two texts that are as near, it takes the larger. -/
def toFixed (x : ℚ) (digits : ℕ) : String :=
  if x < 0 then "-" ++ .ofList (fixedText (roundHalfUp (-x * 10 ^ digits)).toNat digits)
  else .ofList (fixedText (roundHalfUp (x * 10 ^ digits)).toNat digits)

def padStart (text : String) (width : ℕ) (fill : Char) : String :=
  .ofList (List.replicate (width - text.length) fill ++ text.toList)

/-- `Math.round` rounds half up, too. -/
def formatThreeSigFigs (x : ℚ) : String :=
  if 100 ≤ x then toString (roundHalfUp x)
  else if 10 ≤ x then toFixed x 1
  else toFixed x 2

def formatDuration (ns : ℤ) : String :=
  if ns < 0 then "—"
  else if ns = 0 then "0 ns"
  else if ns < nsPerUs then formatThreeSigFigs ns ++ " ns"
  else if ns < nsPerMs then formatThreeSigFigs (ns / nsPerUs) ++ " µs"
  else if ns < nsPerS then formatThreeSigFigs (ns / nsPerMs) ++ " ms"
  else if ns < nsPerM then formatThreeSigFigs (ns / nsPerS) ++ " s"
  else if nsPerMaxDisplay ≤ ns then "99:59"
  else
    let totalSec := ns / nsPerS
    let m := totalSec / 60
    let s := totalSec % 60
    toString m ++ ":" ++ padStart (toString s) 2 '0'

/-! ### Reading a duration -/

inductive DurationUnit where
  | ns
  | us
  | ms
  | s
  deriving DecidableEq

namespace DurationUnit

def all : List DurationUnit := [ns, us, ms, s]

def symbol : DurationUnit → String
  | ns => "ns"
  | us => "µs"
  | ms => "ms"
  | s  => "s"

def inNs : DurationUnit → ℤ
  | ns => 1
  | us => nsPerUs
  | ms => nsPerMs
  | s  => nsPerS

/-- Numbers of this unit are below this limit. -/
def limit : DurationUnit → ℚ
  | s => 60
  | _ => 1000

end DurationUnit

/-- The number before the space. -/
def shownNumber (text : String) : List Char := text.toList.takeWhile (· ≠ ' ')

/-- The unit after the space. -/
def shownUnit (text : String) : Option DurationUnit :=
  DurationUnit.all.find? fun u => u.symbol.toList = (text.toList.dropWhile (· ≠ ' ')).tail

/-- The duration that a text stands for. -/
def shownNs (text : String) : ℚ :=
  match shownUnit text with
  | none   => 0
  | some u => decimalValue (shownNumber text) * u.inNs

/-- A duration is shown with three digits in a unit that it fits, and not as less than a shorter
one. -/
structure WellShown (ns : ℤ) : Prop where
  digits : (significantDigits (shownNumber (formatDuration ns))).length = 3
  inRange : ∃ u ∈ shownUnit (formatDuration ns),
    1 ≤ decimalValue (shownNumber (formatDuration ns)) ∧
      decimalValue (shownNumber (formatDuration ns)) < u.limit
  monotone : ∀ m, 1000 ≤ m → m ≤ ns → shownNs (formatDuration m) ≤ shownNs (formatDuration ns)

/-! ### Three digits -/

/-- How many decimals are shown. -/
def decimals (x : ℚ) : ℕ := if 100 ≤ x then 0 else if 10 ≤ x then 1 else 2

/-- The number that is shown, in units of its last decimal. -/
def scaled (x : ℚ) : ℕ := (roundHalfUp (x * 10 ^ decimals x)).toNat

/-- The number that is shown. -/
def rounded (x : ℚ) : ℚ := scaled x / 10 ^ decimals x

section scaled

variable {x y : ℚ}

/-- Below 1000 there are three cases. -/
lemma decimals_cases (hx : x < 1000) : (decimals x = 2 ∧ x < 10) ∨
    (decimals x = 1 ∧ 10 ≤ x ∧ x < 100) ∨ (decimals x = 0 ∧ 100 ≤ x ∧ x < 1000) := by
  rw [decimals]
  split_ifs with h h'
  · exact .inr (.inr ⟨rfl, h, hx⟩)
  · exact .inr (.inl ⟨rfl, h', not_le.mp h⟩)
  · exact .inl ⟨rfl, not_le.mp h'⟩

lemma natCast_scaled (hx : 0 ≤ x) : (scaled x : ℤ) = roundHalfUp (x * 10 ^ decimals x) := by
  rw [scaled, Int.toNat_of_nonneg]
  refine le_roundHalfUp ?_
  rw [Int.cast_zero]
  exact mul_nonneg hx (by positivity)

lemma scaled_lt_iff (hx : 0 ≤ x) (n : ℕ) : scaled x < n ↔ x * 10 ^ decimals x < n - 1 / 2 := by
  rw [← Int.ofNat_lt, natCast_scaled hx, roundHalfUp_lt_iff]
  rfl

lemma le_scaled_iff (hx : 0 ≤ x) (n : ℕ) : n ≤ scaled x ↔ n - 1 / 2 ≤ x * 10 ^ decimals x := by
  rw [← not_lt, scaled_lt_iff hx, not_lt]

lemma formatThreeSigFigs_eq (hx : 0 ≤ x) :
    formatThreeSigFigs x = .ofList (fixedText (scaled x) (decimals x)) := by
  have hneg : ¬ x < 0 := not_lt.mpr hx
  rw [formatThreeSigFigs, scaled, decimals]
  split_ifs with h h'
  · have hpos : 0 ≤ roundHalfUp x := le_roundHalfUp (by simpa using hx)
    rw [pow_zero, mul_one, fixedText, if_pos rfl]
    obtain ⟨n, hn⟩ := Int.eq_ofNat_of_zero_le hpos
    rw [hn]
    rfl
  · rw [toFixed, if_neg hneg]
  · rw [toFixed, if_neg hneg]

lemma le_scaled (hx : 1 ≤ x) (hx' : x < 1000) : 100 ≤ scaled x := by
  rw [le_scaled_iff (zero_le_one.trans hx)]
  rcases decimals_cases hx' with ⟨hd, -⟩ | ⟨hd, h, -⟩ | ⟨hd, h, -⟩ <;> rw [hd] <;> norm_num <;>
    linarith

/-- Rounding carries into a fourth digit. -/
def Carries (x : ℚ) : Prop :=
  (9.995 ≤ x ∧ x < 10) ∨ (99.95 ≤ x ∧ x < 100) ∨ (999.5 ≤ x ∧ x < 1000)

lemma scaled_lt_thousand_iff (hx : 0 ≤ x) (hx' : x < 1000) : scaled x < 1000 ↔ ¬ Carries x := by
  rw [scaled_lt_iff hx, Carries]
  rcases decimals_cases hx' with ⟨hd, h⟩ | ⟨hd, h, h'⟩ | ⟨hd, h, h'⟩
  · have h₁ : ¬ 99.95 ≤ x := by norm_num; linarith
    have h₂ : ¬ 999.5 ≤ x := by norm_num; linarith
    simp only [hd, h, h₁, h₂, and_true, false_and, or_false, not_le]
    constructor <;> intro hlt <;> norm_num at hlt ⊢ <;> linarith
  · have h₁ : ¬ x < 10 := not_lt.mpr h
    have h₂ : ¬ 999.5 ≤ x := by norm_num; linarith
    simp only [hd, h', h₁, h₂, and_true, and_false, false_and, or_false, false_or, not_le]
    constructor <;> intro hlt <;> norm_num at hlt ⊢ <;> linarith
  · have h₁ : ¬ x < 10 := by linarith
    have h₂ : ¬ x < 100 := not_lt.mpr h
    simp only [hd, h', h₁, h₂, and_true, and_false, false_or, not_le]
    constructor <;> intro hlt <;> norm_num at hlt ⊢ <;> linarith

/-! ### The rounded number -/

lemma rounded_lt_iff (hx : 0 ≤ x) (n : ℕ) :
    rounded x < n ↔ x * 10 ^ decimals x < n * 10 ^ decimals x - 1 / 2 := by
  rw [rounded, div_lt_iff₀ (by positivity)]
  have h := scaled_lt_iff hx (n * 10 ^ decimals x)
  push_cast at h
  rw [← h]
  norm_cast

lemma le_rounded_iff (hx : 0 ≤ x) (n : ℕ) :
    n ≤ rounded x ↔ n * 10 ^ decimals x - 1 / 2 ≤ x * 10 ^ decimals x := by
  rw [← not_lt, rounded_lt_iff hx, not_lt]

/-- A number is not rounded below a natural number under it. -/
lemma le_rounded (n : ℕ) (h : n ≤ x) : n ≤ rounded x := by
  rw [le_rounded_iff (n.cast_nonneg.trans h)]
  have : n * 10 ^ decimals x ≤ x * 10 ^ decimals x :=
    mul_le_mul_of_nonneg_right h (by positivity)
  linarith

/-- A number is not rounded above a natural number over it. -/
lemma rounded_le (hx : 0 ≤ x) (n : ℕ) (h : x ≤ n) : rounded x ≤ n := by
  rw [rounded, div_le_iff₀ (by positivity)]
  have hle : roundHalfUp (x * 10 ^ decimals x) ≤ (n * 10 ^ decimals x : ℕ) := by
    refine roundHalfUp_le ?_
    push_cast
    exact mul_le_mul_of_nonneg_right h (by positivity)
  rw [← natCast_scaled hx] at hle
  exact_mod_cast hle

lemma rounded_mono (hx : 0 ≤ x) (h : x ≤ y) : rounded x ≤ rounded y := by
  have hy := hx.trans h
  by_cases hd : decimals x = decimals y
  · have hscaled : (scaled x : ℤ) ≤ scaled y := by
      rw [natCast_scaled hx, natCast_scaled hy, hd]
      exact roundHalfUp_mono (mul_le_mul_of_nonneg_right h (by positivity))
    rw [rounded, rounded, hd]
    refine div_le_div_of_nonneg_right ?_ (by positivity)
    exact_mod_cast hscaled
  · -- 10 or 100 is between them, and neither is rounded across it
    have hbetween : ∃ n : ℕ, x ≤ n ∧ n ≤ y := by
      rw [decimals, decimals] at hd
      by_cases h100 : 100 ≤ y
      · by_cases hx100 : 100 ≤ x
        · simp [h100, hx100] at hd
        · exact ⟨100, by exact_mod_cast (not_le.mp hx100).le, by exact_mod_cast h100⟩
      · have hx100 : ¬ 100 ≤ x := fun hx100 => h100 (hx100.trans h)
        by_cases h10 : 10 ≤ y
        · by_cases hx10 : 10 ≤ x
          · simp [h100, hx100, h10, hx10] at hd
          · exact ⟨10, by exact_mod_cast (not_le.mp hx10).le, by exact_mod_cast h10⟩
        · have hx10 : ¬ 10 ≤ x := fun hx10 => h10 (hx10.trans h)
          simp [h100, hx100, h10, hx10] at hd
    obtain ⟨n, hxn, hny⟩ := hbetween
    exact (rounded_le hx n hxn).trans (le_rounded n hny)

end scaled

/-! ### What is shown -/

/-- The unit that is chosen below a minute. -/
def unitOf (ns : ℤ) : DurationUnit :=
  if ns < nsPerUs then .ns else if ns < nsPerMs then .us else if ns < nsPerS then .ms else .s

/-- A duration in the unit that is chosen for it. -/
def inUnit (ns : ℤ) : ℚ := ns / (unitOf ns).inNs

section formatDuration

variable {ns m : ℤ}

lemma unitOf_cases (ns : ℤ) : (ns < 1000 ∧ unitOf ns = .ns) ∨
    (1000 ≤ ns ∧ ns < 1000000 ∧ unitOf ns = .us) ∨
    (1000000 ≤ ns ∧ ns < 1000000000 ∧ unitOf ns = .ms) ∨
    (1000000000 ≤ ns ∧ unitOf ns = .s) := by
  rw [unitOf, nsPerUs, nsPerMs, nsPerS]
  split_ifs with h₁ h₂ h₃
  · exact .inl ⟨h₁, rfl⟩
  · exact .inr (.inl ⟨not_lt.mp h₁, h₂, rfl⟩)
  · exact .inr (.inr (.inl ⟨not_lt.mp h₂, h₃, rfl⟩))
  · exact .inr (.inr (.inr ⟨not_lt.mp h₃, rfl⟩))

lemma formatDuration_eq (hpos : 0 < ns) (hlt : ns < nsPerM) :
    formatDuration ns = formatThreeSigFigs (inUnit ns) ++ (" " ++ (unitOf ns).symbol) := by
  rw [formatDuration, inUnit, unitOf, if_neg (not_lt.mpr hpos.le), if_neg hpos.ne', if_pos hlt]
  split_ifs
  · rw [DurationUnit.inNs, Int.cast_one, div_one]
    rfl
  · rfl
  · rfl
  · rfl

lemma inNs_pos (u : DurationUnit) : (0 : ℚ) < u.inNs := by
  cases u <;> norm_num [DurationUnit.inNs, nsPerUs, nsPerMs, nsPerS]

/-- The chosen unit fits. -/
lemma inUnit_bounds (hlow : 1000 ≤ ns) (hlt : ns < nsPerM) :
    1 ≤ inUnit ns ∧ inUnit ns < (unitOf ns).limit := by
  rw [inUnit, le_div_iff₀ (inNs_pos _), div_lt_iff₀ (inNs_pos _)]
  rw [nsPerM, nsPerS] at hlt
  rcases unitOf_cases ns with ⟨h, -⟩ | ⟨h, h', hu⟩ | ⟨h, h', hu⟩ | ⟨h, hu⟩
  · omega
  all_goals
    simp only [hu, DurationUnit.inNs, DurationUnit.limit, nsPerUs, nsPerMs, nsPerS]
    constructor <;> norm_cast

lemma toList_formatDuration (hpos : 0 < ns) (hlt : ns < nsPerM) :
    (formatDuration ns).toList = fixedText (scaled (inUnit ns)) (decimals (inUnit ns)) ++
      ' ' :: (unitOf ns).symbol.toList := by
  have hunit : 0 ≤ inUnit ns := div_nonneg (by exact_mod_cast hpos.le) (inNs_pos _).le
  rw [formatDuration_eq hpos hlt, formatThreeSigFigs_eq hunit, String.toList_append,
    String.toList_append, String.toList_ofList]
  rfl

lemma ne_space_of_mem_fixedText {n frac : ℕ} : ∀ c ∈ fixedText n frac, decide (c ≠ ' ') = true := by
  intro c hc
  rw [decide_eq_true_eq]
  rcases mem_fixedText hc with h | rfl
  · exact ne_of_isDigit rfl h
  · decide

lemma shownNumber_formatDuration (hpos : 0 < ns) (hlt : ns < nsPerM) :
    shownNumber (formatDuration ns) = fixedText (scaled (inUnit ns)) (decimals (inUnit ns)) := by
  rw [shownNumber, toList_formatDuration hpos hlt,
    List.takeWhile_append_of_pos ne_space_of_mem_fixedText]
  simp

lemma shownUnit_formatDuration (hpos : 0 < ns) (hlt : ns < nsPerM) :
    shownUnit (formatDuration ns) = some (unitOf ns) := by
  rw [shownUnit, toList_formatDuration hpos hlt,
    List.dropWhile_append_of_pos ne_space_of_mem_fixedText]
  cases unitOf ns <;> rfl

lemma value_formatDuration (hpos : 0 < ns) (hlt : ns < nsPerM) :
    decimalValue (shownNumber (formatDuration ns)) = rounded (inUnit ns) := by
  rw [shownNumber_formatDuration hpos hlt, decimalValue_fixedText, rounded]

lemma shownNs_formatDuration (hpos : 0 < ns) (hlt : ns < nsPerM) :
    shownNs (formatDuration ns) = rounded (inUnit ns) * (unitOf ns).inNs := by
  rw [shownNs, shownUnit_formatDuration hpos hlt, value_formatDuration hpos hlt]

lemma limit_le (u : DurationUnit) : u.limit ≤ 1000 := by
  cases u <;> norm_num [DurationUnit.limit]

/-- A longer duration is in the same unit or in a larger one. -/
lemma unitOf_mono (h : m ≤ ns) :
    unitOf m = unitOf ns ∨ 1000 * (unitOf m).inNs ≤ (unitOf ns).inNs := by
  rcases unitOf_cases m with ⟨hm, hu⟩ | ⟨hm, -, hu⟩ | ⟨hm, -, hu⟩ | ⟨hm, hu⟩ <;>
    rcases unitOf_cases ns with ⟨hn, hv⟩ | ⟨-, hn, hv⟩ | ⟨-, hn, hv⟩ | ⟨-, hv⟩ <;>
    rw [hu, hv] <;> first
      | exact .inl rfl
      | exact .inr (by decide)
      | omega

/-- A longer duration is never shown as a shorter one. -/
lemma shownNs_mono (hlow : 1000 ≤ m) (h : m ≤ ns) (hlt : ns < nsPerM) :
    shownNs (formatDuration m) ≤ shownNs (formatDuration ns) := by
  have hm := inUnit_bounds hlow (h.trans_lt hlt)
  have hn := inUnit_bounds (hlow.trans h) hlt
  have hm₀ : 0 ≤ inUnit m := zero_le_one.trans hm.1
  rw [shownNs_formatDuration (by omega) (h.trans_lt hlt), shownNs_formatDuration (by omega) hlt]
  rcases unitOf_mono h with hunit | hunit
  · have hle : inUnit m ≤ inUnit ns := by
      rw [inUnit, inUnit, hunit]
      exact div_le_div_of_nonneg_right (by exact_mod_cast h) (inNs_pos _).le
    rw [hunit]
    exact mul_le_mul_of_nonneg_right (rounded_mono hm₀ hle) (inNs_pos _).le
  · have hle : rounded (inUnit m) ≤ (1000 : ℕ) :=
      rounded_le hm₀ 1000 (by exact_mod_cast (hm.2.trans_le (limit_le _)).le)
    have hge : (1 : ℕ) ≤ rounded (inUnit ns) := le_rounded 1 (by exact_mod_cast hn.1)
    calc rounded (inUnit m) * (unitOf m).inNs
        ≤ (1000 : ℕ) * (unitOf m).inNs := mul_le_mul_of_nonneg_right hle (inNs_pos _).le
      _ ≤ (unitOf ns).inNs := by exact_mod_cast hunit
      _ = (1 : ℕ) * (unitOf ns).inNs := by rw [Nat.cast_one, one_mul]
      _ ≤ rounded (inUnit ns) * (unitOf ns).inNs :=
        mul_le_mul_of_nonneg_right hge (inNs_pos _).le

lemma digits_iff (hlow : 1000 ≤ ns) (hlt : ns < nsPerM) :
    (significantDigits (shownNumber (formatDuration ns))).length = 3 ↔
      ¬ Carries (inUnit ns) := by
  obtain ⟨h₁, hlimit⟩ := inUnit_bounds hlow hlt
  have h₁₀₀₀ := hlimit.trans_le (limit_le _)
  rw [shownNumber_formatDuration (by omega) hlt,
    length_significantDigits_eq_three_iff (le_scaled h₁ h₁₀₀₀),
    scaled_lt_thousand_iff (zero_le_one.trans h₁) h₁₀₀₀]

/-- Rounding carries into a fourth digit, or to 60 seconds. -/
def RoundsUp (ns : ℤ) : Prop :=
  Carries (inUnit ns) ∨ (unitOf ns = .s ∧ 59.95 ≤ inUnit ns)

/-- Only 60 seconds do not fit the unit if there is no fourth digit. -/
lemma rounded_lt_limit_iff (hlow : 1000 ≤ ns) (hlt : ns < nsPerM) (hc : ¬ Carries (inUnit ns)) :
    rounded (inUnit ns) < (unitOf ns).limit ↔ ¬ (unitOf ns = .s ∧ 59.95 ≤ inUnit ns) := by
  obtain ⟨h₁, hlimit⟩ := inUnit_bounds hlow hlt
  have h₀ := zero_le_one.trans h₁
  have h₁₀₀₀ := hlimit.trans_le (limit_le _)
  by_cases hs : unitOf ns = .s
  · rw [hs, DurationUnit.limit] at hlimit ⊢
    have hsixty : rounded (inUnit ns) < (60 : ℕ) ↔ _ := rounded_lt_iff h₀ 60
    push_cast at hsixty
    rw [hsixty]
    rcases decimals_cases h₁₀₀₀ with ⟨hd, h⟩ | ⟨hd, h, -⟩ | ⟨hd, h, -⟩
    · rw [hd]
      refine iff_of_true ?_ ?_
      · norm_num
        linarith
      · norm_num
        linarith
    · rw [hd]
      simp only [true_and, not_le]
      constructor <;> intro hlt <;> norm_num at hlt ⊢ <;> linarith
    · linarith
  · have hlim : (unitOf ns).limit = (1000 : ℕ) := by
      cases hu : unitOf ns <;> simp_all [DurationUnit.limit]
    refine iff_of_true ?_ fun h => hs h.1
    rw [hlim, rounded, div_lt_iff₀ (by positivity)]
    have hscaled : (scaled (inUnit ns) : ℚ) < 1000 := by
      exact_mod_cast (scaled_lt_thousand_iff h₀ h₁₀₀₀).mpr hc
    have hpow : (1 : ℚ) ≤ 10 ^ decimals (inUnit ns) := one_le_pow₀ (by norm_num)
    push_cast
    linarith

end formatDuration

/-- A duration from a microsecond to a minute is shown well exactly if it is not rounded up to a
fourth digit or to 60 seconds. -/
theorem wellShown_iff {ns : ℤ} (hlow : 1000 ≤ ns) (hlt : ns < 60 * 10 ^ 9) :
    WellShown ns ↔ ¬ RoundsUp ns := by
  have hm : ns < nsPerM := hlt
  have hdigits := digits_iff hlow hm
  have hvalue := value_formatDuration (show 0 < ns by omega) hm
  have hunit := shownUnit_formatDuration (show 0 < ns by omega) hm
  rw [RoundsUp, not_or]
  constructor
  · rintro ⟨hthree, ⟨u, hu, -, hrange⟩, -⟩
    obtain rfl := Option.some.inj (hunit.symm.trans hu)
    have hc := hdigits.mp hthree
    rw [hvalue] at hrange
    exact ⟨hc, (rounded_lt_limit_iff hlow hm hc).mp hrange⟩
  · rintro ⟨hc, hsixty⟩
    have hone : (1 : ℕ) ≤ rounded (inUnit ns) :=
      le_rounded 1 (by exact_mod_cast (inUnit_bounds hlow hm).1)
    refine ⟨hdigits.mpr hc, ⟨_, hunit, ?_, ?_⟩, fun m hm₀ hle => shownNs_mono hm₀ hle hm⟩
    · rw [hvalue]
      exact_mod_cast hone
    · rw [hvalue]
      exact (rounded_lt_limit_iff hlow hm hc).mpr hsixty

/-- 12.345 ms are shown as they should be. -/
theorem wellShown_iff_millis : WellShown 12345000 ↔ ¬ RoundsUp 12345000 :=
  wellShown_iff (by decide) (by decide)

/-- 999.5 µs are shown as 1000 µs. -/
theorem not_wellShown : ¬ ∀ ns : ℤ, 1000 ≤ ns → ns < 60 * 10 ^ 9 → WellShown ns := by
  intro h
  have hdigits := (h 999500 (by decide) (by decide)).digits
  refine (digits_iff (by decide) (by decide)).mp hdigits (.inr (.inr ?_))
  norm_num [inUnit, unitOf, DurationUnit.inNs, nsPerUs, nsPerMs, nsPerS]

end Time

end PhpTreeViz
