import Mathlib.Data.List.Infix
import PhpTreeViz.Core.Rounding

/-!
# `SUM` over integers

As long as a column holds integers, `SUM` is exact, and it fails if some running total is not a
64-bit integer. Totals that leave the range cannot come back into it.
-/

namespace Core

/-- Every running total is a 64-bit integer. -/
def RunningFitsI64 (l : List ℤ) : Prop := ∀ p, p <+: l → InI64 p.sum

lemma forall_prefix_cons {a n : ℤ} {l : List ℤ} (ha : InI64 a) :
    (∀ p, p <+: n :: l → InI64 (a + p.sum)) ↔ ∀ p, p <+: l → InI64 (a + n + p.sum) := by
  constructor
  · intro h p hp
    have := h (n :: p) ((List.prefix_cons_inj n).mpr hp)
    rwa [List.sum_cons, ← Int.add_assoc] at this
  · intro h p hp
    cases p with
    | nil => simpa using ha
    | cons m p =>
      obtain ⟨rfl, htail⟩ := List.cons_prefix_cons.mp hp
      rw [List.sum_cons, ← Int.add_assoc]
      exact h p htail

lemma RunningFitsI64.sum {l : List ℤ} (h : RunningFitsI64 l) : InI64 l.sum := h l List.prefix_rfl

lemma FitsI64.running {l : List ℤ} (h : FitsI64 l) : RunningFitsI64 l :=
  fun p hp => h p hp.sublist.subperm

instance (l : List ℤ) : Decidable (RunningFitsI64 l) :=
  decidable_of_iff (∀ p ∈ l.inits, InI64 p.sum) (by simp [RunningFitsI64, List.mem_inits])

/-- The cells hold the integers in `l`. -/
def HoldIntegers (cells : List NumCell) (l : List ℤ) : Prop :=
  cells.map NumCell.toInt? = l.map some

lemma HoldIntegers.eq_nil {l : List ℤ} (h : HoldIntegers [] l) : l = [] :=
  List.map_eq_nil_iff.mp h.symm

lemma HoldIntegers.eq_cons {cell : NumCell} {cells : List NumCell} {l : List ℤ}
    (h : HoldIntegers (cell :: cells) l) :
    ∃ b l', cell = .integer b ∧ l = b.toInt :: l' ∧ HoldIntegers cells l' := by
  obtain ⟨n, l', rfl, hcell, htail⟩ := List.map_eq_cons_iff.mp h.symm
  cases cell with
  | real x    => cases hcell
  | integer b => exact ⟨b, l', rfl, congrArg (· :: l') (Option.some.inj hcell), htail.symm⟩

lemma holdIntegers_value {cells : List NumCell} (h : ∀ cell ∈ cells, cell.toInt?.isSome) :
    HoldIntegers cells (cells.map NumCell.value) := by
  rw [HoldIntegers, List.map_map]
  refine List.map_congr_left fun cell hcell => ?_
  obtain ⟨n, hn⟩ := Option.isSome_iff_exists.mp (h cell hcell)
  rw [Function.comp_apply, NumCell.value_of_toInt? hn, hn]

/-! ### The running total -/

namespace SumState

variable {cells : List NumCell} {l : List ℤ} {a : Int64}

lemma foldl_step_exact (hcells : HoldIntegers cells l)
    (hfits : ∀ p, p <+: l → InI64 (a.toInt + p.sum)) :
    cells.foldl step (exact a) = exact (Int64.ofInt (a.toInt + l.sum)) := by
  induction cells generalizing l a with
  | nil =>
    obtain rfl := hcells.eq_nil
    simp
  | cons cell cells ih =>
    obtain ⟨b, l, rfl, rfl, htail⟩ := hcells.eq_cons
    rw [forall_prefix_cons (inI64_toInt a)] at hfits
    have hadd : InI64 (a.toInt + b.toInt) := by simpa using hfits [] List.nil_prefix
    rw [List.foldl_cons, step, if_pos hadd, ih htail, hadd.toInt_add, List.sum_cons, Int.add_assoc]
    simpa only [hadd.toInt_add] using hfits

/-- Integers do not take back an overflow. -/
lemma foldl_step_overflowed (hcells : HoldIntegers cells l) (sum err : ℤ) :
    ∃ sum' err', cells.foldl step (approx sum err true) = approx sum' err' true := by
  induction cells generalizing l sum err with
  | nil => exact ⟨sum, err, rfl⟩
  | cons cell cells ih =>
    obtain ⟨b, l, rfl, rfl, htail⟩ := hcells.eq_cons
    exact ih htail _ _

lemma foldl_step_overflow (hcells : HoldIntegers cells l)
    (hfits : ¬ ∀ p, p <+: l → InI64 (a.toInt + p.sum)) :
    ∃ sum err, cells.foldl step (exact a) = approx sum err true := by
  induction cells generalizing l a with
  | nil =>
    obtain rfl := hcells.eq_nil
    refine absurd (fun p hp => ?_) hfits
    obtain rfl := List.prefix_nil.mp hp
    simpa using inI64_toInt a
  | cons cell cells ih =>
    obtain ⟨b, l, rfl, rfl, htail⟩ := hcells.eq_cons
    rw [forall_prefix_cons (inI64_toInt a)] at hfits
    rw [List.foldl_cons, step]
    by_cases hadd : InI64 (a.toInt + b.toInt)
    · rw [if_pos hadd]
      apply ih htail
      rwa [hadd.toInt_add]
    · rw [if_neg hadd]
      exact foldl_step_overflowed htail _ _

end SumState

/-! ### The result -/

section sumCells

variable {cells : List NumCell} {l : List ℤ}

lemma sumCells_eq_integer (hcells : HoldIntegers cells l) (hne : cells ≠ [])
    (hfits : RunningFitsI64 l) : sumCells cells = some (.integer (Int64.ofInt l.sum)) := by
  cases cells with
  | nil             => exact absurd rfl hne
  | cons cell cells =>
    have hrun : (cell :: cells).foldl SumState.step (.exact 0) = .exact (Int64.ofInt l.sum) := by
      simpa using SumState.foldl_step_exact (a := 0) hcells (by simpa [RunningFitsI64] using hfits)
    rw [sumCells, hrun]

lemma sumCells_eq_none (hcells : HoldIntegers cells l)
    (hfits : ¬ RunningFitsI64 l) : sumCells cells = none := by
  cases cells with
  | nil =>
    obtain rfl := hcells.eq_nil
    exact absurd (by decide) hfits
  | cons cell cells =>
    obtain ⟨sum, err, hrun⟩ :=
      SumState.foldl_step_overflow (a := 0) hcells (by simpa [RunningFitsI64] using hfits)
    rw [sumCells, hrun]

end sumCells

/-! ### The sign of a sum -/

lemma roundDouble_pos {n : ℤ} (h : 0 < n) : 0 < roundDouble n := by
  have hone : roundDouble 1 = 1 := by decide
  have := roundDouble_mono (show 1 ≤ n by omega)
  omega

lemma roundDouble_nonpos {n : ℤ} (h : n ≤ 0) : roundDouble n ≤ 0 := by
  simpa using roundDouble_mono h

/-- Beyond 64 bits the sum of two integers is rounded, but it keeps its sign. -/
lemma NumValue.isPositive_add {m n : ℤ} (hm : InI64 m) (hn : InI64 n) :
    ((NumValue.integer (.ofInt m)).add (.integer (.ofInt n))).isPositive = decide (0 < m + n) := by
  rw [NumValue.add, hm.toInt_ofInt, hn.toInt_ofInt]
  split_ifs with h
  · have hadd : (Int64.ofInt m + Int64.ofInt n).toInt = m + n := by
      rw [InI64.toInt_add, hm.toInt_ofInt, hn.toInt_ofInt]
      rwa [hm.toInt_ofInt, hn.toInt_ofInt]
    rw [NumValue.isPositive, hadd]
  · rw [NumValue.isPositive, decide_eq_decide]
    obtain ⟨hm₁, hm₂⟩ := hm
    obtain ⟨hn₁, hn₂⟩ := hn
    have hwide : m + n < -2 ^ 63 ∨ 2 ^ 63 ≤ m + n := by
      simp only [InI64, not_and, not_lt] at h
      omega
    rcases hwide with hneg | hpos
    · have hm := roundDouble_nonpos (show m ≤ 0 by omega)
      have hn := roundDouble_nonpos (show n ≤ 0 by omega)
      have := roundDouble_nonpos (show roundDouble m + roundDouble n ≤ 0 by omega)
      omega
    · have hm := roundDouble_pos (show 0 < m by omega)
      have hn := roundDouble_pos (show 0 < n by omega)
      have := roundDouble_pos (show 0 < roundDouble m + roundDouble n by omega)
      omega

end Core
