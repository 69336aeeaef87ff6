import Mathlib.Data.List.Perm.Subperm
import Mathlib.Algebra.Order.BigOperators.Group.List
import Mathlib.Tactic.Linarith
import Mathlib.Tactic.NormNum
import Mathlib.Tactic.Ring
import Mathlib.Tactic.SplitIfs

/-!
# 64-bit integers and the numeric cells of a relational engine

An `INTEGER` column of the engine holds a 64-bit integer until an addition leaves the 64-bit
range. The engine then switches to a double, and keeps the double unless the column's affinity can
turn it back into an integer without loss. `NumCell` is such a cell, `NumCell.add` the value that
`SET x = x + y` stores.
-/

namespace Core

/-! ### The 64-bit range -/

/-- `n` is a 64-bit integer. -/
def InI64 (n : ℤ) : Prop := -2 ^ 63 ≤ n ∧ n < 2 ^ 63

instance (n : ℤ) : Decidable (InI64 n) := inferInstanceAs (Decidable (_ ∧ _))

lemma inI64_toInt (x : Int64) : InI64 x.toInt := ⟨x.le_toInt, x.toInt_lt⟩

lemma InI64.toInt_ofInt {n : ℤ} (h : InI64 n) : (Int64.ofInt n).toInt = n :=
  Int64.toInt_ofInt_of_le h.1 h.2

lemma InI64.toInt_add {a b : Int64} (h : InI64 (a.toInt + b.toInt)) :
    (a + b).toInt = a.toInt + b.toInt := by
  rw [Int64.toInt_add]
  obtain ⟨hlo, hhi⟩ := h
  exact Int.bmod_eq_of_le_mul_two (by push_cast; omega) (by push_cast; omega)

/-- `i64::saturating_sub`. -/
def satSub (a b : Int64) : Int64 :=
  Int64.ofInt (max (-2 ^ 63) (min (2 ^ 63 - 1) (a.toInt - b.toInt)))

lemma toInt_satSub (a b : Int64) :
    (satSub a b).toInt = max (-2 ^ 63) (min (2 ^ 63 - 1) (a.toInt - b.toInt)) :=
  Int64.toInt_ofInt_of_le (by omega) (by omega)

/-- Every sum of some of the numbers is a 64-bit integer, in whatever order they are added. -/
def FitsI64 (l : List ℤ) : Prop := ∀ s : List ℤ, s.Subperm l → InI64 s.sum

lemma FitsI64.subperm {l l' : List ℤ} (h : FitsI64 l) (hs : l'.Subperm l) : FitsI64 l' :=
  fun s hs' => h s (hs'.trans hs)

lemma FitsI64.sum {l : List ℤ} (h : FitsI64 l) : InI64 l.sum := h l (List.Subperm.refl l)

lemma FitsI64.mem {l : List ℤ} (h : FitsI64 l) {n : ℤ} (hn : n ∈ l) : InI64 n := by
  have := h [n] (List.singleton_subperm_iff.mpr hn)
  simpa using this

/-- Non-negative numbers fit as soon as their total does. -/
lemma FitsI64.of_nonneg {l : List ℤ} (h0 : ∀ n ∈ l, 0 ≤ n) (hl : l.sum < 2 ^ 63) : FitsI64 l := by
  intro s hs
  obtain ⟨s', hperm, hsub⟩ := hs
  rw [← hperm.sum_eq]
  have hs0 : ∀ n ∈ s', 0 ≤ n := fun n hn => h0 n (hsub.subset hn)
  have hle : s'.sum ≤ l.sum := hsub.sum_le_sum h0
  exact ⟨by have := List.sum_nonneg hs0; omega, by omega⟩

/-! ### Doubles with an integer value -/

/-- Round to 53 significant bits, ties to even. -/
def roundNat (n : ℕ) : ℕ :=
  let e := n.log2 - 52
  let q := n / 2 ^ e
  let r := n % 2 ^ e
  if 2 * r < 2 ^ e ∨ (2 * r = 2 ^ e ∧ q % 2 = 0) then q * 2 ^ e else (q + 1) * 2 ^ e

lemma roundNat_of_dvd {n : ℕ} (h : 2 ^ (n.log2 - 52) ∣ n) : roundNat n = n := by
  have hr : n % 2 ^ (n.log2 - 52) = 0 := Nat.mod_eq_zero_of_dvd h
  have hpos : 0 < 2 ^ (n.log2 - 52) := Nat.two_pow_pos _
  simp only [roundNat, hr, Nat.mul_zero, hpos, true_or, if_true]
  exact Nat.div_mul_cancel h

/-- A number of at most 53 significant bits is not rounded. -/
lemma roundNat_mul_two_pow {q e : ℕ} (hq : q ≤ 2 ^ 53) : roundNat (q * 2 ^ e) = q * 2 ^ e := by
  rcases Nat.eq_zero_or_pos q with rfl | hpos
  · simp [roundNat]
  have hne : q * 2 ^ e ≠ 0 := (Nat.mul_pos hpos (Nat.two_pow_pos e)).ne'
  rcases Nat.lt_or_eq_of_le hq with hlt | rfl
  · apply roundNat_of_dvd
    have hlog : (q * 2 ^ e).log2 < 53 + e := by
      rw [Nat.log2_lt hne, Nat.pow_add]
      exact Nat.mul_lt_mul_of_pos_right hlt (Nat.two_pow_pos e)
    exact (Nat.pow_dvd_pow 2 (by omega)).trans (Nat.dvd_mul_left _ _)
  · apply roundNat_of_dvd
    rw [← Nat.pow_add, Nat.log2_two_pow]
    exact Nat.pow_dvd_pow 2 (by omega)

lemma roundNat_idem (n : ℕ) : roundNat (roundNat n) = roundNat n := by
  have hq : n / 2 ^ (n.log2 - 52) + 1 ≤ 2 ^ 53 := by
    rw [Nat.succ_le_iff, Nat.div_lt_iff_lt_mul (Nat.two_pow_pos _), ← Nat.pow_add]
    exact Nat.lt_of_lt_of_le Nat.lt_log2_self (Nat.pow_le_pow_right (by decide) (by omega))
  have hn : roundNat n = n / 2 ^ (n.log2 - 52) * 2 ^ (n.log2 - 52) ∨
      roundNat n = (n / 2 ^ (n.log2 - 52) + 1) * 2 ^ (n.log2 - 52) := by
    simp only [roundNat]
    split_ifs <;> simp
  rcases hn with hn | hn <;> rw [hn]
  · exact roundNat_mul_two_pow (by omega)
  · exact roundNat_mul_two_pow hq

/-- The double nearest to an integer. -/
def roundDouble (n : ℤ) : ℤ := n.sign * roundNat n.natAbs

lemma roundDouble_idem (n : ℤ) : roundDouble (roundDouble n) = roundDouble n := by
  have habs : (roundDouble n).natAbs = roundNat n.natAbs := by
    rcases lt_trichotomy n 0 with h | rfl | h
    · simp [roundDouble, Int.sign_eq_neg_one_of_neg h]
    · decide
    · simp [roundDouble, Int.sign_eq_one_of_pos h]
  rw [roundDouble, habs, roundNat_idem, ← habs]
  exact Int.sign_mul_natAbs _

@[simp] lemma roundDouble_zero : roundDouble 0 = 0 := by decide

/-! ### Cells -/

/-- A double that the affinity of an `INTEGER` column does not turn into an integer. -/
@[ext]
structure WideReal where
  value : ℤ
  rounded : roundDouble value = value
  wide : value ≤ -2 ^ 63 ∨ 2 ^ 63 ≤ value
  deriving DecidableEq

/-- What an `INTEGER` column stores after arithmetic. -/
inductive NumCell where
  | integer (n : Int64)
  | real (x : WideReal)
  deriving DecidableEq

namespace NumCell

/-- The cell as a double. -/
def toDouble : NumCell → ℤ
  | integer n => roundDouble n.toInt
  | real x    => x.value

/-- Store a double in an `INTEGER` column. -/
def ofDouble (v : ℤ) (hv : roundDouble v = v) : NumCell :=
  if h : -2 ^ 63 < v ∧ v < 2 ^ 63 then integer (Int64.ofInt v)
  else real ⟨v, hv, by omega⟩

/-- `SET x = x + y`: exact on integers while the sum is a 64-bit integer, in doubles otherwise. -/
def add (x y : NumCell) : NumCell :=
  let inDoubles := ofDouble (roundDouble (x.toDouble + y.toDouble)) (roundDouble_idem _)
  match x, y with
  | integer a, integer b => if InI64 (a.toInt + b.toInt) then integer (a + b) else inDoubles
  | _, _                 => inDoubles

/-- The integer in a cell that still holds one. -/
def toInt? : NumCell → Option ℤ
  | integer n => some n.toInt
  | real _    => none

@[simp] lemma toInt?_integer (n : Int64) : (integer n).toInt? = some n.toInt := rfl

lemma toInt?_inj {x y : NumCell} {n : ℤ} (hx : x.toInt? = some n) (hy : y.toInt? = some n) :
    x = y := by
  cases x with
  | real _ => cases hx
  | integer a =>
    cases y with
    | real _ => cases hy
    | integer b =>
      have : a.toInt = b.toInt := by simpa using hx.trans hy.symm
      rw [Int64.toInt_inj.mp this]

lemma toInt?_add {x y : NumCell} {a b : ℤ} (hx : x.toInt? = some a) (hy : y.toInt? = some b)
    (h : InI64 (a + b)) : (x.add y).toInt? = some (a + b) := by
  cases x with
  | real _ => cases hx
  | integer m =>
    cases y with
    | real _ => cases hy
    | integer n =>
      obtain rfl : m.toInt = a := by simpa using hx
      obtain rfl : n.toInt = b := by simpa using hy
      simp only [add, if_pos h, toInt?_integer, h.toInt_add]

/-- Adding zero stores the cell back unchanged, a double included. -/
@[simp] lemma add_zero (x : NumCell) : x.add (integer 0) = x := by
  cases x with
  | integer n =>
    have h : InI64 (n.toInt + (0 : Int64).toInt) := by simpa using inI64_toInt n
    simp only [add, if_pos h, Int64.add_zero]
  | real x =>
    have hsum : roundDouble (x.value + roundDouble (0 : Int64).toInt) = x.value := by
      simp [x.rounded]
    simp only [add, toDouble, ofDouble, hsum]
    rw [dif_neg (by have := x.wide; omega)]

lemma zero_add_integer (n : Int64) : (integer 0).add (integer n) = integer n := by
  have h : InI64 ((0 : Int64).toInt + n.toInt) := by simpa using inI64_toInt n
  simp only [add, if_pos h, Int64.zero_add]

/-- The cell after the numbers in `l` were added to it one by one. -/
def addAll (x : NumCell) (l : List Int64) : NumCell := l.foldl (fun x n => x.add (integer n)) x

/-- The cell is an integer to which any part of `l` can be added within 64 bits. -/
def FitsFrom (x : NumCell) (l : List ℤ) : Prop :=
  ∃ a, x.toInt? = some a ∧ ∀ s : List ℤ, s.Subperm l → InI64 (a + s.sum)

lemma toInt?_addAll {x : NumCell} {a : ℤ} {l : List Int64} (hx : x.toInt? = some a)
    (h : ∀ s : List ℤ, s.Subperm (l.map Int64.toInt) → InI64 (a + s.sum)) :
    (x.addAll l).toInt? = some (a + (l.map Int64.toInt).sum) := by
  induction l generalizing x a with
  | nil => simpa [addAll] using hx
  | cons n l ih =>
    have hn : InI64 (a + n.toInt) := by
      simpa using h [n.toInt] (by simp)
    have hadd : (x.add (integer n)).toInt? = some (a + n.toInt) := toInt?_add hx rfl hn
    rw [List.map_cons, List.sum_cons, ← Int.add_assoc]
    refine ih hadd fun s hs => ?_
    have := h (n.toInt :: s) ((List.subperm_cons _).mpr hs)
    rwa [List.sum_cons, ← Int.add_assoc] at this

/-- The order of the additions does not matter when none can overflow. -/
theorem FitsFrom.addAll_eq_of_perm {x : NumCell} {l l' : List Int64}
    (h : x.FitsFrom (l.map Int64.toInt)) (hperm : l.Perm l') : x.addAll l = x.addAll l' := by
  obtain ⟨a, hx, hfits⟩ := h
  have hmap := hperm.map Int64.toInt
  refine toInt?_inj (toInt?_addAll hx hfits) ?_
  rw [hmap.sum_eq]
  exact toInt?_addAll hx fun s hs => hfits s (hs.trans hmap.symm.subperm)

end NumCell

/-! ### `SUM` over a column -/

/-- What an arithmetic expression of a query evaluates to. -/
inductive NumValue where
  | null
  | integer (n : Int64)
  | double (v : ℤ)
  deriving DecidableEq

/-- The running total of `SUM`. It is exact until it meets a double or leaves the 64-bit range;
from then on it is a compensated sum of doubles. -/
inductive SumState where
  | exact (n : Int64)
  | approx (sum err : ℤ) (overflowed : Bool)
  deriving DecidableEq

namespace SumState

/-- Split an integer of more than 53 bits into two parts that doubles hold exactly. -/
def splitInt (n : ℤ) : ℤ × ℤ :=
  if n ≤ -2 ^ 52 ∨ 2 ^ 52 ≤ n then (n - n.tmod 16384, n.tmod 16384) else (n, 0)

/-- One compensated addition. -/
def kahanStep (sum err r : ℤ) : ℤ × ℤ :=
  let t := roundDouble (sum + r)
  let lost :=
    if sum.natAbs > r.natAbs then roundDouble (roundDouble (sum - t) + r)
    else roundDouble (roundDouble (r - t) + sum)
  (t, roundDouble (err + lost))

def kahanStepInt (sum err n : ℤ) : ℤ × ℤ :=
  let (big, small) := splitInt n
  let (sum, err) := kahanStep sum err big
  if n ≤ -2 ^ 52 ∨ 2 ^ 52 ≤ n then kahanStep sum err small else (sum, err)

def step : SumState → NumCell → SumState
  | exact a, .integer b =>
    if InI64 (a.toInt + b.toInt) then exact (a + b)
    else
      let (big, small) := splitInt a.toInt
      let (sum, err) := kahanStepInt big small b.toInt
      approx sum err true
  | exact a, .real x =>
    let (big, small) := splitInt a.toInt
    let (sum, err) := kahanStep big small x.value
    approx sum err false
  | approx sum err overflowed, .integer b =>
    let (sum, err) := kahanStepInt sum err b.toInt
    approx sum err overflowed
  | approx sum err _, .real x =>
    let (sum, err) := kahanStep sum err x.value
    approx sum err false

end SumState

/-- `SUM(column)`: `none` is the engine's integer overflow error. -/
def sumCells : List NumCell → Option NumValue
  | []            => some .null
  | cells@(_ :: _) =>
    match cells.foldl SumState.step (.exact 0) with
    | .exact n              => some (.integer n)
    | .approx _ _ true      => none
    | .approx sum err false => some (.double (roundDouble (sum + err)))

namespace NumValue

def toDouble : NumValue → ℤ
  | null      => 0
  | integer n => roundDouble n.toInt
  | double v  => v

def add : NumValue → NumValue → NumValue
  | null, _ | _, null    => null
  | integer a, integer b =>
    if InI64 (a.toInt + b.toInt) then integer (a + b)
    else double (roundDouble (roundDouble a.toInt + roundDouble b.toInt))
  | x, y                 => double (roundDouble (x.toDouble + y.toDouble))

/-- `COALESCE(x, 0) > 0` -/
def isPositive : NumValue → Bool
  | null      => false
  | integer n => decide (0 < n.toInt)
  | double v  => decide (0 < v)

end NumValue

end Core
