import PhpTreeViz.Core.Numeric

/-!
# Rounding is monotone

Rounding to doubles keeps the order of integers. Hence adding a number that is not negative never
makes a cell smaller, also when the addition leaves the 64-bit range and goes on in doubles.
-/

namespace Core

/-! ### The grid -/

/-- A rounded number is one of the two multiples of its grid next to the number. -/
lemma roundNat_bounds (n : ℕ) :
    n / 2 ^ (n.log2 - 52) * 2 ^ (n.log2 - 52) ≤ roundNat n ∧
      roundNat n ≤ (n / 2 ^ (n.log2 - 52) + 1) * 2 ^ (n.log2 - 52) := by
  simp only [roundNat]
  split_ifs
  · exact ⟨le_rfl, Nat.mul_le_mul_right _ (Nat.le_succ _)⟩
  · exact ⟨Nat.mul_le_mul_right _ (Nat.le_succ _), le_rfl⟩

lemma roundNat_le_two_pow {n k : ℕ} (h : n < 2 ^ k) : roundNat n ≤ 2 ^ k := by
  rcases Nat.eq_zero_or_pos n with rfl | hpos
  · simp [roundNat]
  have hlog : n.log2 < k := (Nat.log2_lt hpos.ne').mpr h
  have hk : 2 ^ k = 2 ^ (k - (n.log2 - 52)) * 2 ^ (n.log2 - 52) := by
    rw [← Nat.pow_add]
    congr 1
    omega
  refine (roundNat_bounds n).2.trans ?_
  rw [hk] at h ⊢
  exact Nat.mul_le_mul_right _ (Nat.div_lt_of_lt_mul (by rwa [Nat.mul_comm] at h))

lemma two_pow_le_roundNat {n k : ℕ} (h : 2 ^ k ≤ n) : 2 ^ k ≤ roundNat n := by
  have hne : n ≠ 0 := (lt_of_lt_of_le (Nat.two_pow_pos k) h).ne'
  refine le_trans ?_ (roundNat_bounds n).1
  rcases Nat.le_total (n.log2 - 52) k with hle | hle
  · have hk : 2 ^ k = 2 ^ (k - (n.log2 - 52)) * 2 ^ (n.log2 - 52) := by
      rw [← Nat.pow_add]
      congr 1
      omega
    rw [hk] at h ⊢
    exact Nat.mul_le_mul_right _ ((Nat.le_div_iff_mul_le (Nat.two_pow_pos _)).mpr h)
  · have hgrid : 2 ^ (n.log2 - 52) ≤ n :=
      (Nat.pow_le_pow_right (by decide) (by omega)).trans (Nat.log2_self_le hne)
    calc 2 ^ k ≤ 2 ^ (n.log2 - 52) := Nat.pow_le_pow_right (by decide) hle
      _ ≤ n / 2 ^ (n.log2 - 52) * 2 ^ (n.log2 - 52) :=
        Nat.le_mul_of_pos_left _ (Nat.div_pos hgrid (Nat.two_pow_pos _))

/-- On a grid of step `g`, the larger number is not rounded below the smaller one. -/
lemma roundGrid_mono {g n m : ℕ} (h : n ≤ m) :
    (if 2 * (n % g) < g ∨ (2 * (n % g) = g ∧ n / g % 2 = 0) then n / g * g else (n / g + 1) * g) ≤
      if 2 * (m % g) < g ∨ (2 * (m % g) = g ∧ m / g % 2 = 0) then m / g * g
      else (m / g + 1) * g := by
  have hq : n / g ≤ m / g := Nat.div_le_div_right h
  rcases Nat.lt_or_eq_of_le hq with hlt | heq
  · calc _ ≤ (n / g + 1) * g := by
          split_ifs
          · exact Nat.mul_le_mul_right _ (Nat.le_succ _)
          · exact le_rfl
      _ ≤ m / g * g := Nat.mul_le_mul_right _ hlt
      _ ≤ _ := by
          split_ifs
          · exact le_rfl
          · exact Nat.mul_le_mul_right _ (Nat.le_succ _)
  · -- in the same cell the remainders decide
    have hr : n % g ≤ m % g := by
      have hn := Nat.div_add_mod n g
      have hm := Nat.div_add_mod m g
      rw [heq] at hn
      omega
    rw [heq]
    split_ifs with h₁ h₂ h₂
    · exact le_rfl
    · exact Nat.mul_le_mul_right _ (Nat.le_succ _)
    · omega
    · exact le_rfl

theorem roundNat_mono {n m : ℕ} (h : n ≤ m) : roundNat n ≤ roundNat m := by
  rcases Nat.eq_zero_or_pos n with rfl | hpos
  · simp [roundNat]
  have hm : m ≠ 0 := (lt_of_lt_of_le hpos h).ne'
  have hlog : n.log2 ≤ m.log2 := by
    rw [Nat.le_log2 hm]
    exact (Nat.log2_self_le hpos.ne').trans h
  rcases Nat.lt_or_eq_of_le hlog with hlt | heq
  · have hn : n < 2 ^ m.log2 :=
      lt_of_lt_of_le Nat.lt_log2_self (Nat.pow_le_pow_right (by decide) hlt)
    calc roundNat n ≤ 2 ^ m.log2 := roundNat_le_two_pow hn
      _ ≤ roundNat m := two_pow_le_roundNat (Nat.log2_self_le hm)
  · simp only [roundNat, heq]
    exact roundGrid_mono h

/-! ### Doubles -/

@[simp] lemma roundDouble_natCast (n : ℕ) : roundDouble n = roundNat n := by
  rcases Nat.eq_zero_or_pos n with rfl | hpos
  · simp [roundNat]
  · rw [roundDouble, Int.sign_eq_one_of_pos (by omega), Int.natAbs_natCast, Int.one_mul]

lemma roundDouble_neg (n : ℤ) : roundDouble (-n) = -roundDouble n := by
  rw [roundDouble, Int.sign_neg, Int.natAbs_neg, Int.neg_mul, ← roundDouble]

theorem roundDouble_mono {n m : ℤ} (h : n ≤ m) : roundDouble n ≤ roundDouble m := by
  rcases n.eq_nat_or_neg with ⟨a, rfl | rfl⟩ <;> rcases m.eq_nat_or_neg with ⟨b, rfl | rfl⟩ <;>
    simp only [roundDouble_neg, roundDouble_natCast]
  · exact_mod_cast roundNat_mono (by omega)
  · obtain ⟨rfl, rfl⟩ : a = 0 ∧ b = 0 := by omega
    simp [roundNat]
  · omega
  · have : roundNat b ≤ roundNat a := roundNat_mono (by omega)
    omega

/-- Below `2 ^ 63`, rounding loses at most half of the widest step. -/
lemma le_roundNat_add {n : ℕ} (h : n < 2 ^ 63) : n ≤ roundNat n + 512 := by
  have hdiv := Nat.div_add_mod n (2 ^ (n.log2 - 52))
  have hmod := Nat.mod_lt n (Nat.two_pow_pos (n.log2 - 52))
  have hstep : 2 ^ (n.log2 - 52) ≤ 1024 := by
    rcases Nat.eq_zero_or_pos n with rfl | hpos
    · decide
    · have hlog : n.log2 < 63 := (Nat.log2_lt hpos.ne').mpr h
      calc 2 ^ (n.log2 - 52) ≤ 2 ^ 10 := Nat.pow_le_pow_right (by decide) (by omega)
        _ = 1024 := by decide
  rw [Nat.mul_comm] at hdiv
  simp only [roundNat]
  split_ifs with hdown
  · omega
  · rw [Nat.add_mul]
    omega

/-- A sum that leaves the 64-bit range is not rounded below what was added to. -/
lemma le_roundNat_sum {m n : ℕ} (hm : m < 2 ^ 63) (h : 2 ^ 63 ≤ m + n) :
    m ≤ roundNat (roundNat m + roundNat n) := by
  have hlost := le_roundNat_add hm
  by_cases hn : n < 2048
  · have hexact : roundNat n = n := by
      simpa using roundNat_mul_two_pow (q := n) (e := 0) (by omega)
    have htop : roundNat (2 ^ 63 - 512) = 2 ^ 63 := by decide
    have := roundNat_mono (show 2 ^ 63 - 512 ≤ roundNat m + roundNat n by omega)
    omega
  · have hn' : 2 ^ 11 ≤ roundNat n := two_pow_le_roundNat (by omega)
    -- the next multiple of the widest step is a double
    have hgrid : roundNat ((m + 1023) / 1024 * 2 ^ 10) = (m + 1023) / 1024 * 2 ^ 10 :=
      roundNat_mul_two_pow (by omega)
    have := roundNat_mono (show (m + 1023) / 1024 * 2 ^ 10 ≤ roundNat m + roundNat n by omega)
    omega

/-- A difference of 64-bit integers: exact while it is one, in doubles otherwise. -/
def subI64 (a b : ℤ) : ℤ :=
  if InI64 (a - b) then a - b else roundDouble (roundDouble a - roundDouble b)

/-! ### Cells -/

namespace NumCell

/-- The number in a cell. -/
def value : NumCell → ℤ
  | integer n => n.toInt
  | real x    => x.value

/-- The number `x - y`. -/
def sub : NumCell → NumCell → ℤ
  | integer m, integer n => subI64 m.toInt n.toInt
  | x, y                 => roundDouble (x.toDouble - y.toDouble)

lemma value_of_toInt? {x : NumCell} {n : ℤ} (h : x.toInt? = some n) : x.value = n := by
  cases x with
  | integer m => exact Option.some.inj h
  | real x    => cases h

lemma value_ofDouble {v : ℤ} (hv : roundDouble v = v) : (ofDouble v hv).value = v := by
  rw [ofDouble]
  split_ifs with h
  · exact Int64.toInt_ofInt_of_le (by omega) h.2
  · rfl

lemma value_add_of_not_inI64 {m n : Int64} (h : ¬ InI64 (m.toInt + n.toInt)) :
    ((integer m).add (integer n)).value =
      roundDouble (roundDouble m.toInt + roundDouble n.toInt) := by
  simp only [add, if_neg h]
  exact value_ofDouble _

lemma value_real_add (x : WideReal) (n : Int64) : ((real x).add (integer n)).value =
    roundDouble (x.value + roundDouble n.toInt) := value_ofDouble _

/-- Adding a number that is not negative does not make a cell smaller. -/
theorem value_le_add (x : NumCell) {n : Int64} (hn : 0 ≤ n.toInt) :
    x.value ≤ (x.add (integer n)).value := by
  cases x with
  | integer m =>
    by_cases h : InI64 (m.toInt + n.toInt)
    · simp only [add, if_pos h, value, h.toInt_add]
      omega
    · rw [value_add_of_not_inI64 h, value]
      have hm := inI64_toInt m
      have hwide : 2 ^ 63 ≤ m.toInt + n.toInt := by
        simp only [InI64, not_and, not_lt] at h hm
        omega
      obtain ⟨a, ha⟩ := Int.eq_ofNat_of_zero_le (show 0 ≤ m.toInt by have := n.toInt_lt; omega)
      obtain ⟨b, hb⟩ := Int.eq_ofNat_of_zero_le hn
      have hlt := hm.2
      rw [ha, hb] at hwide ⊢
      rw [ha] at hlt
      rw [roundDouble_natCast, roundDouble_natCast, ← Int.natCast_add, roundDouble_natCast]
      exact_mod_cast le_roundNat_sum (by omega) (by omega)
  | real x =>
    have hround : 0 ≤ roundDouble n.toInt := by simpa using roundDouble_mono hn
    rw [value_real_add, value]
    calc x.value = roundDouble x.value := x.rounded.symm
      _ ≤ roundDouble (x.value + roundDouble n.toInt) := roundDouble_mono (by omega)

/-- A positive number counts in every cell that is not negative. -/
lemma value_add_pos {x : NumCell} {n : Int64} (hx : 0 ≤ x.value) (hn : 0 < n.toInt) :
    0 < (x.add (integer n)).value := by
  have hle := value_le_add x hn.le
  cases x with
  | integer m =>
    by_cases h : InI64 (m.toInt + n.toInt)
    · simp only [add, if_pos h, value, h.toInt_add] at hx ⊢
      omega
    · have hlt := n.toInt_lt
      have hm : 0 < m.toInt := by
        simp only [value, InI64, not_and, not_lt] at hx h
        omega
      exact hm.trans_le hle
  | real x =>
    have hwide := x.wide
    have hpos : 0 < x.value := by
      rw [value] at hx
      omega
    exact hpos.trans_le hle

end NumCell

end Core
