import Mathlib.Data.List.Basic
import Mathlib.Tactic.Lemma

/-!
# Finding a text in a text

The first occurrence of a pattern from a position on, and parts of a text. A text can be cut at the
occurrences of a pattern that are found from left to right.
-/

namespace Core

variable {α : Type*} {s pat : List α} {i j k : ℕ}

/-! ### Parts -/

/-- What stands from position `i` up to position `j`. -/
def part (s : List α) (i j : ℕ) : List α := (s.take j).drop i

@[simp] lemma part_self (s : List α) (i : ℕ) : part s i i = [] := by simp [part]

lemma part_append_drop (h : i ≤ j) : part s i j ++ s.drop j = s.drop i := by
  obtain ⟨k, rfl⟩ := Nat.exists_eq_add_of_le h
  rw [part, List.drop_take, Nat.add_sub_cancel_left, ← List.drop_drop, List.take_append_drop]

lemma part_eq_of_occurs (h : pat <+: s.drop k) : part s k (k + pat.length) = pat := by
  rw [part, List.drop_take, Nat.add_sub_cancel_left]
  exact List.prefix_iff_eq_take.mp h |>.symm

/-! ### Infixes -/

lemma infix_iff_exists_drop : pat <:+: s ↔ ∃ k, pat <+: s.drop k := by
  constructor
  · rintro ⟨before, after, rfl⟩
    refine ⟨before.length, after, ?_⟩
    rw [List.append_assoc, List.drop_left]
  · rintro ⟨k, hk⟩
    exact hk.isInfix.trans (List.drop_suffix k s).isInfix

/-- A part in which no occurrence begins does not contain the pattern. -/
lemma not_infix_part (hpat : pat ≠ []) (h : ∀ j, i ≤ j → j < k → ¬ pat <+: s.drop j) :
    ¬ pat <:+: part s i k := by
  rw [infix_iff_exists_drop]
  rintro ⟨j, hj⟩
  have hlt : i + j < k := by
    by_contra hle
    rw [part, List.drop_drop, List.drop_eq_nil_of_le (by simp; omega), List.prefix_nil] at hj
    exact hpat hj
  refine h (i + j) (Nat.le_add_right i j) hlt ?_
  rw [part, List.drop_drop, List.drop_take] at hj
  exact hj.trans (List.take_prefix _ _)

/-- A rest in which no occurrence begins does not contain the pattern. -/
lemma not_infix_drop (h : ∀ j, i ≤ j → ¬ pat <+: s.drop j) : ¬ pat <:+: s.drop i := by
  rw [infix_iff_exists_drop]
  rintro ⟨j, hj⟩
  rw [List.drop_drop] at hj
  exact h (i + j) (Nat.le_add_right i j) hj

/-! ### The first occurrence -/

lemma lt_length_of_occurs (hpat : pat ≠ []) (h : pat <+: s.drop k) : k < s.length := by
  by_contra hle
  rw [List.drop_eq_nil_of_le (Nat.le_of_not_lt hle), List.prefix_nil] at h
  exact hpat h

variable [DecidableEq α]

/-- The first position from `i` on at which the pattern stands. -/
def indexOf (s pat : List α) (i : ℕ) : Option ℕ :=
  (List.range' (min i s.length) (s.length + 1 - min i s.length)).find? fun k =>
    pat.isPrefixOf (s.drop k)

def includes (s pat : List α) : Bool := (indexOf s pat 0).isSome

lemma indexOf_eq_none_iff (hpat : pat ≠ []) :
    indexOf s pat i = none ↔ ∀ k, i ≤ k → ¬ pat <+: s.drop k := by
  simp only [indexOf, List.find?_eq_none, List.isPrefixOf_iff_prefix, List.mem_range'_1]
  constructor
  · intro h k hk hoccurs
    have := lt_length_of_occurs hpat hoccurs
    exact h k (by omega) hoccurs
  · intro h k hk hoccurs
    have := lt_length_of_occurs hpat hoccurs
    exact h k (by omega) hoccurs

lemma indexOf_eq_some (hpat : pat ≠ []) (h : indexOf s pat i = some k) :
    i ≤ k ∧ pat <+: s.drop k ∧ ∀ j, i ≤ j → j < k → ¬ pat <+: s.drop j := by
  rw [indexOf, List.find?_eq_some_iff_append] at h
  obtain ⟨hoccurs, before, after, hrange, hbefore⟩ := h
  rw [List.isPrefixOf_iff_prefix] at hoccurs
  have hk := lt_length_of_occurs hpat hoccurs
  have hmem : k ∈ List.range' (min i s.length) (s.length + 1 - min i s.length) := by
    simp [hrange]
  rw [List.mem_range'_1] at hmem
  refine ⟨by omega, hoccurs, fun j hij hjk hj => ?_⟩
  have hsorted : (List.range' (min i s.length) (s.length + 1 - min i s.length)).Pairwise (· < ·) :=
    List.pairwise_lt_range'
  rw [hrange] at hsorted
  have hjmem : j ∈ before ++ k :: after := by
    rw [← hrange, List.mem_range'_1]
    omega
  rw [List.mem_append, List.mem_cons] at hjmem
  rcases hjmem with hjmem | rfl | hjmem
  · have := hbefore j hjmem
    rw [Bool.not_eq_true', ← Bool.not_eq_true, List.isPrefixOf_iff_prefix] at this
    exact this hj
  · exact Nat.lt_irrefl j hjk
  · have := List.rel_of_pairwise_cons (List.pairwise_append.mp hsorted).2.1 hjmem
    omega

theorem includes_iff (hpat : pat ≠ []) : includes s pat ↔ pat <:+: s := by
  rw [includes, Option.isSome_iff_ne_none, Ne, indexOf_eq_none_iff hpat, infix_iff_exists_drop]
  simp

end Core
