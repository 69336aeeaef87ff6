import Mathlib.Data.Int.Interval
import Mathlib.Algebra.BigOperators.Group.List.Basic
import Mathlib.Tactic.Lemma

/-!
# Disjoint intervals

Half-open intervals of integers that lie in a common interval and do not overlap are together no
longer than that interval.
-/

namespace Core

open Finset

variable {α : Type*} {start stop : α → ℤ}

/-- The intervals of `a` and `b` have no point in common. -/
def Apart (start stop : α → ℤ) (a b : α) : Prop :=
  ∀ x, start a ≤ x → x < stop a → start b ≤ x → ¬ x < stop b

/-- One of the intervals is empty or ends before the other starts. -/
lemma apart_iff {a b : α} : Apart start stop a b ↔
    stop a ≤ start a ∨ stop b ≤ start b ∨ stop a ≤ start b ∨ stop b ≤ start a := by
  constructor
  · intro h
    have ha := h (start a)
    have hb := h (start b)
    omega
  · intro h x
    omega

instance (a b : α) : Decidable (Apart start stop a b) := decidable_of_iff' _ apart_iff

/-- Intervals stay apart when they shrink. -/
lemma Apart.mono {a b a' b' : α} (h : Apart start stop a b)
    (ha : start a ≤ start a' ∧ stop a' ≤ stop a) (hb : start b ≤ start b' ∧ stop b' ≤ stop b) :
    Apart start stop a' b' :=
  fun x hxa hxa' hxb hxb' =>
    h x (ha.1.trans hxa) (hxa'.trans_le ha.2) (hb.1.trans hxb) (hxb'.trans_le hb.2)

/-- The points of intervals that are apart are counted by the sum of the lengths. -/
lemma exists_card_eq_sum {l : List α} (hapart : l.Pairwise (Apart start stop)) :
    ∃ S : Finset ℤ, (∀ x, x ∈ S ↔ ∃ a ∈ l, start a ≤ x ∧ x < stop a) ∧
      (S.card : ℤ) = (l.map fun a => max 0 (stop a - start a)).sum := by
  induction l with
  | nil => exact ⟨∅, by simp, rfl⟩
  | cons a l ih =>
    rw [List.pairwise_cons] at hapart
    obtain ⟨S, hmem, hcard⟩ := ih hapart.2
    have hdisj : Disjoint (Ico (start a) (stop a)) S := by
      rw [Finset.disjoint_left]
      intro x hx hS
      rw [mem_Ico] at hx
      obtain ⟨b, hb, hxb⟩ := (hmem x).mp hS
      exact hapart.1 b hb x hx.1 hx.2 hxb.1 hxb.2
    refine ⟨Ico (start a) (stop a) ∪ S, fun x => ?_, ?_⟩
    · rw [mem_union, hmem, mem_Ico]
      simp only [List.mem_cons, exists_eq_or_imp]
    · rw [card_union_of_disjoint hdisj, Nat.cast_add, hcard, Int.card_Ico, Int.toNat_eq_max,
        max_comm, List.map_cons, List.sum_cons]

variable (start stop) in
/-- Intervals that are apart are together no longer than `[lo, hi)`, if those that are not empty
lie in it. -/
theorem sum_length_le {l : List α} {lo hi : ℤ} (hapart : l.Pairwise (Apart start stop))
    (hin : ∀ a ∈ l, start a < stop a → lo ≤ start a ∧ stop a ≤ hi)
    (hlohi : lo ≤ hi) : (l.map fun a => max 0 (stop a - start a)).sum ≤ hi - lo := by
  obtain ⟨S, hmem, hcard⟩ := exists_card_eq_sum hapart
  have hsub : S ⊆ Ico lo hi := by
    intro x hx
    obtain ⟨a, ha, hxa⟩ := (hmem x).mp hx
    obtain ⟨hlo, hhi⟩ := hin a ha (hxa.1.trans_lt hxa.2)
    exact mem_Ico.mpr ⟨hlo.trans hxa.1, hxa.2.trans_le hhi⟩
  rw [← hcard, ← Int.card_Ico_of_le _ _ hlohi]
  exact_mod_cast card_le_card hsub

end Core
