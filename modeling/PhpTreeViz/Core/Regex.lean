import Mathlib.Computability.RegularExpressions

/-!
# Regular expressions over character classes

The character classes, repetitions and anchors of the patterns that a validator matches against the
whole of its input.
-/

namespace Core

open RegularExpression

variable {α : Type*}

/-- The class `[cs]`. -/
def oneOf (cs : List α) : RegularExpression α := cs.foldr (fun c R => char c + R) 0

variable [DecidableEq α] {cs : List α} {R : RegularExpression α} {x : List α}

lemma oneOf_rmatch_iff : (oneOf cs).rmatch x ↔ ∃ c ∈ cs, x = [c] := by
  induction cs with
  | nil => simp [oneOf]
  | cons c cs ih =>
    show (char c + oneOf cs).rmatch x ↔ _
    rw [add_rmatch_iff, char_rmatch_iff, ih]
    simp

lemma oneOf_mul_rmatch_iff :
    (oneOf cs * R).rmatch x ↔ ∃ c ∈ cs, ∃ y, x = c :: y ∧ R.rmatch y := by
  simp only [mul_rmatch_iff, oneOf_rmatch_iff]
  constructor
  · rintro ⟨_, y, rfl, ⟨c, hc, rfl⟩, hy⟩
    exact ⟨c, hc, y, rfl, hy⟩
  · rintro ⟨c, hc, y, rfl, hy⟩
    exact ⟨[c], y, rfl, ⟨c, hc, rfl⟩, hy⟩

lemma star_oneOf_rmatch_iff : (oneOf cs).star.rmatch x ↔ ∀ c ∈ x, c ∈ cs := by
  simp only [star_rmatch_iff, oneOf_rmatch_iff]
  constructor
  · rintro ⟨S, rfl, hS⟩ c hc
    obtain ⟨t, ht, hct⟩ := List.mem_flatten.mp hc
    obtain ⟨-, d, hd, rfl⟩ := hS t ht
    exact List.mem_singleton.mp hct ▸ hd
  · intro hx
    refine ⟨x.map ([·]), by simp [← List.flatMap_def], fun t ht => ?_⟩
    obtain ⟨c, hc, rfl⟩ := List.mem_map.mp ht
    exact ⟨List.cons_ne_nil _ _, c, hx c hc, rfl⟩

/-- `[cs]{n}` -/
lemma oneOf_pow_rmatch_iff {n : ℕ} :
    (oneOf cs ^ n).rmatch x ↔ x.length = n ∧ ∀ c ∈ x, c ∈ cs := by
  induction n generalizing x with
  | zero =>
    show (1 : RegularExpression α).rmatch x ↔ _
    rw [one_rmatch_iff]
    constructor
    · rintro rfl
      simp
    · exact fun h => List.length_eq_zero_iff.mp h.1
  | succ n ih =>
    show (oneOf cs ^ n * oneOf cs).rmatch x ↔ _
    simp only [mul_rmatch_iff, ih, oneOf_rmatch_iff]
    constructor
    · rintro ⟨t, _, rfl, ⟨rfl, ht⟩, c, hc, rfl⟩
      simp only [List.length_append, List.length_singleton, List.mem_append, List.mem_singleton,
        true_and]
      rintro d (hd | rfl)
      · exact ht d hd
      · exact hc
    · rintro ⟨hlen, hx⟩
      rcases List.eq_nil_or_concat x with rfl | ⟨t, c, rfl⟩
      · simp at hlen
      · simp only [List.concat_eq_append, List.length_append, List.length_singleton,
          List.mem_append, List.mem_singleton] at hlen hx ⊢
        exact ⟨t, [c], rfl, ⟨by omega, fun d hd => hx d (Or.inl hd)⟩, c, hx c (Or.inr rfl), rfl⟩

/-- The pattern `^R$` is found in `x`: `$` is its end, or the place before a newline there. -/
def matchLine (newline : α) (R : RegularExpression α) (x : List α) : Bool :=
  R.rmatch x || (x.getLast? == some newline && R.rmatch x.dropLast)

lemma matchLine_iff {newline : α} :
    matchLine newline R x ↔ R.rmatch x ∨ ∃ w, x = w ++ [newline] ∧ R.rmatch w := by
  rw [matchLine, Bool.or_eq_true, Bool.and_eq_true, beq_iff_eq]
  refine or_congr Iff.rfl ⟨?_, ?_⟩
  · rintro ⟨hlast, hmatch⟩
    exact ⟨x.dropLast, (List.dropLast_append_getLast? _ hlast).symm, hmatch⟩
  · rintro ⟨w, rfl, hmatch⟩
    simpa using hmatch

end Core
