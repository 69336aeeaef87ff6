import Mathlib.Data.List.Infix
import Mathlib.Tactic.Lemma

/-!
# Replacement

The replacement of every occurrence of a word in a text. A word that cannot reach over an end of the
replacement appears in the new text only within the replacement, or within a part of the old text
that was kept.
-/

namespace Core

variable {α : Type*}

section words

variable {w xs ys : List α} {c : α}

/-- A word without the letter appears on one side of it. -/
lemma infix_cons_iff_of_not_mem (hc : c ∉ w) : w <:+: c :: ys ↔ w <:+: ys := by
  refine ⟨fun h => ?_, List.infix_cons⟩
  rcases List.infix_cons_iff.mp h with hstart | h
  · rcases List.prefix_cons_iff.mp hstart with rfl | ⟨w', rfl, -⟩
    · exact List.nil_infix
    · exact absurd List.mem_cons_self hc
  · exact h

lemma infix_append_cons_iff (hc : c ∉ w) : w <:+: xs ++ c :: ys ↔ w <:+: xs ∨ w <:+: ys := by
  rw [List.infix_append_iff, infix_cons_iff_of_not_mem hc, ← or_assoc]
  refine or_iff_left_of_imp ?_
  rintro ⟨l₁, l₂, rfl, hsuffix, hstart⟩
  rcases List.prefix_cons_iff.mp hstart with rfl | ⟨l₂, rfl, -⟩
  · rw [List.append_nil]
    exact Or.inl hsuffix.isInfix
  · exact absurd (List.mem_append_right _ List.mem_cons_self) hc

end words

/-! ### One pass over the text -/

section replacement

variable [DecidableEq α]

/-- After `skip` letters, replace the occurrences of `s` from left to right. -/
def replaceFrom (s r : List α) : ℕ → List α → List α
  | _, []             => []
  | skip + 1, _ :: xs => replaceFrom s r skip xs
  | 0, x :: xs        =>
    if s <+: x :: xs then r ++ replaceFrom s r (s.length - 1) xs else x :: replaceFrom s r 0 xs

/-- `str_replace(s, r, xs)` -/
def strReplace (s r xs : List α) : List α := if s = [] then xs else replaceFrom s r 0 xs

end replacement

/-- The second text is the first with `r` in place of some occurrences of `s`, and no occurrence
lies between two of them. -/
inductive Replaces (s r : List α) : List α → List α → Prop where
  | last {p : List α} : ¬ s <:+: p → Replaces s r p p
  | more {p xs ys : List α} : ¬ s <:+: p → Replaces s r xs ys →
      Replaces s r (p ++ (s ++ xs)) (p ++ (r ++ ys))

namespace Replaces

variable {s r w xs ys : List α}

/-- No occurrence starts at the letter. -/
lemma cons {x : α} (h : Replaces s r xs ys) (hx : ¬ s <+: x :: xs) :
    Replaces s r (x :: xs) (x :: ys) := by
  have hkept : ∀ p, p <+: xs → ¬ s <:+: p → ¬ s <:+: x :: p := by
    intro p hp hs hin
    rcases List.infix_cons_iff.mp hin with hstart | hin
    · exact hx (hstart.trans (List.cons_prefix_cons.mpr ⟨rfl, hp⟩))
    · exact hs hin
  cases h with
  | last hs      => exact .last (hkept _ List.prefix_rfl hs)
  | more hs hrest =>
    exact .more (p := x :: _) (hkept _ (List.prefix_append _ _) hs) hrest

/-- An occurrence of a word in the new text lies in a replacement, or in a part that was kept. -/
theorem infix_cases {c d : α} {m : List α} (h : Replaces s (c :: (m ++ [d])) xs ys)
    (hc : c ∉ w) (hd : d ∉ w) (hw : w <:+: ys) :
    w <:+: m ∨ ∃ p, w <:+: p ∧ p <:+: xs ∧ ¬ s <:+: p := by
  induction h with
  | last hs => exact Or.inr ⟨_, hw, List.infix_rfl, hs⟩
  | @more p xs ys hs _ ih =>
    rw [List.cons_append, List.append_assoc, List.singleton_append, infix_append_cons_iff hc,
      infix_append_cons_iff hd] at hw
    rcases hw with hw | hw | hw
    · exact Or.inr ⟨p, hw, (List.prefix_append _ _).isInfix, hs⟩
    · exact Or.inl hw
    · refine (ih hw).imp_right ?_
      rintro ⟨p', hw', hp', hs'⟩
      refine ⟨p', hw', hp'.trans ?_, hs'⟩
      rw [← List.append_assoc]
      exact (List.suffix_append _ _).isInfix

end Replaces

section replacement

variable [DecidableEq α] {s : List α}

lemma replaceFrom_eq_drop (s r : List α) (skip : ℕ) (xs : List α) :
    replaceFrom s r skip xs = replaceFrom s r 0 (xs.drop skip) := by
  induction skip generalizing xs with
  | zero         => rfl
  | succ skip ih =>
    cases xs with
    | nil       => rfl
    | cons x xs => exact ih xs

theorem replaces_replaceFrom (hs : s ≠ []) (r xs : List α) :
    Replaces s r xs (replaceFrom s r 0 xs) := by
  induction hn : xs.length using Nat.strong_induction_on generalizing xs with
  | _ n ih =>
    cases xs with
    | nil =>
      refine .last ?_
      rw [List.infix_nil]
      exact hs
    | cons x xs =>
      rw [replaceFrom]
      split_ifs with hstart
      · obtain ⟨xs', hxs⟩ := hstart
        obtain ⟨y, s, rfl⟩ := List.exists_cons_of_ne_nil hs
        have htail : s ++ xs' = xs := (List.cons.inj hxs).2
        have hlt : xs'.length < n := by
          rw [← hn, ← htail, List.length_cons, List.length_append]
          omega
        rw [replaceFrom_eq_drop, List.length_cons, Nat.add_sub_cancel, ← htail, List.drop_left,
          htail, ← hxs]
        exact .more (p := []) (by simp) (ih _ hlt xs' rfl)
      · exact (ih _ (hn ▸ Nat.lt_succ_self _) xs rfl).cons hstart

theorem replaces_strReplace (hs : s ≠ []) (r xs : List α) :
    Replaces s r xs (strReplace s r xs) := by
  rw [strReplace, if_neg hs]
  exact replaces_replaceFrom hs r xs

end replacement

end Core
