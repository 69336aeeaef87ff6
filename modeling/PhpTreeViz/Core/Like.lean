import Mathlib.Data.List.Infix
import Mathlib.Data.List.Basic
import Mathlib.Tactic.Lemma

/-!
# Wildcard patterns

The patterns of `LIKE … ESCAPE`: `%` stands for any sequence of characters, `_` for any single one,
and the escape character makes the character after it literal. Letters of ASCII match in either
case.
-/

namespace Core

/-- What a pattern is made of. -/
inductive LikeToken where
  | any
  | one
  | lit (c : Char)
  deriving DecidableEq

/-- The tokens of a pattern, unless it ends in the escape character `esc`. -/
def likeTokens (esc : Char) : List Char → Option (List LikeToken)
  | []          => some []
  | [c]         =>
    if c = esc then none else if c = '%' then some [.any] else if c = '_' then some [.one]
    else some [.lit c]
  | c :: d :: p =>
    if c = esc then (likeTokens esc p).map (.lit d :: ·)
    else if c = '%' then (likeTokens esc (d :: p)).map (.any :: ·)
    else if c = '_' then (likeTokens esc (d :: p)).map (.one :: ·)
    else (likeTokens esc (d :: p)).map (.lit c :: ·)

/-- The tokens match all of the string. `Char.toLower` leaves characters beyond ASCII alone. -/
def matchTokens : List LikeToken → List Char → Bool
  | [], s              => s.isEmpty
  | .any :: p, s       => s.tails.any (matchTokens p)
  | .one :: p, s       => match s with
    | []     => false
    | _ :: s => matchTokens p s
  | .lit c :: p, s     => match s with
    | []     => false
    | d :: s => c.toLower == d.toLower && matchTokens p s

/-- `s LIKE pattern ESCAPE esc`. A dangling escape matches nothing. -/
def likeMatches (esc : Char) (pattern s : List Char) : Bool :=
  (likeTokens esc pattern).elim false (matchTokens · s)

/-! ### Tokens -/

section likeTokens

variable {esc c : Char} {p : List Char}

@[simp] lemma likeTokens_nil : likeTokens esc [] = some [] := rfl

@[simp] lemma likeTokens_escape (d : Char) :
    likeTokens esc (esc :: d :: p) = (likeTokens esc p).map (.lit d :: ·) := by
  rw [likeTokens, if_pos rfl]

lemma likeTokens_percent (hesc : esc ≠ '%') :
    likeTokens esc ('%' :: p) = (likeTokens esc p).map (.any :: ·) := by
  cases p with
  | nil => simp [likeTokens, hesc.symm]
  | cons d p => rw [likeTokens, if_neg hesc.symm, if_pos rfl]

lemma likeTokens_lit (hesc : c ≠ esc) (hany : c ≠ '%') (hone : c ≠ '_') :
    likeTokens esc (c :: p) = (likeTokens esc p).map (.lit c :: ·) := by
  cases p with
  | nil => simp [likeTokens, hesc, hany, hone]
  | cons d p => rw [likeTokens, if_neg hesc, if_neg hany, if_neg hone]

end likeTokens

/-! ### Matching -/

section matchTokens

variable {p : List LikeToken} {q s : List Char}

lemma matchTokens_any : matchTokens (.any :: p) s ↔ ∃ t, t <:+ s ∧ matchTokens p t := by
  simp [matchTokens]

/-- Literals before a final `%` match a prefix. -/
lemma matchTokens_lits_any : matchTokens (q.map .lit ++ [.any]) s ↔
    q.map Char.toLower <+: s.map Char.toLower := by
  induction q generalizing s with
  | nil =>
    have : matchTokens [.any] s := matchTokens_any.mpr ⟨[], List.nil_suffix, rfl⟩
    simpa using this
  | cons c q ih =>
    rw [List.map_cons, List.cons_append]
    cases s with
    | nil => simp [matchTokens]
    | cons d s =>
      rw [matchTokens, Bool.and_eq_true, ih, beq_iff_eq, List.map_cons, List.map_cons,
        List.cons_prefix_cons]

/-- Literals between two `%` match a substring. -/
theorem matchTokens_any_lits_any : matchTokens (.any :: (q.map .lit ++ [.any])) s ↔
    q.map Char.toLower <:+: s.map Char.toLower := by
  rw [matchTokens_any, List.infix_iff_prefix_suffix]
  simp only [matchTokens_lits_any]
  constructor
  · rintro ⟨t, ht, hq⟩
    exact ⟨t.map Char.toLower, hq, ht.map _⟩
  · rintro ⟨t, hq, ht⟩
    obtain ⟨n, rfl⟩ : ∃ n, t = (s.map Char.toLower).drop n := ⟨_, List.suffix_iff_eq_drop.mp ht⟩
    exact ⟨s.drop n, List.drop_suffix _ _, by rwa [List.map_drop]⟩

end matchTokens

end Core
