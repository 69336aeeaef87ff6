import Mathlib.Data.List.DropRight
import PhpTreeViz.Core.Bytes

/-!
# Lines

Text that is split at line feeds, at carriage returns, and at pairs of both, and lines whose ends
are trimmed.
-/

namespace Core

/-! ### Splitting -/

/-- Split at `\r\n|\n|\r`. -/
def splitLines : List UInt8 → List (List UInt8)
  | []            => [[]]
  | 13 :: 10 :: s => [] :: splitLines s
  | 10 :: s       => [] :: splitLines s
  | 13 :: s       => [] :: splitLines s
  | b :: s        => (splitLines s).modifyHead (b :: ·)

/-- No byte that ends a line. -/
def IsLine (l : List UInt8) : Prop := ∀ b ∈ l, b ≠ 10 ∧ b ≠ 13

instance (l : List UInt8) : Decidable (IsLine l) := List.decidableBAll _ l

/-- What stands between two lines. -/
inductive Ending where
  | lf
  | cr
  | crlf

def Ending.bytes : Ending → List UInt8
  | lf   => [10]
  | cr   => [13]
  | crlf => [13, 10]

/-- The text of some lines with their endings and of a last line. -/
def joinLines (lines : List (List UInt8 × Ending)) (last : List UInt8) : List UInt8 :=
  (lines.flatMap fun p => p.1 ++ p.2.bytes) ++ last

/-- The second list is the first without some of its empty lines. -/
inductive DropsEmpty : List (List UInt8) → List (List UInt8) → Prop where
  | nil : DropsEmpty [] []
  | keep {l : List UInt8} {ls ls' : List (List UInt8)} : DropsEmpty ls ls' →
      DropsEmpty (l :: ls) (l :: ls')
  | drop {ls ls' : List (List UInt8)} : DropsEmpty ls ls' → DropsEmpty ([] :: ls) ls'

lemma DropsEmpty.refl (ls : List (List UInt8)) : DropsEmpty ls ls := by
  induction ls with
  | nil         => exact .nil
  | cons l ls h => exact .keep h

lemma DropsEmpty.of_cons_nil {ls ls' : List (List UInt8)} (h : DropsEmpty ls ([] :: ls')) :
    DropsEmpty ls ls' := by
  generalize hls : [] :: ls' = ls'' at h
  induction h with
  | nil       => cases hls
  | keep h _  =>
    obtain ⟨rfl, rfl⟩ := List.cons.inj hls
    exact .drop h
  | drop _ ih => exact .drop (ih hls)

lemma splitLines_line_append {l : List UInt8} (hl : IsLine l) (s : List UInt8) :
    splitLines (l ++ s) = (splitLines s).modifyHead (l ++ ·) := by
  induction l with
  | nil =>
    rw [List.nil_append]
    cases splitLines s <;> rfl
  | cons b l ih =>
    obtain ⟨⟨hlf, hcr⟩, hl⟩ := List.forall_mem_cons.mp hl
    rw [List.cons_append, splitLines, ih hl, List.modifyHead_modifyHead]
    · rfl
    · exact fun _ h => absurd h hcr
    · exact hlf
    · exact hcr

/-- A carriage return and the line feed after it are one ending. -/
lemma splitLines_ending (e : Ending) (s : List UInt8) :
    splitLines (e.bytes ++ s) = [] :: splitLines s ∨
      ∃ s', s = 10 :: s' ∧ splitLines (e.bytes ++ s) = [] :: splitLines s' := by
  cases e with
  | lf   => exact Or.inl rfl
  | crlf => exact Or.inl rfl
  | cr   =>
    by_cases h : ∃ s', s = 10 :: s'
    · obtain ⟨s', rfl⟩ := h
      exact Or.inr ⟨s', rfl, rfl⟩
    · left
      show splitLines (13 :: s) = _
      rw [splitLines]
      exact fun s' hs => h ⟨s', hs⟩

/-- Splitting gives the lines back, but for some empty ones. -/
theorem dropsEmpty_splitLines {lines : List (List UInt8 × Ending)} {last : List UInt8}
    (hlines : ∀ p ∈ lines, IsLine p.1) (hlast : IsLine last) :
    DropsEmpty (lines.map Prod.fst ++ [last]) (splitLines (joinLines lines last)) := by
  induction lines with
  | nil =>
    have := splitLines_line_append hlast []
    rw [List.append_nil] at this
    rw [joinLines, List.flatMap_nil, List.nil_append, this]
    simpa [splitLines] using DropsEmpty.refl [last]
  | cons p lines ih =>
    obtain ⟨hp, hlines⟩ := List.forall_mem_cons.mp hlines
    have hjoin : joinLines (p :: lines) last = p.1 ++ (p.2.bytes ++ joinLines lines last) := by
      simp [joinLines]
    rw [hjoin, splitLines_line_append hp, List.map_cons, List.cons_append]
    rcases splitLines_ending p.2 (joinLines lines last) with hsplit | ⟨s', hs, hsplit⟩
    · rw [hsplit]
      simpa using DropsEmpty.keep (ih hlines)
    · have hrest := ih hlines
      rw [hs] at hrest
      rw [hsplit]
      simpa using DropsEmpty.keep (DropsEmpty.of_cons_nil hrest)

/-! ### Trimming -/

/-- Remove the bytes in `cs` from both ends. -/
def trim (cs l : List UInt8) : List UInt8 := (l.dropWhile (· ∈ cs)).rdropWhile (· ∈ cs)

section trim

variable {cs l l' : List UInt8} {b : UInt8}

lemma rdropWhile_append_cons (hb : b ∉ cs) :
    (l ++ b :: l').rdropWhile (· ∈ cs) = l ++ b :: l'.rdropWhile (· ∈ cs) := by
  induction l' using List.reverseRecOn with
  | nil => rw [List.rdropWhile_concat_neg _ _ _ (by simpa using hb), List.rdropWhile_nil]
  | append_singleton l' c ih =>
    have hassoc : l ++ b :: (l' ++ [c]) = (l ++ b :: l') ++ [c] := by simp
    by_cases hc : c ∈ cs
    · rw [hassoc, List.rdropWhile_concat_pos _ _ _ (by simpa using hc), ih,
        List.rdropWhile_concat_pos _ _ _ (by simpa using hc)]
    · rw [hassoc, List.rdropWhile_concat_neg _ _ _ (by simpa using hc),
        List.rdropWhile_concat_neg _ _ _ (by simpa using hc), hassoc]

lemma rdropWhile_of_forall (h : ∀ b ∈ l, b ∈ cs) : l.rdropWhile (· ∈ cs) = [] :=
  List.rdropWhile_eq_nil_iff.mpr (by simpa using h)

/-- What is trimmed at the left end goes. -/
lemma trim_append_cons (h : ∀ b ∈ l, b ∈ cs) (hb : b ∉ cs) :
    trim cs (l ++ b :: l') = (b :: l').rdropWhile (· ∈ cs) := by
  rw [trim, dropWhile_append_eq h (by simpa using hb)]

lemma trim_of_forall (h : ∀ b ∈ l, b ∈ cs) : trim cs l = [] := by
  rw [trim, List.dropWhile_eq_nil_iff.mpr (by simpa using h), List.rdropWhile_nil]

/-- There is nothing to trim. -/
lemma trim_eq_self (h : ∀ b ∈ l, b ∉ cs) : trim cs l = l := by
  have hdrop : l.dropWhile (· ∈ cs) = l := by
    rw [List.dropWhile_eq_self_iff]
    exact fun hpos => by simpa using h _ (List.getElem_mem hpos)
  rw [trim, hdrop, List.rdropWhile_eq_self_iff]
  exact fun hne => by simpa using h _ (List.getLast_mem hne)

end trim

end Core
