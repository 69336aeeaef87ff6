import PhpTreeViz.Core.Substring

/-!
# Search in the tree

A row matches a query if its function name contains it, case aside, and the occurrences are marked
in the row. They are found in the name in lower case but cut from the name itself, so that the marks
are right only where lower case keeps every position.
-/

namespace PhpTreeViz

open Core

/-- The lower case of strings of UTF-16 code units. It may change the length of a string, but leaves
no string empty. -/
class JsString where
  toLowerCase : List UInt16 → List UInt16
  toLowerCase_eq_nil_iff : ∀ s, toLowerCase s = [] ↔ s = []

namespace Search

open JsString

variable {ρ : Type*}

/-! ### The functions -/

/-- The indices of the rows whose `fqn` contains the query. -/
def findMatches [JsString] (fqn : ρ → Option (List UInt16)) (rows : List ρ)
    (query : List UInt16) : List ℕ :=
  if query = [] then []
  else (List.range rows.length).filter fun i =>
    match rows[i]?.bind fqn with
    | none     => false
    | some fqn => includes (toLowerCase fqn) (toLowerCase query)

structure Segment where
  text : List UInt16
  matched : Bool
  deriving DecidableEq

/-- The loop of `highlightFqn` from `i` on. It has not ended if the fuel runs out. -/
def highlightFrom (fqn lowerFqn lowerQ : List UInt16) : ℕ → ℕ → Option (List Segment)
  | 0, i        => if i < fqn.length then none else some []
  | fuel + 1, i =>
    if i < fqn.length then
      match indexOf lowerFqn lowerQ i with
      | none      => some [⟨fqn.drop i, false⟩]
      | some next =>
        (highlightFrom fqn lowerFqn lowerQ fuel (next + lowerQ.length)).map fun rest =>
          (if i < next then [⟨part fqn i next, false⟩] else []) ++
            ⟨part fqn next (next + lowerQ.length), true⟩ :: rest
    else some []

def highlightFqn [JsString] (fqn query : List UInt16) : Option (List Segment) :=
  if query = [] then some [⟨fqn, false⟩]
  else
    (highlightFrom fqn (toLowerCase fqn) (toLowerCase query) fqn.length 0).map fun segments =>
      if segments.length = 0 then [⟨fqn, false⟩] else segments

/-! ### What the marks should be -/

/-- The segments are the name, and those that are marked are its matches. -/
structure Marks [JsString] (fqn query : List UInt16) (segments : List Segment) : Prop where
  text : segments.flatMap Segment.text = fqn
  matched : ∀ segment ∈ segments, segment.matched = true →
    toLowerCase segment.text = toLowerCase query
  unmatched : ∀ segment ∈ segments, segment.matched = false →
    ¬ toLowerCase query <:+: toLowerCase segment.text
  selected : ∀ (ρ : Type) (fqnOf : ρ → Option (List UInt16)) (rows : List ρ) (i : ℕ),
    rows[i]?.bind fqnOf = some fqn →
      (i ∈ findMatches fqnOf rows query ↔ ∃ segment ∈ segments, segment.matched = true)

/-- The loop ends, and its marks are right. -/
def Faithful [JsString] (fqn query : List UInt16) : Prop :=
  ∃ segments, highlightFqn fqn query = some segments ∧ Marks fqn query segments

/-! ### The loop -/

/-- The segments of the loop from `i` on. -/
inductive Splits (fqn lowerFqn lowerQ : List UInt16) : ℕ → List Segment → Prop where
  | stop {i : ℕ} : fqn.length ≤ i → Splits fqn lowerFqn lowerQ i []
  | last {i : ℕ} : i < fqn.length → indexOf lowerFqn lowerQ i = none →
      Splits fqn lowerFqn lowerQ i [⟨fqn.drop i, false⟩]
  | found {i next : ℕ} {rest : List Segment} : i < fqn.length →
      indexOf lowerFqn lowerQ i = some next →
      Splits fqn lowerFqn lowerQ (next + lowerQ.length) rest →
      Splits fqn lowerFqn lowerQ i ((if i < next then [⟨part fqn i next, false⟩] else []) ++
        ⟨part fqn next (next + lowerQ.length), true⟩ :: rest)

section loop

variable {fqn lowerFqn lowerQ : List UInt16} {fuel i j next : ℕ} {segments : List Segment}

/-- Every turn gets past a whole occurrence, so that the loop ends. -/
lemma splits_highlightFrom (hq : lowerQ ≠ []) (hfuel : fqn.length ≤ i + fuel) :
    ∃ segments, highlightFrom fqn lowerFqn lowerQ fuel i = some segments ∧
      Splits fqn lowerFqn lowerQ i segments := by
  have hpos : 0 < lowerQ.length := List.length_pos_iff.mpr hq
  induction fuel generalizing i with
  | zero => exact ⟨[], if_neg (by omega), .stop hfuel⟩
  | succ fuel ih =>
    rw [highlightFrom]
    by_cases hi : i < fqn.length
    · rw [if_pos hi]
      cases hindex : indexOf lowerFqn lowerQ i with
      | none => exact ⟨_, rfl, .last hi hindex⟩
      | some next =>
        have hle := (indexOf_eq_some hq hindex).1
        obtain ⟨rest, hrest, hsplits⟩ := ih (i := next + lowerQ.length) (by omega)
        simp only [hrest]
        exact ⟨_, rfl, .found hi hindex hsplits⟩
    · rw [if_neg hi]
      exact ⟨[], rfl, .stop (Nat.le_of_not_lt hi)⟩

/-- The segments are the rest of the name, wherever it is cut. -/
lemma Splits.flatMap_text (hq : lowerQ ≠ []) (h : Splits fqn lowerFqn lowerQ i segments) :
    segments.flatMap Segment.text = fqn.drop i := by
  induction h with
  | stop hi => rw [List.drop_eq_nil_of_le hi, List.flatMap_nil]
  | last => simp
  | @found i next rest _ hindex _ ih =>
    have hle := (indexOf_eq_some hq hindex).1
    have hplain : (if i < next then [Segment.mk (part fqn i next) false] else []).flatMap
        Segment.text = part fqn i next := by
      split_ifs with hlt
      · simp
      · obtain rfl : i = next := by omega
        simp
    rw [List.flatMap_append, List.flatMap_cons, ih, hplain,
      part_append_drop (Nat.le_add_right _ _), part_append_drop hle]

/-- Something is marked exactly if the pattern is found at all. -/
lemma Splits.exists_matched_iff (h : Splits fqn lowerFqn lowerQ i segments) (hi : i < fqn.length) :
    (∃ segment ∈ segments, segment.matched = true) ↔ (indexOf lowerFqn lowerQ i).isSome := by
  cases h with
  | stop hle => omega
  | last _ hindex => simp [hindex]
  | found _ hindex _ =>
    rw [hindex]
    refine iff_of_true ⟨_, List.mem_append_right _ List.mem_cons_self, rfl⟩ rfl

end loop

/-! ### Positions -/

section positions

variable [JsString]

/-- The query stands at position `k` of the name, case aside. -/
def Occurs (fqn query : List UInt16) (k : ℕ) : Prop :=
  toLowerCase query <+: (toLowerCase fqn).drop k

/-- A position between the name and its occurrences of the query: the begin of the name, or an end
of an occurrence. -/
inductive Border (fqn query : List UInt16) : ℕ → Prop where
  | start : Border fqn query 0
  | before {k : ℕ} : Occurs fqn query k → Border fqn query k
  | behind {k : ℕ} : Occurs fqn query k → Border fqn query (k + (toLowerCase query).length)

/-- To cut the name at its borders is the same before and after it is put into lower case. -/
structure KeepsBorders (fqn query : List UInt16) : Prop where
  part : ∀ i j, Border fqn query i → Border fqn query j →
    toLowerCase (part fqn i j) = part (toLowerCase fqn) i j
  rest : ∀ i, Border fqn query i → toLowerCase (fqn.drop i) = (toLowerCase fqn).drop i

variable {fqn query : List UInt16} {i : ℕ} {segments : List Segment}

lemma toLowerCase_ne_nil (hq : query ≠ []) : toLowerCase query ≠ [] :=
  fun h => hq ((toLowerCase_eq_nil_iff query).mp h)

lemma occurs_of_indexOf (hq : query ≠ []) {next : ℕ}
    (hindex : indexOf (toLowerCase fqn) (toLowerCase query) i = some next) :
    Occurs fqn query next := (indexOf_eq_some (toLowerCase_ne_nil hq) hindex).2.1

/-- The loop cuts the name at borders only. -/
lemma Splits.marks (hq : query ≠ []) (hkeeps : KeepsBorders fqn query)
    (h : Splits fqn (toLowerCase fqn) (toLowerCase query) i segments)
    (hi : Border fqn query i) :
    ∀ segment ∈ segments,
      (segment.matched = true → toLowerCase segment.text = toLowerCase query) ∧
      (segment.matched = false → ¬ toLowerCase query <:+: toLowerCase segment.text) := by
  have hlower := toLowerCase_ne_nil hq
  induction h with
  | stop => simp
  | @last i _ hindex =>
    intro segment hsegment
    obtain rfl := List.mem_singleton.mp hsegment
    refine ⟨by simp, fun _ => ?_⟩
    rw [hkeeps.rest i hi]
    exact not_infix_drop ((indexOf_eq_none_iff hlower).mp hindex)
  | @found i next rest _ hindex _ ih =>
    have hoccurs := occurs_of_indexOf hq hindex
    intro segment hsegment
    rcases List.mem_append.mp hsegment with hplain | hmarked
    · split_ifs at hplain
      · obtain rfl := List.mem_singleton.mp hplain
        refine ⟨by simp, fun _ => ?_⟩
        rw [hkeeps.part i next hi (.before hoccurs)]
        exact not_infix_part hlower (indexOf_eq_some hlower hindex).2.2
      · cases hplain
    · rcases List.mem_cons.mp hmarked with rfl | hrest
      · refine ⟨fun _ => ?_, by simp⟩
        rw [hkeeps.part _ _ (.before hoccurs) (.behind hoccurs)]
        exact part_eq_of_occurs hoccurs
      · exact ih (.behind hoccurs) segment hrest

lemma mem_findMatches_iff {rows : List ρ} {fqnOf : ρ → Option (List UInt16)} (hq : query ≠ [])
    (hrow : rows[i]?.bind fqnOf = some fqn) :
    i ∈ findMatches fqnOf rows query ↔ includes (toLowerCase fqn) (toLowerCase query) := by
  obtain ⟨row, hi, -⟩ := Option.bind_eq_some_iff.mp hrow
  have hlt := (List.getElem?_eq_some_iff.mp hi).1
  rw [findMatches, if_neg hq, List.mem_filter, List.mem_range, hrow]
  simp [hlt]

/-- A name that is not empty is split by the loop, and an empty one contains nothing. -/
lemma highlightFqn_eq (fqn : List UInt16) (hq : query ≠ []) :
    ∃ segments, highlightFqn fqn query = some segments ∧
    ((fqn ≠ [] ∧ Splits fqn (toLowerCase fqn) (toLowerCase query) 0 segments) ∨
      (fqn = [] ∧ segments = [⟨[], false⟩])) := by
  have hloop : ∃ segments,
      highlightFrom fqn (toLowerCase fqn) (toLowerCase query) fqn.length 0 = some segments ∧
        Splits fqn (toLowerCase fqn) (toLowerCase query) 0 segments :=
    splits_highlightFrom (toLowerCase_ne_nil hq) (Nat.le_add_left _ _)
  obtain ⟨segments, hfrom, hsplits⟩ := hloop
  rw [highlightFqn, if_neg hq, hfrom, Option.map_some]
  by_cases hfqn : fqn = []
  · subst hfqn
    cases hsplits with
    | stop => exact ⟨_, rfl, .inr ⟨rfl, rfl⟩⟩
    | last hlt => exact absurd hlt (by simp)
    | found hlt => exact absurd hlt (by simp)
  · have hne : segments.length ≠ 0 := by
      intro hnil
      obtain rfl := List.length_eq_zero_iff.mp hnil
      have htext := hsplits.flatMap_text (toLowerCase_ne_nil hq)
      rw [List.flatMap_nil, List.drop_zero] at htext
      exact hfqn htext.symm
    exact ⟨_, rfl, .inl ⟨hfqn, by rwa [if_neg hne]⟩⟩

/-- Whatever lower case does to the positions, the loop ends, its segments are the name, and it
marks something exactly if the row is found. -/
lemma exists_segments (fqn : List UInt16) (hq : query ≠ []) :
    ∃ segments, highlightFqn fqn query = some segments ∧
    segments.flatMap Segment.text = fqn ∧
    ∀ (ρ : Type) (fqnOf : ρ → Option (List UInt16)) (rows : List ρ) (i : ℕ),
      rows[i]?.bind fqnOf = some fqn →
        (i ∈ findMatches fqnOf rows query ↔ ∃ segment ∈ segments, segment.matched = true) := by
  have hlower := toLowerCase_ne_nil hq
  obtain ⟨segments, hsegments, ⟨hfqn, hsplits⟩ | ⟨rfl, rfl⟩⟩ := highlightFqn_eq fqn hq
  · refine ⟨segments, hsegments, hsplits.flatMap_text hlower, fun ρ fqnOf rows i hrow => ?_⟩
    rw [mem_findMatches_iff hq hrow, hsplits.exists_matched_iff (List.length_pos_iff.mpr hfqn)]
    rfl
  · refine ⟨_, hsegments, rfl, fun ρ fqnOf rows i hrow => ?_⟩
    rw [mem_findMatches_iff hq hrow, (toLowerCase_eq_nil_iff []).mpr rfl, includes_iff hlower,
      List.infix_nil]
    simp [hlower]

lemma not_infix_toLowerCase_nil (hq : query ≠ []) :
    ¬ toLowerCase query <:+: toLowerCase [] := by
  rw [(toLowerCase_eq_nil_iff []).mpr rfl, List.infix_nil]
  exact toLowerCase_ne_nil hq

/-- Where lower case keeps the borders of the occurrences, all marks are right. -/
theorem faithful_of_keepsBorders (hq : query ≠ []) (hkeeps : KeepsBorders fqn query) :
    Faithful fqn query := by
  obtain ⟨segments, hsegments, hcases⟩ := highlightFqn_eq fqn hq
  obtain ⟨segments', hsegments', htext, hselected⟩ := exists_segments fqn hq
  obtain rfl := Option.some.inj (hsegments.symm.trans hsegments')
  have hmarks : ∀ segment ∈ segments,
      (segment.matched = true → toLowerCase segment.text = toLowerCase query) ∧
      (segment.matched = false → ¬ toLowerCase query <:+: toLowerCase segment.text) := by
    rcases hcases with ⟨-, hsplits⟩ | ⟨-, rfl⟩
    · exact hsplits.marks hq hkeeps .start
    · simp [not_infix_toLowerCase_nil hq]
  exact ⟨segments, hsegments, htext, fun s hs => (hmarks s hs).1, fun s hs => (hmarks s hs).2,
    hselected⟩

/-- Lower case that replaces unit by unit, as it does in ASCII, keeps all positions. -/
lemma keepsBorders_of_map {f : UInt16 → UInt16} (hf : ∀ s, s ⊆ fqn → toLowerCase s = s.map f) :
    KeepsBorders fqn query := by
  constructor
  · intro i j _ _
    rw [part, part, hf _ (List.Subset.trans (List.drop_subset _ _) (List.take_subset _ _)),
      hf fqn (List.Subset.refl _), List.map_drop, List.map_take]
  · intro i _
    rw [hf _ (List.drop_subset _ _), hf fqn (List.Subset.refl _), List.map_drop]

end positions

/-! ### A name whose lower case is longer -/

/-- The lower case of A to Z and of the dotted capital I, which becomes two units. -/
def lowerUnit (c : UInt16) : List UInt16 :=
  if c = 0x130 then [0x69, 0x307] else if 0x41 ≤ c ∧ c ≤ 0x5A then [c + 32] else [c]

lemma lowerUnit_ne_nil (c : UInt16) : lowerUnit c ≠ [] := by
  rw [lowerUnit]
  split_ifs <;> simp

/-- The lower case of strings in which no other capital letters occur. -/
@[reducible] def dotted : JsString where
  toLowerCase s := s.flatMap lowerUnit
  toLowerCase_eq_nil_iff s := by
    rw [List.flatMap_eq_nil_iff, List.eq_nil_iff_forall_not_mem]
    exact forall_congr' fun c => imp_congr_right fun _ => iff_of_false (lowerUnit_ne_nil c) id

/-- "İa" is found by "a", but what is marked is the empty text behind it. -/
theorem not_faithful :
    ¬ ∀ fqn query : List UInt16, query ≠ [] → @Faithful dotted fqn query := by
  intro h
  obtain ⟨segments, hsegments, hmarks⟩ := h [0x130, 0x61] [0x61] (by decide)
  have heval : @highlightFqn dotted [0x130, 0x61] [0x61] =
      some [⟨[0x130, 0x61], false⟩, ⟨[], true⟩] := by decide
  obtain rfl := Option.some.inj (heval.symm.trans hsegments)
  have hempty := @Marks.matched dotted _ _ _ hmarks ⟨[], true⟩ (by simp) rfl
  revert hempty
  decide

/-- The marks are right in ASCII, "b" in "aBc", and where what lower case makes longer is behind
all borders, "b" in "Baİ". -/
theorem faithful_of_keepsBorders_ascii :
    @Faithful dotted [0x61, 0x42, 0x63] [0x62] ∧ @Faithful dotted [0x42, 0x61, 0x130] [0x62] := by
  constructor
  · refine @faithful_of_keepsBorders dotted _ _ (by decide)
      (@keepsBorders_of_map dotted _ _ (fun c => if c = 0x42 then 0x62 else c) fun s hs => ?_)
    rw [List.map_eq_flatMap]
    refine List.flatMap_congr fun c hc => ?_
    obtain rfl | rfl | rfl : c = 0x61 ∨ c = 0x42 ∨ c = 0x63 := by simpa using hs hc
    · rfl
    · rfl
    · rfl
  · have hoccurs : ∀ k, @Occurs dotted [0x42, 0x61, 0x130] [0x62] k → k = 0 := by
      intro k hk
      have hfqn : @toLowerCase dotted [0x42, 0x61, 0x130] = [0x62, 0x61, 0x69, 0x307] := by decide
      have hquery : @toLowerCase dotted [0x62] = [0x62] := by decide
      rw [@Occurs.eq_def dotted, hfqn, hquery] at hk
      have hall : ∀ k < 4, ([0x62] : List UInt16) <+: [0x62, 0x61, 0x69, 0x307].drop k → k = 0 := by
        decide
      exact hall k (lt_length_of_occurs (by decide) hk) hk
    have hborder : ∀ i, @Border dotted [0x42, 0x61, 0x130] [0x62] i → i = 0 ∨ i = 1 := by
      intro i hi
      cases hi with
      | start => exact .inl rfl
      | before hk => exact .inl (hoccurs _ hk)
      | behind hk => exact .inr (by rw [hoccurs _ hk]; rfl)
    refine @faithful_of_keepsBorders dotted _ _ (by decide)
      (@KeepsBorders.mk dotted _ _ (fun i j hi hj => ?_) fun i hi => ?_)
    · rcases hborder i hi with rfl | rfl <;> rcases hborder j hj with rfl | rfl <;> decide
    · rcases hborder i hi with rfl | rfl <;> decide

end Search

end PhpTreeViz
