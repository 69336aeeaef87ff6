import PhpTreeViz.Core.Lines
import PhpTreeViz.Core.Urlencoded

/-!
# Paths and queries in a URL

What a browser makes of a link that is a path from the root of its host. It strips the spaces around
the link and the line breaks in it, takes backslashes for slashes, encodes what may not stand in a
path or a query, and resolves the dots. The path and the query of a location are in that form, so
that a location that is written out as a link is found again.
-/

namespace Core

/-! ### Locations -/

/-- What may stand in a part of a path -/
def segmentSafe : List UInt8 := alphanumerics ++ bytes "!$%&'()*+,-.:;=@[]_|~"

/-- What may stand in the query of a page -/
def querySafe : List UInt8 := alphanumerics ++ bytes "!$%&()*+,-./:;=?@[\\]^_`\x7b|\x7d~"

/-- A part that stands for the directory it is in -/
def IsSingleDot (s : List UInt8) : Prop :=
  s.map toAsciiLowercase ∈ [bytes ".", bytes "%2e"]

/-- A part that stands for the directory above -/
def IsDoubleDot (s : List UInt8) : Prop :=
  s.map toAsciiLowercase ∈ [bytes "..", bytes ".%2e", bytes "%2e.", bytes "%2e%2e"]

instance (s : List UInt8) : Decidable (IsSingleDot s) := inferInstanceAs (Decidable (_ ∈ _))

instance (s : List UInt8) : Decidable (IsDoubleDot s) := inferInstanceAs (Decidable (_ ∈ _))

/-- A part of a path that is written as it is -/
structure IsSegment (s : List UInt8) : Prop where
  safe : ∀ b ∈ s, b ∈ segmentSafe
  single : ¬ IsSingleDot s
  double : ¬ IsDoubleDot s

instance (s : List UInt8) : Decidable (IsSegment s) :=
  decidable_of_iff ((∀ b ∈ s, b ∈ segmentSafe) ∧ ¬ IsSingleDot s ∧ ¬ IsDoubleDot s)
    ⟨fun h => ⟨h.1, h.2.1, h.2.2⟩, fun h => ⟨h.safe, h.single, h.double⟩⟩

/-- The path and the query of a page on its host -/
@[ext] structure Location where
  segments : List (List UInt8)
  query : List UInt8
  ne_nil : segments ≠ []
  isSegment : ∀ s ∈ segments, IsSegment s
  querySafe : ∀ b ∈ query, b ∈ querySafe

instance : DecidableEq Location := fun _ _ => decidable_of_iff _ Location.ext_iff.symm

namespace Location

/-- `location.pathname` -/
def pathname (l : Location) : List UInt8 := l.segments.flatMap (47 :: ·)

/-- `location.search` -/
def search (l : Location) : List UInt8 := if l.query = [] then [] else 63 :: l.query

/-- The link to a location -/
def href (l : Location) : List UInt8 := l.pathname ++ l.search

/-! ### Links -/

/-- Spaces and control characters around a link and line breaks in it do not count. -/
def clean (s : List UInt8) : List UInt8 :=
  (trim ((List.range 33).map UInt8.ofNat) s).filter (· ∉ [9, 10, 13])

/-- The parts after `out`, without the dots. The last one leaves a slash at the end. -/
def resolveDots (out : List (List UInt8)) : List (List UInt8) → List (List UInt8)
  | []        => out
  | s :: rest =>
    if IsDoubleDot s then resolveDots (out.dropLast ++ if rest = [] then [[]] else []) rest
    else if IsSingleDot s then resolveDots (out ++ if rest = [] then [[]] else []) rest
    else resolveDots (out ++ [s]) rest

/-- The parts of a path after its first slash -/
def pathSegments (path : List UInt8) : List (List UInt8) :=
  resolveDots [] ((path.splitOn 47).map (percentEncode segmentSafe))

section dots

variable {out parts : List (List UInt8)} {s : List UInt8}

lemma isSegment_nil : IsSegment [] := ⟨by simp, by decide, by decide⟩

lemma resolveDots_ne_nil (h : parts ≠ []) : resolveDots out parts ≠ [] := by
  induction parts generalizing out with
  | nil => exact absurd rfl h
  | cons s rest ih =>
    rcases eq_or_ne rest [] with rfl | hrest
    · simp only [resolveDots, if_true]
      split_ifs <;> simp
    · rw [resolveDots]
      split_ifs
      · exact ih hrest
      · exact ih hrest
      · exact ih hrest

lemma isSegment_resolveDots (hout : ∀ s ∈ out, IsSegment s)
    (hparts : ∀ s ∈ parts, ∀ b ∈ s, b ∈ segmentSafe) :
    ∀ s ∈ resolveDots out parts, IsSegment s := by
  induction parts generalizing out with
  | nil => exact hout
  | cons s rest ih =>
    rw [List.forall_mem_cons] at hparts
    have hlast : ∀ s ∈ (if rest = [] then [[]] else [] : List (List UInt8)), IsSegment s := by
      split_ifs
      · exact List.forall_mem_singleton.mpr isSegment_nil
      · exact List.forall_mem_nil _
    by_cases hdouble : IsDoubleDot s
    · rw [resolveDots, if_pos hdouble]
      refine ih (List.forall_mem_append.mpr ⟨fun s hs => ?_, hlast⟩) hparts.2
      exact hout s (List.dropLast_subset out hs)
    · by_cases hsingle : IsSingleDot s
      · rw [resolveDots, if_neg hdouble, if_pos hsingle]
        exact ih (List.forall_mem_append.mpr ⟨hout, hlast⟩) hparts.2
      · rw [resolveDots, if_neg hdouble, if_neg hsingle]
        have hsegment : IsSegment s := ⟨hparts.1, hsingle, hdouble⟩
        refine ih (List.forall_mem_append.mpr ⟨hout, ?_⟩) hparts.2
        exact List.forall_mem_singleton.mpr hsegment

/-- There are no dots to resolve. -/
lemma resolveDots_of_isSegment (h : ∀ s ∈ parts, IsSegment s) :
    resolveDots out parts = out ++ parts := by
  induction parts generalizing out with
  | nil => rw [resolveDots, List.append_nil]
  | cons s rest ih =>
    rw [List.forall_mem_cons] at h
    rw [resolveDots, if_neg h.1.double, if_neg h.1.single, ih h.2, List.append_assoc]
    rfl

lemma isSegment_pathSegments (path : List UInt8) : ∀ s ∈ pathSegments path, IsSegment s := by
  refine isSegment_resolveDots (List.forall_mem_nil _) fun s hs => ?_
  obtain ⟨part, -, rfl⟩ := List.mem_map.mp hs
  exact forall_mem_percentEncode (by decide) part

lemma pathSegments_ne_nil (path : List UInt8) : pathSegments path ≠ [] :=
  resolveDots_ne_nil (by simp)

end dots

/-- The location that a link leads to, if it is a path from the root and not another host. Nothing
is kept of a fragment. -/
def parse (s : List UInt8) : Option Location :=
  let link := (clean s).takeWhile (· ≠ 35)
  let path := (link.takeWhile (· ≠ 63)).map fun b => if b = 92 then 47 else b
  if path.head? = some 47 ∧ path.tail.head? ≠ some 47 then
    some {
      segments := pathSegments path.tail
      query := percentEncode Core.querySafe (link.dropWhile (· ≠ 63)).tail
      ne_nil := pathSegments_ne_nil path.tail
      isSegment := isSegment_pathSegments path.tail
      querySafe := forall_mem_percentEncode (by decide) _ }
  else none

/-! ### Locations as links -/

/-- A byte that is not stripped and does not begin a fragment -/
def IsPlain (b : UInt8) : Prop := 32 < b ∧ b ≠ 35

instance (b : UInt8) : Decidable (IsPlain b) := inferInstanceAs (Decidable (_ ∧ _))

/-- The page with another query -/
def withQuery (l : Location) (query : List UInt8) : Location where
  segments := l.segments
  query := percentEncode Core.querySafe query
  ne_nil := l.ne_nil
  isSegment := l.isSegment
  querySafe := forall_mem_percentEncode (by decide) query

@[simp] lemma withQuery_pathname (l : Location) (query : List UInt8) :
    (l.withQuery query).pathname = l.pathname := rfl

@[simp] lemma withQuery_query (l : Location) (query : List UInt8) :
    (l.withQuery query).query = percentEncode Core.querySafe query := rfl

section links

variable {l : Location} {s rest : List UInt8} {b : UInt8}

lemma IsPlain.notMem (h : IsPlain b) : b ∉ (List.range 33).map UInt8.ofNat :=
  (forall_byte (by decide +kernel) :
    ∀ b, IsPlain b → b ∉ (List.range 33).map UInt8.ofNat) b h

lemma clean_of_isPlain (h : ∀ b ∈ s, IsPlain b) : clean s = s := by
  rw [clean, trim_eq_self fun b hb => (h b hb).notMem, List.filter_eq_self]
  intro b hb
  have hnot : ∀ b, IsPlain b → b ∉ [9, 10, 13] := forall_byte (by decide +kernel)
  exact decide_eq_true (hnot b (h b hb))

lemma mem_pathname (h : b ∈ l.pathname) : b ∈ 47 :: segmentSafe := by
  obtain ⟨s, hs, hb⟩ := List.mem_flatMap.mp h
  rcases List.mem_cons.mp hb with rfl | hb
  · exact List.mem_cons_self
  · exact List.mem_cons_of_mem 47 ((l.isSegment s hs).safe b hb)

lemma pathname_eq (l : Location) : l.pathname = 47 :: [47].intercalate l.segments := by
  obtain ⟨s, segments, hsegments⟩ := List.exists_cons_of_ne_nil l.ne_nil
  rw [pathname, hsegments, intercalate_cons_eq, List.flatMap_cons, List.cons_append]

lemma pathSegments_pathname (l : Location) : pathSegments l.pathname.tail = l.segments := by
  have hslash : ∀ s ∈ l.segments, 47 ∉ s := fun s hs hmem =>
    absurd ((l.isSegment s hs).safe 47 hmem) (by decide)
  have hencode : l.segments.map (percentEncode segmentSafe) = l.segments := by
    conv_rhs => rw [← List.map_id l.segments]
    exact List.map_congr_left fun s hs => percentEncode_of_forall (l.isSegment s hs).safe
  rw [pathname_eq, List.tail_cons, pathSegments, splitOn_intercalate l.ne_nil hslash, hencode,
    resolveDots_of_isSegment l.isSegment, List.nil_append]

lemma mem_pathname_plain (h : b ∈ l.pathname) : IsPlain b ∧ b ≠ 63 ∧ b ≠ 92 :=
  (by decide : ∀ b ∈ 47 :: segmentSafe, IsPlain b ∧ b ≠ 63 ∧ b ≠ 92) b (mem_pathname h)

/-- A path whose first part is empty would look like the name of a host. -/
lemma head_tail_pathname (hfirst : l.segments.head l.ne_nil ≠ []) :
    l.pathname.tail.head? ≠ some 47 := by
  obtain ⟨s, segments, hsegments⟩ := List.exists_cons_of_ne_nil l.ne_nil
  simp only [hsegments, List.head_cons] at hfirst
  obtain ⟨b, s, rfl⟩ := List.exists_cons_of_ne_nil hfirst
  have hmem := (l.isSegment (b :: s) (hsegments ▸ List.mem_cons_self)).safe b List.mem_cons_self
  rw [pathname_eq, List.tail_cons, hsegments, intercalate_cons_eq, List.cons_append,
    List.head?_cons]
  intro heq
  rw [Option.some.inj heq] at hmem
  exact absurd hmem (by decide)

/-- The path of a location is found again, with any query. -/
theorem parse_append (hfirst : l.segments.head l.ne_nil ≠ [])
    (hrest : rest.head? = some 63 ∨ rest = []) (hplain : ∀ b ∈ rest, IsPlain b) :
    parse (l.pathname ++ rest) = some (l.withQuery rest.tail) := by
  have hlink : ∀ b ∈ l.pathname ++ rest, IsPlain b :=
    List.forall_mem_append.mpr ⟨fun b hb => (mem_pathname_plain hb).1, hplain⟩
  have hfragment : (l.pathname ++ rest).takeWhile (· ≠ 35) = l.pathname ++ rest :=
    List.takeWhile_eq_self_iff.mpr fun b hb => decide_eq_true (hlink b hb).2
  have hquestion : 63 ∉ l.pathname := fun hmem => (mem_pathname_plain hmem).2.1 rfl
  have hslash : l.pathname.map (fun b => if b = 92 then 47 else b) = l.pathname :=
    map_of_notMem fun hmem => (mem_pathname_plain hmem).2.2 rfl
  simp only [parse, clean_of_isPlain hlink, hfragment, takeWhile_ne_append hquestion hrest,
    dropWhile_ne_append hquestion hrest, hslash]
  rw [if_pos ⟨by rw [pathname_eq, List.head?_cons], head_tail_pathname hfirst⟩]
  exact congrArg some (Location.ext (pathSegments_pathname l) rfl)

/-- A location that is written out as a link is found again. -/
theorem parse_href (hfirst : l.segments.head l.ne_nil ≠ []) : parse l.href = some l := by
  have hquery : l.withQuery l.query = l :=
    Location.ext rfl (percentEncode_of_forall l.querySafe)
  have hsafe : ∀ b ∈ 63 :: Core.querySafe, IsPlain b := by decide
  by_cases hnil : l.query = []
  · rw [href, search, if_pos hnil, parse_append hfirst (.inr rfl) (List.forall_mem_nil _),
      List.tail_nil, ← hnil, hquery]
  · have hplain : ∀ b ∈ 63 :: l.query, IsPlain b := fun b hb =>
      hsafe b (List.cons_subset_cons 63 l.querySafe hb)
    rw [href, search, if_neg hnil, parse_append hfirst (.inl rfl) hplain, List.tail_cons, hquery]

/-- A slash and then a byte of a path lead to a page on the same host, whatever follows. -/
theorem isSome_parse (hb : b ∈ segmentSafe) (rest : List UInt8) :
    (parse (47 :: b :: rest)).isSome := by
  have hsafe : ∀ b ∈ 47 :: segmentSafe, b ∉ (List.range 33).map UInt8.ofNat ∧
      b ∉ [9, 10, 13] ∧ b ≠ 35 ∧ b ≠ 63 := by decide
  have hne : ∀ b ∈ segmentSafe, b ≠ 92 ∧ b ≠ 47 := by decide
  obtain ⟨htrim, hbreak, hfragment, hquestion⟩ := hsafe b (List.mem_cons_of_mem 47 hb)
  have hclean : ∃ rest', clean (47 :: b :: rest) = 47 :: b :: rest' := by
    have hedge := @trim_append_cons _ [] (b :: rest) 47 (List.forall_mem_nil _)
      (hsafe 47 List.mem_cons_self).1
    have hinner := @rdropWhile_append_cons _ [47] rest b htrim
    rw [List.nil_append] at hedge
    rw [List.singleton_append, List.singleton_append] at hinner
    rw [clean, hedge, hinner, List.filter_cons_of_pos (by decide),
      List.filter_cons_of_pos (by simpa using hbreak)]
    exact ⟨_, rfl⟩
  obtain ⟨rest', hclean⟩ := hclean
  have htake : ∀ c : UInt8, 47 ≠ c → b ≠ c → ∀ s : List UInt8,
      (47 :: b :: s).takeWhile (· ≠ c) = 47 :: b :: s.takeWhile (· ≠ c) := by
    intro c hc hbc s
    rw [List.takeWhile_cons_of_pos (by simpa using hc),
      List.takeWhile_cons_of_pos (by simpa using hbc)]
  simp only [parse, hclean, htake 35 (by decide) hfragment, htake 63 (by decide) hquestion,
    List.map_cons, if_neg (hne b hb).1]
  rw [if_pos ⟨rfl, fun heq => (hne b hb).2 (Option.some.inj heq)⟩]
  rfl

end links

end Location

end Core
