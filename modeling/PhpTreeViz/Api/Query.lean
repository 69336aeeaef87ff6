import Mathlib.Data.List.DropRight
import PhpTreeViz.Api.Tree
import PhpTreeViz.Core.Bytes
import PhpTreeViz.Core.Decimal
import PhpTreeViz.Core.Regex
import PhpTreeViz.Core.Urlencoded

/-!
# Query strings and trace keys

The validators of what a request brings along: the parameters of the list, tree and children
endpoints, and the trace key that names a file. Each matches a pattern against a byte string and
converts it to an integer.
-/

namespace PhpTreeViz

open Core

/-! ### Patterns -/

/-- `preg_match('/^R$/', s)` -/
def pregMatch (R : RegularExpression UInt8) (s : List UInt8) : Bool := matchLine 10 R s

/-- `[0-9]` -/
def digit : RegularExpression UInt8 := oneOf (bytes "0123456789")

/-- `[1-9]` -/
def nonzeroDigit : RegularExpression UInt8 := oneOf (bytes "123456789")

/-- `[0-9a-f]` -/
def hexDigit : RegularExpression UInt8 := oneOf (bytes "0123456789abcdef")

/-! ### Parameters -/

/-- A value in `$_GET`: a string, or an array where the name is written with brackets. The parsers
also take integers. -/
inductive QueryValue where
  | string (s : List UInt8)
  | int (n : Int64)
  | array
  deriving DecidableEq

/-- `$_GET` -/
def Query := String → Option QueryValue

/-- `$_GET`, for names without brackets, dots and spaces. The last pair with the name counts. -/
def phpGet (s : List UInt8) : Query := fun name =>
  ((formParse s).reverse.find? (·.1 = bytes name)).map (.string ·.2)

/-- What `json_error` sends. -/
structure JsonError where
  status : ℕ
  code : String
  deriving DecidableEq

def badRequest : JsonError := ⟨400, "bad_request"⟩

/-- How a parameter is checked: the pattern `/^…$/` that it has to match, and the range of its
value, unless there is no check of the range. -/
structure IntParam where
  pattern : RegularExpression UInt8
  range : Option (ℤ × ℤ)

namespace IntParam

def OutOfRange (p : IntParam) (n : ℤ) : Prop := ∃ r ∈ p.range, n < r.1 ∨ r.2 < n

instance (p : IntParam) (n : ℤ) : Decidable (p.OutOfRange n) :=
  inferInstanceAs (Decidable (∃ r ∈ p.range, _))

def parseString (p : IntParam) (s : List UInt8) : Except JsonError ℤ :=
  if !pregMatch p.pattern s then .error badRequest
  else if p.OutOfRange (leadingInt s) then .error badRequest
  else .ok (leadingInt s)

def parse (p : IntParam) : QueryValue → Except JsonError ℤ
  | .string s => p.parseString s
  | .int n    => p.parseString (bytes (toString n.toInt))
  | .array    => .error badRequest

/-- A parameter that may be left out. -/
def parseIfSet (p : IntParam) : Option QueryValue → Except JsonError (Option ℤ)
  | none   => .ok none
  | some v => (p.parse v).map some

end IntParam

/-- The `limit` of the list. -/
def tracesLimit : IntParam := ⟨digit * digit.star, some (1, 500)⟩

/-- The `offset` of the list. -/
def tracesOffset : IntParam := ⟨digit * digit.star, none⟩

/-- The `depth` of the tree. -/
def treeDepth : IntParam := ⟨nonzeroDigit * digit.star, some (1, 4)⟩

/-- The `limit` of the children. -/
def childrenLimit : IntParam := ⟨nonzeroDigit * digit.star, some (1, 1000)⟩

/-- The `offset` of the children. -/
def childrenOffset : IntParam := ⟨RegularExpression.char 48 + nonzeroDigit * digit.star, none⟩

/-- A parameter that has to be a string. -/
def stringParam (v : QueryValue) : Except JsonError (List UInt8) :=
  match v with
  | .string s => .ok s
  | _         => .error badRequest

structure TracesQuery where
  q : List UInt8
  limit : ℤ
  offset : ℤ
  sort : List UInt8
  deriving DecidableEq

def parseTracesQuery (query : Query) : Except JsonError TracesQuery := do
  let q ← stringParam ((query "q").getD (.string []))
  let limit ← tracesLimit.parse ((query "limit").getD (.string (bytes "100")))
  let offset ← tracesOffset.parse ((query "offset").getD (.string (bytes "0")))
  let sort ← stringParam ((query "sort").getD (.string (bytes "start_time_desc")))
  if sort ≠ bytes "start_time_desc" then throw badRequest
  return { q, limit, offset, sort }

/-- The keys of `PHPTV_SORT_CLAUSES`. -/
def SortKey.name : SortKey → String
  | .totalWallDesc => "total_wall_desc"
  | .selfWallDesc  => "self_wall_desc"
  | .countDesc     => "count_desc"
  | .memDeltaDesc  => "mem_delta_desc"
  | .fqnAsc        => "fqn_asc"

/-- `isset(PHPTV_SORT_CLAUSES[$sort])` -/
def sortParam (v : QueryValue) : Except JsonError SortKey := do
  let sort ← stringParam v
  match [SortKey.totalWallDesc, .selfWallDesc, .countDesc, .memDeltaDesc, .fqnAsc].find?
      (bytes ·.name = sort) with
  | some key => return key
  | none     => throw badRequest

def parseTreeQuery (query : Query) : Except JsonError (ℤ × SortKey) := do
  let depth ← treeDepth.parse ((query "depth").getD (.string (bytes "2")))
  let sort ← sortParam ((query "sort").getD (.string (bytes "total_wall_desc")))
  return (depth, sort)

def parseChildrenQuery (query : Query) : Except JsonError (SortKey × Option ℤ × ℤ) := do
  let sort ← sortParam ((query "sort").getD (.string (bytes "total_wall_desc")))
  let limit ← childrenLimit.parseIfSet (query "limit")
  let offset ← childrenOffset.parseIfSet (query "offset")
  return (sort, limit, offset.getD 0)

/-! ### Trace keys -/

def isValidTraceKey (candidate : List UInt8) : Bool := pregMatch (hexDigit ^ 32) candidate

/-- `rtrim($dataDir, '/')` -/
def rtrimSlash (path : List UInt8) : List UInt8 := path.rdropWhile (· = 47)

/-- The path that `open_trace_db_ro` opens, or the message of its `InvalidTraceKey`. -/
def openTraceDbRo (dataDir traceKey : List UInt8) : Except String (List UInt8) :=
  if !isValidTraceKey traceKey then .error "trace_key must be 32 lowercase hex characters"
  else .ok (rtrimSlash dataDir ++ bytes "/traces/" ++ traceKey ++ bytes ".sqlite")

/-! ### What the validators are for -/

/-- 32 characters from `[0-9a-f]`. -/
def IsTraceKey (s : List UInt8) : Prop :=
  s.length = 32 ∧ ∀ b ∈ s, b ∈ bytes "0123456789abcdef"

/-- Digits only, and `0` only where the numeral is `0` unless `leadingZeros` are allowed. -/
structure IsNumeral (leadingZeros : Bool) (s : List UInt8) : Prop where
  ne_nil : s ≠ []
  digits : ∀ b ∈ s, IsDigit b
  zeros : leadingZeros = false → s.head? = some 48 → s = [48]

/-- The documented form of a parameter, `high` being its bound if it has one. -/
structure Grammar where
  leadingZeros : Bool
  low : ℕ
  high : Option ℕ

/-- `s` is a numeral for `n`, and `n` lies in the documented range. -/
structure Grammar.Accepts (g : Grammar) (s : List UInt8) (n : ℤ) : Prop where
  numeral : IsNumeral g.leadingZeros s
  value : n = decimal s
  low : g.low ≤ decimal s
  high : ∀ hi ∈ g.high, decimal s ≤ hi

/-- A parameter has the pattern and the range check that its grammar asks for. -/
structure IntParam.Checks (p : IntParam) (g : Grammar) : Prop where
  numeral : ∀ s, p.pattern.rmatch s → IsNumeral g.leadingZeros s
  pattern : ∀ s, IsNumeral g.leadingZeros s → g.low ≤ decimal s → p.pattern.rmatch s
  range : p.range = g.high.map fun hi : ℕ => ((g.low : ℤ), (hi : ℤ))
  low : g.high = none → g.low = 0
  high : ∀ hi ∈ g.high, (hi : ℤ) < 2 ^ 63 - 1

/-! ### Patterns of numerals -/

section patterns

variable {s : List UInt8}

lemma digits_rmatch_iff : (digit * digit.star).rmatch s ↔ IsNumeral true s := by
  rw [digit, oneOf_mul_rmatch_iff]
  simp only [star_oneOf_rmatch_iff]
  constructor
  · rintro ⟨d, hd, ds, rfl, hds⟩
    exact ⟨List.cons_ne_nil _ _, List.forall_mem_cons.mpr ⟨hd, hds⟩, by simp⟩
  · rintro ⟨hne, hdigits, -⟩
    obtain ⟨d, ds, rfl⟩ := List.exists_cons_of_ne_nil hne
    obtain ⟨hd, hds⟩ := List.forall_mem_cons.mp hdigits
    exact ⟨d, hd, ds, rfl, hds⟩

lemma mem_nonzeroDigits {b : UInt8} : b ∈ bytes "123456789" ↔ IsDigit b ∧ b ≠ 48 := by
  show b ∈ [49, 50, 51, 52, 53, 54, 55, 56, 57] ↔
    b ∈ [48, 49, 50, 51, 52, 53, 54, 55, 56, 57] ∧ b ≠ 48
  simp only [List.mem_cons, List.not_mem_nil, or_false]
  grind

lemma nonzeroDigits_rmatch_iff :
    (nonzeroDigit * digit.star).rmatch s ↔ IsNumeral false s ∧ s ≠ [48] := by
  rw [nonzeroDigit, oneOf_mul_rmatch_iff]
  simp only [digit, star_oneOf_rmatch_iff, mem_nonzeroDigits]
  constructor
  · rintro ⟨d, ⟨hd, hne⟩, ds, rfl, hds⟩
    refine ⟨⟨List.cons_ne_nil _ _, List.forall_mem_cons.mpr ⟨hd, hds⟩, fun _ hzero => ?_⟩, ?_⟩
    · exact absurd (Option.some.inj hzero) hne
    · exact fun h => hne (List.cons.inj h).1
  · rintro ⟨⟨hne, hdigits, hzeros⟩, hzero⟩
    obtain ⟨d, ds, rfl⟩ := List.exists_cons_of_ne_nil hne
    obtain ⟨hd, hds⟩ := List.forall_mem_cons.mp hdigits
    refine ⟨d, ⟨hd, ?_⟩, ds, rfl, hds⟩
    rintro rfl
    exact hzero (hzeros rfl rfl)

lemma ne_zero_of_pos {g : Grammar} (hg : 0 < g.low) (hlow : g.low ≤ decimal s) : s ≠ [48] := by
  rintro rfl
  exact absurd (hg.trans_le hlow) (by decide)

end patterns

/-! ### Which strings the validators accept -/

lemma isValidTraceKey_iff {s : List UInt8} : isValidTraceKey s ↔
    IsTraceKey s ∨ ∃ w, s = w ++ [10] ∧ IsTraceKey w := by
  simp only [isValidTraceKey, pregMatch, matchLine_iff, hexDigit, oneOf_pow_rmatch_iff, IsTraceKey]

namespace IntParam

variable {p : IntParam} {g : Grammar} {s w : List UInt8} {n : ℤ}

lemma leadingInt_of_numeral {leadingZeros : Bool} (h : IsNumeral leadingZeros w)
    (hs : s = w ∨ s = w ++ [10]) : leadingInt s = min (2 ^ 63 - 1) (decimal w : ℤ) := by
  rcases hs with rfl | rfl
  · exact leadingInt_digits h.ne_nil h.digits
  · apply leadingInt_append h.ne_nil h.digits
    rintro b ⟨⟩
    decide

/-- A string that is let through is a numeral or a numeral and a newline, and becomes the number
that it denotes, or the largest 64-bit integer. -/
lemma parseString_eq_ok_iff (h : p.Checks g) : p.parseString s = .ok n ↔
    ∃ w, (s = w ∨ s = w ++ [10]) ∧ p.pattern.rmatch w ∧
      ¬ p.OutOfRange (min (2 ^ 63 - 1) (decimal w)) ∧ n = min (2 ^ 63 - 1) (decimal w : ℤ) := by
  have hmatch : pregMatch p.pattern s ↔
      ∃ w, (s = w ∨ s = w ++ [10]) ∧ p.pattern.rmatch w := by
    rw [pregMatch, matchLine_iff]
    constructor
    · rintro (hs | ⟨w, hs, hw⟩)
      · exact ⟨s, Or.inl rfl, hs⟩
      · exact ⟨w, Or.inr hs, hw⟩
    · rintro ⟨w, rfl | hs, hw⟩
      · exact Or.inl hw
      · exact Or.inr ⟨w, hs, hw⟩
  have hok : p.parseString s = .ok n ↔
      pregMatch p.pattern s ∧ ¬ p.OutOfRange (leadingInt s) ∧ n = leadingInt s := by
    rw [parseString]
    split_ifs with hpattern hrange
    · exact iff_of_false (by simp) fun h => by simp [h.1] at hpattern
    · exact iff_of_false (by simp) fun h => h.2.1 hrange
    · rw [Bool.not_eq_true', Bool.not_eq_false] at hpattern
      rw [Except.ok.injEq, eq_comm]
      exact ⟨fun hn => ⟨hpattern, hrange, hn⟩, fun h => h.2.2⟩
  rw [hok, hmatch]
  constructor
  · rintro ⟨⟨w, hs, hw⟩, hrange, hn⟩
    rw [leadingInt_of_numeral (h.numeral w hw) hs] at hrange hn
    exact ⟨w, hs, hw, hrange, hn⟩
  · rintro ⟨w, hs, hw, hrange, hn⟩
    rw [← leadingInt_of_numeral (h.numeral w hw) hs] at hrange hn
    exact ⟨⟨w, hs, hw⟩, hrange, hn⟩

namespace Checks

variable (h : p.Checks g)
include h

/-- The range check of the 64-bit value is that of the number. -/
lemma not_outOfRange_iff : ¬ p.OutOfRange (min (2 ^ 63 - 1) (decimal w)) ↔
    g.low ≤ decimal w ∧ ∀ hi ∈ g.high, decimal w ≤ hi := by
  rw [OutOfRange, h.range]
  cases hg : g.high with
  | none => simp [h.low hg]
  | some hi =>
    have hhi := h.high hi hg
    simp only [Option.map_some, Option.mem_some_iff, exists_eq_left', forall_eq']
    omega

/-- A number in the documented range is its own 64-bit value, if numbers that have no bound fit. -/
lemma min_eq_decimal (hhigh : ∀ hi ∈ g.high, decimal w ≤ hi)
    (hfits : g.high = none → decimal w < 2 ^ 63) :
    min (2 ^ 63 - 1) (decimal w : ℤ) = decimal w := by
  cases hg : g.high with
  | none =>
    have := hfits hg
    omega
  | some hi =>
    have hle := hhigh hi hg
    have := h.high hi hg
    omega

/-- The parser does what is documented unless the string ends in a newline, or it has no bound and
the number does not fit. -/
theorem parse_iff : (∀ n, p.parse (.string s) = .ok n ↔ g.Accepts s n) ↔
    (¬ ∃ w n, s = w ++ [10] ∧ g.Accepts w n) ∧
    (g.high = none → IsNumeral g.leadingZeros s → decimal s < 2 ^ 63) := by
  simp only [parse, parseString_eq_ok_iff h, h.not_outOfRange_iff]
  constructor
  · intro hall
    constructor
    · rintro ⟨w, n, rfl, hw⟩
      have haccepts := (hall _).mp
        ⟨w, Or.inr rfl, h.pattern w hw.numeral hw.low, ⟨hw.low, hw.high⟩, rfl⟩
      exact absurd (haccepts.numeral.digits 10 (by simp)) (by decide)
    · intro hnone hs
      have hlow : g.low ≤ decimal s := by simp [h.low hnone]
      have haccepts := (hall _).mp
        ⟨s, Or.inl rfl, h.pattern s hs hlow, ⟨hlow, by simp [hnone]⟩, rfl⟩
      have := haccepts.value
      omega
  · rintro ⟨hnewline, hfits⟩ n
    constructor
    · rintro ⟨w, rfl | rfl, hw, ⟨hlow, hhigh⟩, rfl⟩
      · have hnum := h.numeral s hw
        exact ⟨hnum, h.min_eq_decimal hhigh fun hg => hfits hg hnum, hlow, hhigh⟩
      · exact absurd ⟨w, _, rfl, h.numeral w hw, rfl, hlow, hhigh⟩ hnewline
    · rintro ⟨hnum, rfl, hlow, hhigh⟩
      refine ⟨s, Or.inl rfl, h.pattern s hnum hlow, ⟨hlow, hhigh⟩, ?_⟩
      exact (h.min_eq_decimal hhigh fun hg => hfits hg hnum).symm

end Checks

end IntParam

/-! ### The six validators -/

lemma checks_tracesLimit : tracesLimit.Checks ⟨true, 1, some 500⟩ where
  numeral _ := digits_rmatch_iff.mp
  pattern _ hs _ := digits_rmatch_iff.mpr hs
  range := rfl
  low := by simp
  high := by simp

lemma checks_tracesOffset : tracesOffset.Checks ⟨true, 0, none⟩ where
  numeral _ := digits_rmatch_iff.mp
  pattern _ hs _ := digits_rmatch_iff.mpr hs
  range := rfl
  low _ := rfl
  high := by simp

lemma checks_treeDepth : treeDepth.Checks ⟨false, 1, some 4⟩ where
  numeral _ hs := (nonzeroDigits_rmatch_iff.mp hs).1
  pattern _ hs hlow := nonzeroDigits_rmatch_iff.mpr ⟨hs, ne_zero_of_pos Nat.one_pos hlow⟩
  range := rfl
  low := by simp
  high := by simp

lemma checks_childrenLimit : childrenLimit.Checks ⟨false, 1, some 1000⟩ where
  numeral _ hs := (nonzeroDigits_rmatch_iff.mp hs).1
  pattern _ hs hlow := nonzeroDigits_rmatch_iff.mpr ⟨hs, ne_zero_of_pos Nat.one_pos hlow⟩
  range := rfl
  low := by simp
  high := by simp

lemma checks_childrenOffset : childrenOffset.Checks ⟨false, 0, none⟩ where
  numeral s hs := by
    rcases (RegularExpression.add_rmatch_iff _ _ _).mp hs with hs | hs
    · obtain rfl := (RegularExpression.char_rmatch_iff _ _).mp hs
      exact ⟨by decide, by decide, by simp⟩
    · exact (nonzeroDigits_rmatch_iff.mp hs).1
  pattern s hs _ := by
    refine (RegularExpression.add_rmatch_iff _ _ _).mpr ?_
    by_cases hzero : s = [48]
    · exact Or.inl ((RegularExpression.char_rmatch_iff _ _).mpr hzero)
    · exact Or.inr (nonzeroDigits_rmatch_iff.mpr ⟨hs, hzero⟩)
  range := rfl
  low _ := rfl
  high := by simp

/-- The parameters of the endpoints, each with its documented form. -/
def documented : List (IntParam × Grammar) :=
  [(tracesLimit, ⟨true, 1, some 500⟩), (tracesOffset, ⟨true, 0, none⟩),
    (treeDepth, ⟨false, 1, some 4⟩), (childrenLimit, ⟨false, 1, some 1000⟩),
    (childrenOffset, ⟨false, 0, none⟩)]

lemma checks_of_mem_documented {p : IntParam × Grammar} (h : p ∈ documented) : p.1.Checks p.2 := by
  simp only [documented, List.mem_cons, List.not_mem_nil, or_false] at h
  rcases h with rfl | rfl | rfl | rfl | rfl
  · exact checks_tracesLimit
  · exact checks_tracesOffset
  · exact checks_treeDepth
  · exact checks_childrenLimit
  · exact checks_childrenOffset

/-! ### Numbers in query strings -/

section numbers

variable {n : ℕ}

lemma isNumeral_toString (leadingZeros : Bool) (n : ℕ) :
    IsNumeral leadingZeros (bytes (toString n)) := by
  refine ⟨bytes_toString_ne_nil n, fun b hb => isDigit_of_mem_bytes_toString hb, fun _ hzero => ?_⟩
  rw [bytes_toString, List.head?_map, Option.map_eq_some_iff] at hzero
  obtain ⟨c, hc, hbyte⟩ := hzero
  have hdigit : c.isDigit :=
    Nat.isDigit_of_mem_toDigits (by decide) (by decide) (List.mem_of_mem_head? hc)
  have hchar : c = '0' := by
    rw [← UInt8.toNat_inj, toNat_toUInt8_of_isDigit hdigit] at hbyte
    exact Char.toNat_inj.mp hbyte
  obtain rfl : n = 0 := by
    by_contra hn
    exact head_toDigits hn (hchar ▸ hc)
  decide

/-- A number in the range of a parameter gets through. -/
lemma IntParam.Checks.parse_toString {p : IntParam} {g : Grammar} (h : p.Checks g)
    (hlow : g.low ≤ n) (hhigh : ∀ hi ∈ g.high, n ≤ hi) (hfits : g.high = none → n < 2 ^ 63) :
    p.parse (.string (bytes (toString n))) = .ok n := by
  have hdecimal := decimal_bytes_toString n
  have hmin : min (2 ^ 63 - 1) (decimal (bytes (toString n)) : ℤ) = n := by
    rw [h.min_eq_decimal (by rwa [hdecimal]) (by rwa [hdecimal]), hdecimal]
  refine (parseString_eq_ok_iff h).mpr ⟨_, .inl rfl, ?_, ?_, hmin.symm⟩
  · exact h.pattern _ (isNumeral_toString _ n) (by rwa [hdecimal])
  · rw [h.not_outOfRange_iff, hdecimal]
    exact ⟨hlow, hhigh⟩

end numbers

/-! ### The parsers -/

section parsers

variable {query : Query}

lemma parse_bounds {p : IntParam} {g : Grammar} (h : p.Checks g) {v : QueryValue} {n : ℤ}
    (hn : p.parse v = .ok n) : g.low ≤ n ∧ ∀ hi ∈ g.high, n ≤ hi := by
  have hstring : ∀ s, p.parseString s = .ok n → g.low ≤ n ∧ ∀ hi ∈ g.high, n ≤ hi := by
    intro s hs
    obtain ⟨w, -, -, hrange, rfl⟩ := (IntParam.parseString_eq_ok_iff h).mp hs
    obtain ⟨hlow, hhigh⟩ := h.not_outOfRange_iff.mp hrange
    refine ⟨?_, fun hi hhi => (min_le_right _ _).trans (by exact_mod_cast hhigh hi hhi)⟩
    cases hg : g.high with
    | none => simp [h.low hg]
    | some hi =>
      have := hhigh hi hg
      have := h.high hi hg
      omega
  cases v with
  | string s => exact hstring s hn
  | int m    => exact hstring _ hn
  | array    => cases hn

/-- Whatever the list endpoint is asked for, it asks the database for a page. -/
theorem parseTracesQuery_bounds {r : TracesQuery} (h : parseTracesQuery query = .ok r) :
    1 ≤ r.limit ∧ r.limit ≤ 500 ∧ 0 ≤ r.offset := by
  simp only [parseTracesQuery, bind, Except.bind, pure, Except.pure] at h
  split at h
  · cases h
  split at h
  · cases h
  rename_i limit hlimit
  split at h
  · cases h
  rename_i offset hoffset
  split at h
  · cases h
  split_ifs at h
  obtain rfl := Except.ok.inj h
  obtain ⟨hlow, hhigh⟩ := parse_bounds checks_tracesLimit hlimit
  exact ⟨hlow, hhigh 500 rfl, (parse_bounds checks_tracesOffset hoffset).1⟩

theorem parseTreeQuery_bounds {depth : ℤ} {sort : SortKey}
    (h : parseTreeQuery query = .ok (depth, sort)) : 1 ≤ depth ∧ depth ≤ 4 := by
  simp only [parseTreeQuery, bind, Except.bind, pure, Except.pure] at h
  split at h
  · cases h
  rename_i depth' hdepth
  split at h
  · cases h
  obtain ⟨rfl, -⟩ := Prod.mk.inj (Except.ok.inj h)
  obtain ⟨hlow, hhigh⟩ := parse_bounds checks_treeDepth hdepth
  exact ⟨hlow, hhigh 4 rfl⟩

lemma parseIfSet_bounds {p : IntParam} {g : Grammar} (h : p.Checks g) {v : Option QueryValue}
    {r : Option ℤ} (hr : p.parseIfSet v = .ok r) {n : ℤ} (hn : n ∈ r) :
    g.low ≤ n ∧ ∀ hi ∈ g.high, n ≤ hi := by
  cases v with
  | none =>
    obtain rfl := Except.ok.inj hr
    cases hn
  | some v =>
    cases hv : p.parse v with
    | error e => simp [IntParam.parseIfSet, hv, Except.map] at hr
    | ok m =>
      obtain rfl : some m = r := by simpa [IntParam.parseIfSet, hv, Except.map] using hr
      obtain rfl := Option.some.inj hn
      exact parse_bounds h hv

theorem parseChildrenQuery_bounds {sort : SortKey} {limit : Option ℤ} {offset : ℤ}
    (h : parseChildrenQuery query = .ok (sort, limit, offset)) :
    (∀ n ∈ limit, 1 ≤ n ∧ n ≤ 1000) ∧ 0 ≤ offset := by
  simp only [parseChildrenQuery, bind, Except.bind, pure, Except.pure] at h
  split at h
  · cases h
  split at h
  · cases h
  rename_i limit' hlimit
  split at h
  · cases h
  rename_i offset' hoffset
  obtain ⟨-, rfl, rfl⟩ : _ ∧ limit' = limit ∧ offset'.getD 0 = offset := by simpa using h
  constructor
  · intro n hn
    obtain ⟨hlow, hhigh⟩ := parseIfSet_bounds checks_childrenLimit hlimit hn
    exact ⟨hlow, hhigh 1000 rfl⟩
  · cases offset' with
    | none   => exact le_rfl
    | some n => exact (parseIfSet_bounds checks_childrenOffset hoffset rfl).1

end parsers

/-- A validator is right about a string unless this is an acceptable one with a newline at its end,
or a numeral beyond 64 bits for a parameter without an upper bound. -/
theorem validators_iff (s : List UInt8) :
    ((isValidTraceKey s ↔ IsTraceKey s) ↔ ¬ ∃ w, s = w ++ [10] ∧ IsTraceKey w) ∧
    ∀ p ∈ documented, (∀ n, p.1.parse (.string s) = .ok n ↔ p.2.Accepts s n) ↔
      (¬ ∃ w n, s = w ++ [10] ∧ p.2.Accepts w n) ∧
      (p.2.high = none → IsNumeral p.2.leadingZeros s → decimal s < 2 ^ 63) := by
  refine ⟨?_, fun p hp => (checks_of_mem_documented hp).parse_iff⟩
  rw [isValidTraceKey_iff]
  constructor
  · rintro hiff ⟨w, rfl, hw⟩
    have hkey : IsTraceKey (w ++ [10]) := hiff.mp (Or.inr ⟨w, rfl, hw⟩)
    exact absurd (hkey.2 10 (by simp)) (by decide)
  · intro hnone
    exact ⟨fun hs => hs.resolve_right hnone, Or.inl⟩

/-- A key and a limit with a newline at the end get through. -/
theorem not_validators :
    ¬ ((∀ s, isValidTraceKey s ↔ IsTraceKey s) ∧
      ∀ p ∈ documented, ∀ s n, p.1.parse (.string s) = .ok n ↔ p.2.Accepts s n) ∧
    isValidTraceKey (List.replicate 32 48 ++ [10]) ∧
    tracesLimit.parse (.string (bytes "5\n")) = .ok 5 ∧
    childrenOffset.parse (.string (bytes "9223372036854775808")) = .ok 9223372036854775807 := by
  have hkey : IsTraceKey (List.replicate 32 48) := ⟨rfl, by decide⟩
  have hvalid : isValidTraceKey (List.replicate 32 48 ++ [10]) :=
    isValidTraceKey_iff.mpr (Or.inr ⟨_, rfl, hkey⟩)
  refine ⟨fun hall => ?_, hvalid, by decide, by decide +kernel⟩
  exact absurd ((hall.1 _).mp hvalid).1 (by decide)

end PhpTreeViz
