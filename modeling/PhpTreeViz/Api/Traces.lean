import PhpTreeViz.Api.Query
import PhpTreeViz.Core.Like
import PhpTreeViz.Core.Paging

/-!
# The list endpoint

`GET /api/traces` counts the traces whose URI contains a text, and sends one page of them, sorted by
their start. The order of traces that start at the same time is left to the engine, in each query
anew.
-/

namespace PhpTreeViz

open Core

/-! ### The filter -/

/-- `strtr` with one replacement for each wildcard. -/
def escapeLike (q : List Char) : List Char :=
  q.flatMap fun c =>
    match c with
    | '\\' => ['\\', '\\']
    | '%'  => ['\\', '%']
    | '_'  => ['\\', '_']
    | c    => [c]

def likePattern (q : String) : String := String.ofList ('%' :: escapeLike q.toList ++ ['%'])

/-- The engine's bound on the bytes of a pattern. -/
def likePatternLimit : ℕ := 50000

/-- A string up to its first NUL, which is what the engine reads of it. -/
def cString (s : String) : List Char := s.toList.takeWhile (· ≠ '\x00')

/-- `uri LIKE pattern ESCAPE '\\'`. An overlong pattern is an error. -/
def sqlLike (uri pattern : String) : Option Bool :=
  if likePatternLimit < pattern.utf8ByteSize then none
  else some (likeMatches '\\' (cString pattern) (cString uri))

/-- The rows that pass a `WHERE` clause. An error in one of them fails the query. -/
def sqlWhere {α : Type*} (cond : α → Option Bool) (rows : List α) : Option (List α) :=
  if rows.all fun row => (cond row).isSome then some (rows.filter fun row => cond row = some true)
  else none

/-- The `WHERE` clause of a statement that has one. -/
def uriLike (q : String) (row : TraceRow) : Option Bool := sqlLike row.uriOrScript (likePattern q)

/-! ### The two queries -/

/-- `ORDER BY start_time_ns DESC` -/
abbrev StartDesc := DescBy fun row : TraceRow => row.startTimeNs.toInt

def sqlCountNoFilter (traces : List TraceRow) : Option ℕ := some traces.length

def sqlCountWithFilter (traces : List TraceRow) (q : String) : Option ℕ :=
  (sqlWhere (uriLike q) traces).map List.length

def sqlPageNoFilter (order : StartDesc) (traces : List TraceRow) (limit offset : ℕ) :
    Option (List TraceRow) :=
  some (slice (order.sort traces) limit offset)

def sqlPageWithFilter (order : StartDesc) (traces : List TraceRow) (q : String)
    (limit offset : ℕ) : Option (List TraceRow) :=
  (sqlWhere (uriLike q) traces).map fun rows => slice (order.sort rows) limit offset

/-- The rows of the page and the total. -/
def queryTraces (order : StartDesc) (index : Table TraceRow.traceKey) (q : String)
    (limit offset : ℕ) : Option (List TraceRow × ℕ) :=
  let hasQ := q ≠ ""
  do
    let total ← if hasQ then sqlCountWithFilter index.rows q else sqlCountNoFilter index.rows
    let rows ← if hasQ then sqlPageWithFilter order index.rows q limit offset
      else sqlPageNoFilter order index.rows limit offset
    return (rows, total)

/-! ### The response -/

/-- `gmdate('Y-m-d\\TH:i:s', sec)` -/
def gmdate (sec : ℕ) : String :=
  let days := sec / 86400
  -- a day of the proleptic Gregorian calendar, counted from 0000-03-01 in eras of 400 years
  let z := days + 719468
  let era := z / 146097
  let doe := z % 146097
  let yoe := (doe - doe / 1460 + doe / 36524 - doe / 146096) / 365
  let doy := doe - (365 * yoe + yoe / 4 - yoe / 100)
  let mp := (5 * doy + 2) / 153
  let day := doy - (153 * mp + 2) / 5 + 1
  let month := if mp < 10 then mp + 3 else mp - 9
  let year := yoe + era * 400 + (if month ≤ 2 then 1 else 0)
  pad 4 year ++ "-" ++ pad 2 month ++ "-" ++ pad 2 day ++ "T" ++
    pad 2 (sec % 86400 / 3600) ++ ":" ++ pad 2 (sec % 3600 / 60) ++ ":" ++ pad 2 (sec % 60)
where
  /-- `%0<width>d` -/
  pad (width n : ℕ) : String :=
    let digits := Nat.toDigits 10 n
    String.ofList (List.replicate (width - digits.length) '0' ++ digits)

def formatRfc3339Ns (ns : Int64) : String :=
  if ns < 0 then "0000-00-00T00:00:00.000000000Z"
  else
    let ns := ns.toInt.toNat
    gmdate (ns / 1000000000) ++ "." ++ gmdate.pad 9 (ns % 1000000000) ++ "Z"

/-- The text of `traces.state`. -/
def TraceState.name : TraceState → String
  | .active    => "active"
  | .finalized => "finalized"

/-- A trace in the response. -/
structure TraceItem where
  traceKey : String
  traceId : String
  host : String
  pid : ℤ
  startTime : String
  sapi : String
  uriOrScript : String
  state : String
  callCount : ℕ
  totalWallNs : ℤ
  droppedRecords : ℤ
  anomalyCount : ℕ
  cpuSnapshotAvailable : Bool
  deriving DecidableEq

def rowToItem [Php] (row : TraceRow) : TraceItem where
  traceKey := row.traceKey.stem
  traceId := row.traceId
  host := row.host
  pid := row.pid.toInt
  startTime := formatRfc3339Ns row.startTimeNs
  sapi := row.sapi
  uriOrScript := row.uriOrScript
  state := row.state.name
  callCount := row.callCount
  totalWallNs := phpInt row.totalWallNs
  droppedRecords := row.droppedRecords.toInt
  anomalyCount := row.anomalyCount
  cpuSnapshotAvailable := row.cpuSnapshotAvailable

structure TracesResponse where
  items : List TraceItem
  total : ℕ
  hasMore : Bool
  deriving DecidableEq

/-- `phptv_handle_traces_list` after its parameters are parsed. `none` is a failed query. -/
def handleTracesList [Php] (order : StartDesc) (index : Table TraceRow.traceKey) (q : String)
    (limit offset : ℕ) : Option TracesResponse := do
  let (rows, total) ← queryTraces order index q limit offset
  let items := rows.map rowToItem
  return { items, total, hasMore := offset + items.length < total }

example : formatRfc3339Ns 1709210096000000042 = "2024-02-29T12:34:56.000000042Z" := by
  decide +kernel

/-! ### What the filter matches -/

section filter

variable {q uri : String}

/-- The tokens of an escaped text are its characters. -/
lemma likeTokens_escapeLike (q p : List Char) :
    likeTokens '\\' (escapeLike q ++ p) = (likeTokens '\\' p).map (q.map .lit ++ ·) := by
  induction q with
  | nil => simp [escapeLike]
  | cons c q ih =>
    have hcons : likeTokens '\\' (escapeLike (c :: q) ++ p) =
        (likeTokens '\\' (escapeLike q ++ p)).map (.lit c :: ·) := by
      rw [escapeLike, List.flatMap_cons, List.append_assoc]
      split
      · exact likeTokens_escape _
      · exact likeTokens_escape _
      · exact likeTokens_escape _
      · exact likeTokens_lit ‹_› ‹_› ‹_›
    rw [hcons, ih, Option.map_map]
    rfl

lemma likeTokens_likePattern (q : String) : likeTokens '\\' (likePattern q).toList =
    some (.any :: (q.toList.map .lit ++ [.any])) := by
  rw [likePattern, String.toList_ofList, List.cons_append, likeTokens_percent (by decide),
    likeTokens_escapeLike, likeTokens_percent (by decide)]
  rfl

lemma cString_of_notMem {s : String} (h : '\x00' ∉ s.toList) : cString s = s.toList := by
  rw [cString, List.takeWhile_eq_self_iff]
  intro c hc
  simpa using ne_of_mem_of_not_mem hc h

lemma notMem_likePattern (h : '\x00' ∉ q.toList) : '\x00' ∉ (likePattern q).toList := by
  rw [likePattern, String.toList_ofList]
  simp only [List.cons_append, List.mem_cons, List.mem_append, List.not_mem_nil, or_false, not_or]
  refine ⟨by decide, ?_, by decide⟩
  rw [escapeLike, List.mem_flatMap]
  rintro ⟨c, hc, hmem⟩
  split at hmem
  · exact absurd hmem (by decide)
  · exact absurd hmem (by decide)
  · exact absurd hmem (by decide)
  · exact h (List.mem_singleton.mp hmem ▸ hc)

/-- The pattern for `q` is well formed, and it matches the URIs that contain `q` up to the case of
ASCII letters. -/
theorem sqlLike_likePattern_iff (hq : '\x00' ∉ q.toList) (huri : '\x00' ∉ uri.toList)
    (hlen : (likePattern q).utf8ByteSize ≤ likePatternLimit) :
    (likeTokens '\\' (likePattern q).toList).isSome ∧
    (sqlLike uri (likePattern q) = some true ↔
      q.toList.map Char.toLower <:+: uri.toList.map Char.toLower) := by
  refine ⟨by simp [likeTokens_likePattern], ?_⟩
  rw [sqlLike, if_neg (Nat.not_lt.mpr hlen), cString_of_notMem huri,
    cString_of_notMem (notMem_likePattern hq), Option.some.injEq, likeMatches,
    likeTokens_likePattern, Option.elim_some]
  exact matchTokens_any_lits_any

/-- A text of wildcards and escapes, found in another case. -/
theorem sqlLike_likePattern_iff_wildcards :
    sqlLike "/Index.php?x=50\\%_A" (likePattern "0\\%_a") = some true :=
  (sqlLike_likePattern_iff (by decide) (by decide) (by decide)).2.mpr (by decide)

end filter

/-! ### Paging through the list -/

/-- The trace belongs in the list for `q`. -/
def UriMatches (q : String) (row : TraceRow) : Prop :=
  q = "" ∨ likeMatches '\\' (cString (likePattern q)) (cString row.uriOrScript)

instance (q : String) (row : TraceRow) : Decidable (UriMatches q row) :=
  inferInstanceAs (Decidable (_ ∨ _))

def matching (index : Table TraceRow.traceKey) (q : String) : List TraceRow :=
  index.rows.filter (UriMatches q ·)

/-- The queries for `q` run without an error. -/
def QueryFits (index : Table TraceRow.traceKey) (q : String) : Prop :=
  q = "" ∨ (likePattern q).utf8ByteSize ≤ likePatternLimit ∨ index.rows = []

/-- The request for page `k`, answered with the engine's order for this request. -/
def tracesPage [Php] (orders : ℕ → StartDesc) (index : Table TraceRow.traceKey) (q : String)
    (limit k : ℕ) : Option (List TraceItem × Bool) :=
  (handleTracesList (orders k) index q limit (k * limit)).map fun r => (r.items, r.hasMore)

/-- Whoever requests pages until `has_more` is false has every matching trace once. -/
def ListsAll [Php] (index : Table TraceRow.traceKey) (q : String) (limit : ℕ) : Prop :=
  ∀ orders : ℕ → StartDesc, ∃ out, Fetches (tracesPage orders index q limit) 0 out ∧
    out.Perm ((matching index q).map rowToItem)

section paging

variable {index : Table TraceRow.traceKey} {q : String} {limit offset : ℕ} {order : StartDesc}

lemma sqlWhere_uriLike (hq : q ≠ "") : sqlWhere (uriLike q) index.rows =
    if (likePattern q).utf8ByteSize ≤ likePatternLimit ∨ index.rows = []
    then some (matching index q) else none := by
  by_cases hlen : (likePattern q).utf8ByteSize ≤ likePatternLimit
  · simp only [sqlWhere, uriLike, sqlLike, if_neg (Nat.not_lt.mpr hlen), Option.isSome_some,
      List.all_eq_true, implies_true, if_true, hlen, true_or, Option.some.injEq, matching,
      UriMatches, hq, false_or]
  · by_cases hrows : index.rows = []
    · simp [sqlWhere, matching, hrows]
    · obtain ⟨row, hrow⟩ := List.exists_mem_of_ne_nil _ hrows
      have hnone : uriLike q row = none := if_pos (Nat.not_le.mp hlen)
      rw [if_neg (not_or.mpr ⟨hlen, hrows⟩), sqlWhere, if_neg]
      rw [List.all_eq_true]
      exact fun hall => by simpa [hnone] using hall row hrow

lemma matching_empty : matching index "" = index.rows := by
  simp [matching, UriMatches]

lemma queryTraces_eq (hfits : QueryFits index q) : queryTraces order index q limit offset =
    some (slice (order.sort (matching index q)) limit offset, (matching index q).length) := by
  rw [queryTraces]
  by_cases hq : q = ""
  · subst hq
    simp [sqlCountNoFilter, sqlPageNoFilter, matching_empty]
  · have hwhere : sqlWhere (uriLike q) index.rows = some (matching index q) := by
      rw [sqlWhere_uriLike hq, if_pos (hfits.resolve_left hq)]
    simp [hq, sqlCountWithFilter, sqlPageWithFilter, hwhere]

lemma queryTraces_eq_none (hfits : ¬ QueryFits index q) :
    queryTraces order index q limit offset = none := by
  rw [QueryFits, not_or] at hfits
  have hwhere : sqlWhere (uriLike q) index.rows = none := by
    rw [sqlWhere_uriLike hfits.1, if_neg hfits.2]
  simp [queryTraces, hfits.1, sqlCountWithFilter, hwhere]

variable [Php] {orders : ℕ → StartDesc}

lemma tracesPage_eq (hfits : QueryFits index q) (k : ℕ) : tracesPage orders index q limit k =
    some (sortedPage orders rowToItem (matching index q) limit k) := by
  rw [tracesPage, handleTracesList, queryTraces_eq hfits]
  rfl

lemma tracesPage_eq_none (hfits : ¬ QueryFits index q) (k : ℕ) :
    tracesPage orders index q limit k = none := by
  rw [tracesPage, handleTracesList, queryTraces_eq_none hfits]
  rfl

lemma nodup_matching_items : ((matching index q).map rowToItem).Nodup := by
  have hkeys : ((matching index q).map TraceRow.traceKey).Nodup :=
    index.nodup.sublist (List.filter_sublist.map _)
  refine List.Nodup.map_on (fun a ha b hb hab => ?_) hkeys.of_map
  refine List.inj_on_of_nodup_map hkeys ha hb ?_
  have hstem : a.traceKey.stem = b.traceKey.stem := congrArg TraceItem.traceKey hab
  cases ha' : a.traceKey
  cases hb' : b.traceKey
  simpa [ha', hb'] using hstem

/-- The pages fit together if and only if the queries run and no page ends between two traces that
start at the same time. -/
theorem listsAll_iff (hlimit : 0 < limit) : ListsAll index q limit ↔ QueryFits index q ∧
    ∀ k, ¬ Splits (fun row => row.startTimeNs.toInt) (matching index q) (k * limit) := by
  by_cases hfits : QueryFits index q
  · have hpage : ∀ orders : ℕ → StartDesc, tracesPage orders index q limit =
        fun k => some (sortedPage orders rowToItem (matching index q) limit k) :=
      fun orders => funext (tracesPage_eq hfits)
    rw [ListsAll]
    simp only [hpage]
    rw [fetches_perm_iff nodup_matching_items hlimit, and_iff_right hfits]
  · refine iff_of_false (fun hall => ?_) fun h => hfits h.1
    obtain ⟨out, hout, -⟩ := hall fun _ => DescBy.stable _
    have hnone : tracesPage (fun _ => DescBy.stable _) index q limit 0 = none :=
      tracesPage_eq_none hfits 0
    cases hout with
    | last hpage   => simp [hnone] at hpage
    | more hpage _ => simp [hnone] at hpage

end paging

/-- A trace that starts at the given time. -/
def traceAt (stem : String) (startTimeNs : Int64) : TraceRow where
  traceKey := ⟨stem⟩
  traceId := ""
  host := ""
  pid := 1
  startTimeNs := startTimeNs
  sapi := "cli"
  uriOrScript := "/index.php"
  state := .active
  firstBatchAtNs := 0
  lastBatchAtNs := 0
  batchCount := 1
  callCount := 0
  totalWallNs := .integer 0
  droppedRecords := 0
  anomalyCount := 0
  cpuSnapshotAvailable := true
  pendingCount := 0

/-- Two traces that start one after the other. -/
theorem listsAll_iff_distinct :
    letI : Php := ⟨fun _ => 0⟩
    ListsAll ⟨[traceAt "a" 5, traceAt "b" 6], by decide⟩ "INDEX" 1 := by
  let _ : Php := ⟨fun _ => 0⟩
  refine (listsAll_iff Nat.one_pos).mpr ⟨Or.inr (Or.inl (by decide)), ?_⟩
  have hmatch : matching ⟨[traceAt "a" 5, traceAt "b" 6], by decide⟩ "INDEX" =
      [traceAt "a" 5, traceAt "b" 6] := by decide
  rintro k ⟨t, hlow, hhigh⟩
  rw [hmatch] at hlow hhigh
  simp only [List.countP_cons, List.countP_nil, decide_eq_true_eq] at hlow hhigh
  have ha : (traceAt "a" 5).startTimeNs.toInt = 5 := rfl
  have hb : (traceAt "b" 6).startTimeNs.toInt = 6 := rfl
  rw [ha, hb] at hlow hhigh
  split_ifs at hlow hhigh <;> omega

/-- Two traces that start together, on two pages: the engine puts the same one first on both. -/
theorem not_listsAll :
    letI : Php := ⟨fun _ => 0⟩
    ¬ ∀ (index : Table TraceRow.traceKey) (q : String) (limit : ℕ), 1 ≤ limit → limit ≤ 500 →
      ListsAll index q limit := by
  let _ : Php := ⟨fun _ => 0⟩
  intro hall
  let index : Table TraceRow.traceKey := ⟨[traceAt "a" 5, traceAt "b" 5], by decide⟩
  have hmatch : matching index "" = [traceAt "a" 5, traceAt "b" 5] := by decide
  have hlists := hall index "" 1 (by decide) (by decide)
  have hpage : ∀ orders : ℕ → StartDesc, tracesPage orders index "" 1 =
      fun k => some (sortedPage orders rowToItem (matching index "") 1 k) :=
    fun orders => funext (tracesPage_eq (Or.inl rfl))
  rw [ListsAll] at hlists
  simp only [hpage] at hlists
  refine (fetches_perm_iff nodup_matching_items Nat.one_pos).mp hlists 1 ⟨5, ?_, ?_⟩
  · rw [hmatch]
    decide
  · rw [hmatch]
    decide

end PhpTreeViz
