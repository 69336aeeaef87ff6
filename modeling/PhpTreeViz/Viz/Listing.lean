import PhpTreeViz.Api.Traces
import PhpTreeViz.Viz.Paging

/-!
# The list that is served

The page of all traces in front of its endpoint. Each request is written as a query string, parsed
again and answered from the index, with an order of traces that start at the same time that may
change from one answer to the next. The rows on the page are nevertheless the newest traces that
match one filter, each of them once.
-/

namespace PhpTreeViz

open Core

namespace TraceList

/-! ### Requests -/

/-- The query string of the URL that `runFetch` asks for -/
def Fetch.params (r : Fetch) : List UInt8 :=
  formSerialize [(bytes "q", bytes r.q), (bytes "limit", bytes (toString pageLimit)),
    (bytes "offset", bytes (toString r.offset))]

/-- The parameters arrive as they were sent. -/
lemma parseTracesQuery_params {r : Fetch} (h : r.offset < 2 ^ 63) :
    parseTracesQuery (phpGet r.params) =
      .ok ⟨bytes r.q, pageLimit, r.offset, bytes "start_time_desc"⟩ := by
  have hget : ∀ name, phpGet r.params name = (([(bytes "offset", bytes (toString r.offset)),
      (bytes "limit", bytes (toString pageLimit)), (bytes "q", bytes r.q)].find?
        (·.1 = bytes name)).map (.string ·.2)) := fun name => by
    rw [phpGet, Fetch.params, formParse_formSerialize]
    rfl
  have hq : phpGet r.params "q" = some (.string (bytes r.q)) := by
    rw [hget]
    rfl
  have hlimit : phpGet r.params "limit" = some (.string (bytes (toString pageLimit))) := by
    rw [hget]
    rfl
  have hoffset : phpGet r.params "offset" = some (.string (bytes (toString r.offset))) := by
    rw [hget]
    rfl
  have hsort : phpGet r.params "sort" = none := by
    rw [hget]
    rfl
  have hparsed := checks_tracesOffset.parse_toString (Nat.zero_le r.offset) (by simp) fun _ => h
  rw [parseTracesQuery, hq, hlimit, hoffset, hsort]
  simp only [Option.getD_some, Option.getD_none, stringParam, hparsed,
    checks_tracesLimit.parse_toString (n := pageLimit) (by decide) (by decide) (by simp)]
  rfl

/-! ### Answers -/

section answer

variable [Php]

/-- What `apiFetch` makes of the response of `GET /api/traces`. Filter texts that are not UTF-8,
which the page does not send, are left out. -/
def answer (order : StartDesc) (index : Table TraceRow.traceKey) (query : Query) :
    Response TraceItem :=
  match parseTracesQuery query with
  | .error e => .apiNetworkError e.status
  | .ok p =>
    match (textOf p.q).bind fun q =>
      handleTracesList order index q p.limit.toNat p.offset.toNat with
    | some r => .body ⟨r.items, r.hasMore, r.total⟩
    | none   => .apiNetworkError 500

/-- A response with a body is the answer to its request. -/
def Answers (index : Table TraceRow.traceKey) (o : Observed TraceItem) : Event TraceItem → Prop
  | .arrive token (.body body) => ∀ r, o.state.awaiting token = some r →
    ∃ order, answer order index (phpGet r.params) = .body body
  | _ => True

def AnsweredStep (index : Table TraceRow.traceKey) (o : Observed TraceItem) (e : Event TraceItem)
    (o' : Observed TraceItem) : Prop := Answers index o e ∧ o.Step e o'

/-- The page of the index from which a request is answered -/
def tracesBody (order : StartDesc) (index : Table TraceRow.traceKey) (q : String) (offset : ℕ) :
    Body TraceItem :=
  let items := (slice (order.sort (matching index q)) pageLimit offset).map rowToItem
  { items
    hasMore := offset + items.length < (matching index q).length
    total := (matching index q).length }

section request

variable {order : StartDesc} {index : Table TraceRow.traceKey} {r : Fetch} {body : Body TraceItem}

lemma answer_params (h : r.offset < 2 ^ 63) (hfits : QueryFits index r.q) :
    answer order index (phpGet r.params) = .body (tracesBody order index r.q r.offset) := by
  rw [answer, parseTracesQuery_params h]
  simp only [textOf_bytes, Option.bind_some, Int.toNat_natCast, handleTracesList,
    queryTraces_eq hfits]
  rfl

lemma eq_tracesBody (h : r.offset < 2 ^ 63)
    (hbody : answer order index (phpGet r.params) = .body body) :
    body = tracesBody order index r.q r.offset := by
  by_cases hfits : QueryFits index r.q
  · rw [answer_params h hfits] at hbody
    exact (Response.body.inj hbody).symm
  · rw [answer, parseTracesQuery_params h] at hbody
    simp only [textOf_bytes, Option.bind_some, Int.toNat_natCast, handleTracesList,
      queryTraces_eq_none hfits] at hbody
    cases hbody

end request

end answer

/-! ### The rows on the page -/

/-- The start of a trace, by which the list is sorted -/
abbrev startTime (row : TraceRow) : ℤ := row.startTimeNs.toInt

/-- The traces in some order, the newest first -/
structure NewestFirst (traces list : List TraceRow) : Prop where
  perm : list.Perm traces
  sorted : list.Pairwise fun a b => startTime b ≤ startTime a

lemma NewestFirst.of_order (order : StartDesc) (traces : List TraceRow) :
    NewestFirst traces (order.sort traces) := ⟨order.perm traces, order.sorted traces⟩

/-- Where no traces are parted that start together, a list may be continued with another one. -/
lemma NewestFirst.splice {traces list list' : List TraceRow} {m : ℕ}
    (h : NewestFirst traces list) (h' : NewestFirst traces list')
    (hsplit : ¬ Splits startTime traces m) :
    NewestFirst traces (list.take m ++ list'.drop m) := by
  have hperm : list.Perm list' := h.perm.trans h'.perm.symm
  have hsplit' : ¬ Splits startTime list m := (Splits.perm h.perm).not.mpr hsplit
  exact ⟨(perm_splice hperm h.sorted h'.sorted hsplit').trans h'.perm,
    sorted_splice hperm h.sorted h'.sorted hsplit'⟩

/-- The rows are the newest traces that match the query which they were fetched for. -/
structure Shows [Php] (index : Table TraceRow.traceKey) (s : State TraceItem)
    (pages : List (String × List TraceItem)) (q : String) (list : List TraceRow) : Prop where
  query : ∀ p ∈ pages, p.1 = q
  newest : NewestFirst (matching index q) list
  rows : s.rows = (list.take s.currentOffset).map rowToItem
  more : s.currentHasMore = true ↔ pages ≠ [] ∧ s.currentOffset < list.length
  current : s.currentHasMore = true → q = s.currentQuery

/-- The offsets lie in the index, and the last request asks for the beginning or for the next whole
page. -/
structure Listed [Php] (index : Table TraceRow.traceKey) (s : State TraceItem)
    (pages : List (String × List TraceItem)) : Prop where
  offset : s.currentOffset ≤ index.rows.length
  offsets : ∀ r ∈ s.inFlight, r.offset ≤ index.rows.length
  whole : s.currentHasMore = true → pageLimit ∣ s.currentOffset
  beginning : ∀ r ∈ s.inFlight, r.token = s.fetchToken → r.append = false → r.offset = 0
  next : ∀ r ∈ s.inFlight, r.token = s.fetchToken → r.append = true →
    r.q = s.currentQuery ∧ r.offset = s.currentOffset ∧ s.currentHasMore = true
  shows : ∃ q list, Shows index s pages q list
  noMatches : .noMatches ∈ s.rowsEl → s.currentHasMore = false

namespace Listed

variable [Php] {index : Table TraceRow.traceKey} {s : State TraceItem}
  {pages : List (String × List TraceItem)}

lemma initialLoad (index : Table TraceRow.traceKey) : Listed index .initialLoad [] where
  offset := Nat.zero_le _
  offsets := by simp [State.initialLoad, State.initial, State.runFetch]
  whole := fun hmore => by cases hmore
  beginning := by simp [State.initialLoad, State.initial, State.runFetch]
  next := by simp [State.initialLoad, State.initial, State.runFetch]
  shows := ⟨"", _, by simp, .of_order (DescBy.stable _) _, rfl, iff_of_false nofun fun h => h.1 rfl,
    nofun⟩
  noMatches := fun _ => rfl

lemma runFetch (h : Listed index s pages) (hrendered : Rendered s pages) {q : String} {offset : ℕ}
    {append rec : Bool} (hoffset : offset ≤ index.rows.length)
    (hbeginning : append = false → offset = 0)
    (hnext : append = true → q = s.currentQuery ∧ offset = s.currentOffset ∧
      s.currentHasMore = true) : Listed index (s.runFetch q offset append rec) pages := by
  refine ⟨h.offset, fun r hr => ?_, h.whole, fun r hr hlast happend => ?_,
    fun r hr hlast happend => ?_, ?_, h.noMatches⟩
  · rcases (s.mem_inFlight_runFetch).mp hr with hr | rfl
    · exact h.offsets r hr
    · exact hoffset
  · obtain rfl := hrendered.eq_of_token hr hlast
    exact hbeginning happend
  · obtain rfl := hrendered.eq_of_token hr hlast
    exact hnext happend
  · obtain ⟨q, list, hshows⟩ := h.shows
    exact ⟨q, list, hshows.query, hshows.newest, hshows.rows, hshows.more, hshows.current⟩

lemma settle (h : Listed index s pages) (token : ℕ) : Listed index (s.settle token) pages where
  offset := h.offset
  offsets r hr := h.offsets r (List.mem_of_mem_filter hr)
  whole := h.whole
  beginning r hr := h.beginning r (List.mem_of_mem_filter hr)
  next r hr := h.next r (List.mem_of_mem_filter hr)
  shows := by
    obtain ⟨q, list, hshows⟩ := h.shows
    exact ⟨q, list, hshows.query, hshows.newest, hshows.rows, hshows.more, hshows.current⟩
  noMatches := h.noMatches

/-- There is no next page to wait for when no trace matches. -/
lemma clearFilter (h : Listed index s pages) (hmem : .noMatches ∈ s.rowsEl) :
    Listed index { s with currentQuery := "", debounced := some "" } pages := by
  have hnone : ¬ s.currentHasMore = true := by simp [h.noMatches hmem]
  obtain ⟨q, list, hshows⟩ := h.shows
  refine ⟨h.offset, h.offsets, h.whole, h.beginning, fun r hr hlast happend => ?_,
    ⟨q, list, hshows.query, hshows.newest, hshows.rows, hshows.more, fun hmore => ?_⟩, h.noMatches⟩
  · exact absurd (h.next r hr hlast happend).2.2 hnone
  · exact absurd hmore hnone

/-- What the answer to the last request is put after -/
lemma exists_before (h : Listed index s pages) {r : Fetch} (hr : r ∈ s.inFlight)
    (hlast : r.token = s.fetchToken) :
    pageLimit ∣ r.offset ∧ (∀ p ∈ if r.append then pages else [], p.1 = r.q) ∧
      ∃ list, NewestFirst (matching index r.q) list ∧ r.offset ≤ list.length ∧
        (if r.append then s.rows else []) = (list.take r.offset).map rowToItem := by
  cases happend : r.append with
  | false =>
    rw [h.beginning r hr hlast happend]
    exact ⟨dvd_zero _, nofun, _, .of_order (DescBy.stable _) _, Nat.zero_le _, rfl⟩
  | true =>
    obtain ⟨hq, hoffset, hmore⟩ := h.next r hr hlast happend
    obtain ⟨q, list, hshows⟩ := h.shows
    obtain rfl : q = r.q := (hshows.current hmore).trans hq.symm
    rw [hoffset]
    exact ⟨h.whole hmore, hshows.query, list, hshows.newest, (hshows.more.mp hmore).2.le,
      hshows.rows⟩

lemma accepted (h : Listed index s pages) (hlength : index.rows.length < 2 ^ 53)
    (hsplits : ∀ q k, ¬ Splits startTime (matching index q) (k * pageLimit)) {r : Fetch}
    {body : Body TraceItem} {t : State TraceItem} (hr : r ∈ s.inFlight)
    (hlast : r.token = s.fetchToken)
    (hanswer : ∃ order, answer order index (phpGet r.params) = .body body)
    (hacc : State.Accepted (s.settle r.token) r body t) :
    Listed index t ((if r.append then pages else []) ++ [(r.q, body.items)]) := by
  obtain ⟨order, hanswer⟩ := hanswer
  have hfits : r.offset < 2 ^ 63 :=
    (h.offsets r hr).trans_lt (hlength.trans (Nat.pow_lt_pow_right Nat.one_lt_two (by decide)))
  have hbody : body = tracesBody order index r.q r.offset := eq_tracesBody hfits hanswer
  obtain ⟨⟨k, hk⟩, hpages, list, hlist, hbefore, hrows⟩ := h.exists_before hr hlast
  rw [Nat.mul_comm] at hk
  have hnone := hacc.token_ne hlast
  set sorted := order.sort (matching index r.q) with hsorted
  have hitems : body.items = (slice sorted pageLimit r.offset).map rowToItem := by rw [hbody]; rfl
  have hmore : body.hasMore =
      decide (r.offset + body.items.length < (matching index r.q).length) := by rw [hbody]; rfl
  have hlen : sorted.length = (matching index r.q).length := (order.perm _).length_eq
  have hmatching : (matching index r.q).length ≤ index.rows.length := List.length_filter_le _ _
  have hcount : body.items.length = min pageLimit (sorted.length - r.offset) := by
    rw [hitems, List.length_map, length_slice]
  have hspliced : NewestFirst (matching index r.q)
      (list.take r.offset ++ sorted.drop r.offset) :=
    hlist.splice (.of_order order _) (hk ▸ hsplits r.q k)
  refine ⟨?_, fun r' hr' => ?_, fun hmore' => ?_, fun r' hr' hlast' => absurd hlast' (hnone r' hr'),
    fun r' hr' hlast' => absurd hlast' (hnone r' hr'),
    ⟨r.q, _, ?_, hspliced, ?_, ?_, fun _ => hacc.currentQuery.symm⟩, fun hmem => ?_⟩
  · have := h.offsets r hr
    rw [hacc.currentOffset, hcount]
    omega
  · rw [hacc.inFlight] at hr'
    exact h.offsets r' (List.mem_of_mem_filter hr')
  · rw [hacc.currentHasMore, hmore, decide_eq_true_eq, hcount, hlen] at hmore'
    have hwhole : body.items.length = pageLimit := by
      rw [hcount, hlen]
      omega
    rw [hacc.currentOffset, hwhole, hk]
    exact ⟨k + 1, by ring⟩
  · intro p hp
    rcases List.mem_append.mp hp with hp | hp
    · exact hpages p hp
    · rw [List.mem_singleton.mp hp]
  · have hold : (s.settle r.token).rows = s.rows := rfl
    have hpage : body.items.length = (slice sorted pageLimit r.offset).length := by
      rw [hitems, List.length_map]
    rw [hacc.rows, hacc.currentOffset, hold, hrows, hpage, take_splice hbefore, List.map_append,
      hitems]
  · rw [hacc.currentHasMore, hacc.currentOffset, hmore, decide_eq_true_eq, hspliced.perm.length_eq]
    exact ⟨fun hlt => ⟨by simp, hlt⟩, fun h => h.2⟩
  · rw [hacc.currentHasMore, hmore]
    rcases hacc.noMatches hmem with ⟨happend, hempty⟩ | ⟨happend, hmem⟩
    · rw [h.beginning r hr hlast happend] at hcount ⊢
      rw [hempty] at hcount ⊢
      simp only [List.length_nil, pageLimit] at hcount ⊢
      simp only [decide_eq_false_iff_not]
      omega
    · have := (h.next r hr hlast happend).2.2
      rw [h.noMatches hmem] at this
      cases this

/-- Every event keeps the rows the newest traces. -/
theorem step {o o' : Observed TraceItem} {e : Event TraceItem} (h : Listed index o.state o.pages)
    (hrendered : Rendered o.state o.pages) (hlength : index.rows.length < 2 ^ 53)
    (hsplits : ∀ q k, ¬ Splits startTime (matching index q) (k * pageLimit))
    (hstep : AnsweredStep index o e o') : Listed index o'.state o'.pages := by
  obtain ⟨hanswers, hstep⟩ := hstep
  cases hstep.effect with
  | input q =>
    obtain ⟨q, list, hshows⟩ := h.shows
    exact ⟨h.offset, h.offsets, h.whole, h.beginning, h.next, ⟨q, list, hshows.query, hshows.newest,
      hshows.rows, hshows.more, hshows.current⟩, h.noMatches⟩
  | @timer q hq =>
    obtain ⟨q', list, hshows⟩ := h.shows
    have hfired : Listed index { o.state with debounced := none } o.pages :=
      ⟨h.offset, h.offsets, h.whole, h.beginning, h.next, ⟨q', list, hshows.query, hshows.newest,
        hshows.rows, hshows.more, hshows.current⟩, h.noMatches⟩
    exact hfired.runFetch ⟨hrendered.tokens, hrendered.rows⟩ (Nat.zero_le _) (fun _ => rfl)
      (fun happend => by cases happend)
  | clearFilter hmem => exact h.clearFilter hmem
  | loadMore hmore =>
    exact h.runFetch hrendered h.offset (fun happend => by cases happend)
      (fun _ => ⟨rfl, rfl, hmore⟩)
  | retry =>
    exact h.runFetch hrendered (Nat.zero_le _) (fun _ => rfl) (fun happend => by cases happend)
  | superseded res hlast => exact h.settle _
  | @failed token res err hres =>
    have hsettled := h.settle token
    obtain ⟨q, list, hshows⟩ := hsettled.shows
    exact ⟨hsettled.offset, hsettled.offsets, hsettled.whole, hsettled.beginning, hsettled.next,
      ⟨q, list, hshows.query, hshows.newest, hshows.rows, hshows.more, hshows.current⟩,
      hsettled.noMatches⟩
  | accepted hr hlast hawaits hacc =>
    exact h.accepted hlength hsplits hr hlast (hanswers _ hawaits) hacc

end Listed

lemma listed_of_run [Php] {index : Table TraceRow.traceKey} {es : List (Event TraceItem)}
    {o : Observed TraceItem} (hlength : index.rows.length < 2 ^ 53)
    (hsplits : ∀ q k, ¬ Splits startTime (matching index q) (k * pageLimit))
    (hrun : Run (AnsweredStep index) .start es o) : Listed index o.state o.pages :=
  (hrun.invariant (I := fun o => Rendered o.state o.pages ∧ Listed index o.state o.pages)
    (P := fun _ => True)
    (fun _ _ _ _ hstep h => ⟨h.1.step hstep.2, h.2.step h.1 hlength hsplits hstep⟩)
    (fun _ _ => trivial) ⟨.initialLoad, .initialLoad index⟩).2

/-- The endpoint understands every request of the page, and the rows are the newest traces that
match one query, whatever is typed and clicked and in whatever order the answers come. There is a
next page if and only if traces are missing. -/
theorem newestFirst_of_run [Php] {index : Table TraceRow.traceKey} {es : List (Event TraceItem)}
    {o : Observed TraceItem} (hlength : index.rows.length < 2 ^ 53)
    (hsplits : ∀ q k, ¬ Splits startTime (matching index q) (k * pageLimit))
    (hrun : Run (AnsweredStep index) .start es o) :
    (∀ r ∈ o.state.inFlight, parseTracesQuery (phpGet r.params) =
      .ok ⟨bytes r.q, pageLimit, r.offset, bytes "start_time_desc"⟩) ∧
    ∃ q list, (∀ p ∈ o.pages, p.1 = q) ∧ NewestFirst (matching index q) list ∧
      o.state.rows = (list.take o.state.currentOffset).map rowToItem ∧
      (o.state.currentHasMore = true ↔ o.pages ≠ [] ∧ o.state.currentOffset < list.length) := by
  have hlisted := listed_of_run hlength hsplits hrun
  obtain ⟨q, list, hshows⟩ := hlisted.shows
  refine ⟨fun r hr => parseTracesQuery_params ?_, q, list, hshows.query, hshows.newest,
    hshows.rows, hshows.more⟩
  exact (hlisted.offsets r hr).trans_lt
    (hlength.trans (Nat.pow_lt_pow_right Nat.one_lt_two (by decide)))

/-- Traces that all start at different times are parted nowhere. -/
lemma not_splits_matching {index : Table TraceRow.traceKey}
    (h : (index.rows.map startTime).Nodup) (q : String) (m : ℕ) :
    ¬ Splits startTime (matching index q) m :=
  not_splits_of_nodup (h.sublist (List.filter_sublist.map _)) m

/-- The first page of two traces -/
theorem newestFirst_of_run_first_page :
    letI : Php := ⟨fun _ => 0⟩
    ∃ (index : Table TraceRow.traceKey) (es : List (Event TraceItem)) (o : Observed TraceItem),
      Run (AnsweredStep index) .start es o ∧
      o.state.rows = [rowToItem (traceAt "b" 6), rowToItem (traceAt "a" 5)] ∧
      (∀ r ∈ o.state.inFlight, parseTracesQuery (phpGet r.params) =
        .ok ⟨bytes r.q, pageLimit, r.offset, bytes "start_time_desc"⟩) ∧
      ∃ q list, (∀ p ∈ o.pages, p.1 = q) ∧ NewestFirst (matching index q) list ∧
        o.state.rows = (list.take o.state.currentOffset).map rowToItem ∧
        (o.state.currentHasMore = true ↔
          o.pages ≠ [] ∧ o.state.currentOffset < list.length) := by
  let _ : Php := ⟨fun _ => 0⟩
  let index : Table TraceRow.traceKey := ⟨[traceAt "a" 5, traceAt "b" 6], by decide⟩
  let order : StartDesc := DescBy.stable _
  let first : Event TraceItem := .arrive 1 (.body (tracesBody order index "" 0))
  have hstep : AnsweredStep index Observed.start first (Observed.start.after first) := by
    refine ⟨?_, Observed.step_after rfl⟩
    rintro r ⟨⟩
    exact ⟨order, answer_params (by decide) (.inl rfl)⟩
  have hrun : Run (AnsweredStep index) .start [first] (Observed.start.after first) := .single hstep
  refine ⟨index, _, _, hrun, by decide +kernel, newestFirst_of_run (by decide) ?_ hrun⟩
  exact fun q k => not_splits_matching (by decide) q _

end TraceList

end PhpTreeViz
