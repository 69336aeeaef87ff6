import PhpTreeViz.Viz.TraceList

/-!
# Pages of the trace list

The rows on the page are always the beginning of the list for one query, whatever the order in
which requests are answered. But that query need not be the last one that the filter dispatched: a
click on "Load more" supersedes the request of the filter and asks for more rows of the old query.
-/

namespace PhpTreeViz

open Core

namespace TraceList

variable {Item : Type*}

/-! ### What the functions change -/

lemma filterMap_row? (items : List Item) : (items.map Child.row).filterMap Child.row? = items := by
  rw [List.filterMap_map]
  exact List.filterMap_some

namespace State

variable (s : State Item)

lemma renderRows_eq (items : List Item) (append : Bool) :
    ∃ l, s.renderRows items append = { s with rowsEl := l } := by
  rw [renderRows, renderEmptyState]
  split
  · exact ⟨_, rfl⟩
  · exact ⟨_, rfl⟩

lemma rows_renderRows (items : List Item) (append : Bool) :
    (s.renderRows items append).rows = (if append then s.rows else []) ++ items := by
  rw [renderRows]
  split_ifs with hempty happend
  · simp_all
  · simp only [Bool.and_eq_true, Bool.not_eq_true', List.isEmpty_iff] at hempty
    simp only [hempty, rows, renderEmptyState]
    split_ifs <;> rfl
  · rw [rows, List.filterMap_append, filterMap_row?]
    rfl
  · rw [rows, List.filterMap_append, filterMap_row?]
    rfl

lemma noMatches_mem_renderRows {items : List Item} {append : Bool}
    (h : .noMatches ∈ (s.renderRows items append).rowsEl) :
    (append = false ∧ items = []) ∨ (append = true ∧ .noMatches ∈ s.rowsEl) := by
  rw [renderRows] at h
  split_ifs at h with hempty happend
  · simpa using Or.inl hempty
  · exact Or.inr ⟨happend, by simpa using h⟩
  · simp at h

/-- A superseded response changes nothing. -/
lemma resume_of_superseded {r : Fetch} (h : r.token ≠ s.fetchToken) (res : Response Item) :
    s.resume r res = s := if_pos h

/-- A last request that fails leaves its error only. -/
lemma resume_failed {r : Fetch} (h : r.token = s.fetchToken) (res : Response Item)
    (hres : ∀ body, res ≠ .body body) :
    ∃ e, s.resume r res = { s with filterLoading := false, errorEl := some e } := by
  rw [resume, if_neg (not_not.mpr h)]
  cases res with
  | body body => exact absurd rfl (hres body)
  | malformed => exact ⟨_, rfl⟩
  | apiNetworkError status => exact ⟨_, rfl⟩
  | otherError => exact ⟨_, rfl⟩

/-- The page after the last request was answered. -/
structure Accepted (s : State Item) (r : Fetch) (body : Body Item) (t : State Item) : Prop where
  rows : t.rows = (if r.append then s.rows else []) ++ body.items
  noMatches : .noMatches ∈ t.rowsEl →
    (r.append = false ∧ body.items = []) ∨ (r.append = true ∧ .noMatches ∈ s.rowsEl)
  currentQuery : t.currentQuery = r.q
  currentOffset : t.currentOffset = r.offset + body.items.length
  currentHasMore : t.currentHasMore = body.hasMore
  fetchToken : t.fetchToken = s.fetchToken
  inFlight : t.inFlight = s.inFlight

lemma accepted_resume {r : Fetch} (h : r.token = s.fetchToken) (body : Body Item) :
    Accepted s r body (s.resume r (.body body)) := by
  rw [resume, if_neg (not_not.mpr h)]
  constructor
  · exact rows_renderRows _ _ _
  · exact noMatches_mem_renderRows _
  all_goals
    obtain ⟨l, hl⟩ := renderRows_eq { s with
      filterLoading := false
      unfilteredTotal := if r.recordUnfiltered then some body.total else s.unfilteredTotal
      currentQuery := r.q
      currentOffset := r.offset + body.items.length
      currentHasMore := body.hasMore
      currentTotal := body.total } body.items r.append
    simp only [hl]

lemma mem_inFlight_runFetch {q : String} {offset : ℕ} {append recordUnfiltered : Bool} {r : Fetch} :
    r ∈ (s.runFetch q offset append recordUnfiltered).inFlight ↔
      r ∈ s.inFlight ∨ r = ⟨s.fetchToken + 1, q, offset, append, recordUnfiltered⟩ := by
  simp [runFetch]

/-- Then the last request has been answered. -/
lemma Accepted.token_ne {s t : State Item} {r : Fetch} {body : Body Item}
    (h : Accepted (s.settle r.token) r body t) (hlast : r.token = s.fetchToken) :
    ∀ r' ∈ t.inFlight, r'.token ≠ t.fetchToken := by
  intro r' hr'
  rw [h.inFlight] at hr'
  rw [h.fetchToken]
  exact hlast ▸ of_decide_eq_true (List.mem_filter.mp hr').2

end State

lemma Observed.pagesAfter_of_failed (o : Observed Item) (token : ℕ) {res : Response Item}
    (hres : ∀ body, res ≠ .body body) : o.pagesAfter (.arrive token res) = o.pages := by
  cases res with
  | body body => exact absurd rfl (hres body)
  | _         => rfl

/-- What an event can do. -/
inductive Effect (o : Observed Item) : Event Item → Observed Item → Prop where
  | input (q : String) : Effect o (.input q) ⟨{ o.state with debounced := some q }, o.pages⟩
  | timer {q : String} :
      o.state.debounced = some q → Effect o .timer ⟨o.state.debouncedFilter q, o.pages⟩
  | clearFilter : .noMatches ∈ o.state.rowsEl →
      Effect o .clearFilter ⟨{ o.state with currentQuery := "", debounced := some "" }, o.pages⟩
  | loadMore : o.state.currentHasMore = true →
      Effect o .loadMore
        ⟨o.state.runFetch o.state.currentQuery o.state.currentOffset true false, o.pages⟩
  | retry {recordUnfiltered : Bool} :
      Effect o .retry ⟨o.state.runFetch o.state.currentQuery 0 false recordUnfiltered, o.pages⟩
  | superseded {token : ℕ} (res : Response Item) : token ≠ o.state.fetchToken →
      Effect o (.arrive token res) ⟨o.state.settle token, o.pages⟩
  | failed {token : ℕ} {res : Response Item} (e : ListError) : (∀ body, res ≠ .body body) →
      Effect o (.arrive token res)
        ⟨{ o.state.settle token with filterLoading := false, errorEl := some e }, o.pages⟩
  | accepted {r : Fetch} {body : Body Item} {t : State Item} : r ∈ o.state.inFlight →
      r.token = o.state.fetchToken → o.state.awaiting r.token = some r →
      State.Accepted (o.state.settle r.token) r body t →
      Effect o (.arrive r.token (.body body))
        ⟨t, (if r.append then o.pages else []) ++ [(r.q, body.items)]⟩

theorem Observed.Step.effect {o o' : Observed Item} {e : Event Item} (h : o.Step e o') :
    Effect o e o' := by
  obtain ⟨s, pages⟩ := o'
  obtain ⟨hevent, hpages⟩ := h
  obtain rfl : pages = _ := hpages
  cases e with
  | input q =>
    obtain rfl : _ = s := Option.some.inj hevent
    exact .input q
  | timer =>
    obtain ⟨q, hq, heq⟩ := Option.map_eq_some_iff.mp hevent
    obtain rfl : _ = s := heq
    exact .timer hq
  | clearFilter =>
    rw [State.step] at hevent
    split_ifs at hevent with hbutton
    obtain rfl : _ = s := Option.some.inj hevent
    obtain ⟨child, hmem, hchild⟩ := List.any_eq_true.mp hbutton
    refine .clearFilter ?_
    cases child with
    | noMatches => exact hmem
    | _         => cases hchild
  | loadMore =>
    rw [State.step] at hevent
    split_ifs at hevent with hmore
    obtain rfl : _ = s := Option.some.inj hevent
    exact .loadMore hmore
  | retry =>
    rw [State.step] at hevent
    split_ifs at hevent
    obtain rfl : _ = s := Option.some.inj hevent
    exact .retry
  | arrive token res =>
    obtain ⟨r, hr, heq⟩ := Option.map_eq_some_iff.mp hevent
    obtain rfl : _ = s := heq
    have hmem := List.mem_of_find?_eq_some hr
    obtain rfl : r.token = token := by simpa using List.find?_some hr
    by_cases hlast : r.token = o.state.fetchToken
    · by_cases hbody : ∃ body, res = .body body
      · obtain ⟨body, rfl⟩ := hbody
        rw [Observed.pagesAfter, hr]
        simp only [if_pos hlast]
        exact .accepted hmem hlast hr ((o.state.settle r.token).accepted_resume hlast body)
      · have hres : ∀ body, res ≠ .body body := not_exists.mp hbody
        obtain ⟨e, he⟩ := (o.state.settle r.token).resume_failed hlast res hres
        rw [he, Observed.pagesAfter_of_failed o _ hres]
        exact .failed e hres
    · have hpages : o.pagesAfter (.arrive r.token res) = o.pages := by
        cases res with
        | body body => simp only [Observed.pagesAfter, hr, if_neg hlast]
        | _         => rfl
      rw [hpages, (o.state.settle r.token).resume_of_superseded hlast]
      exact .superseded res hlast

/-! ### Rows and answers -/

/-- The rows come from the answers that were accepted. -/
structure Rendered (s : State Item) (pages : List (String × List Item)) : Prop where
  tokens : ∀ r ∈ s.inFlight, r.token ≤ s.fetchToken
  rows : s.rows = pages.flatMap (·.2)

namespace Rendered

variable {s : State Item} {pages : List (String × List Item)}

lemma initialLoad : Rendered (.initialLoad : State Item) [] where
  tokens := by simp [State.initialLoad, State.initial, State.runFetch]
  rows := rfl

lemma runFetch (h : Rendered s pages) (q : String) (offset : ℕ) (append rec : Bool) :
    Rendered (s.runFetch q offset append rec) pages := by
  refine ⟨fun r hr => ?_, h.rows⟩
  rcases (s.mem_inFlight_runFetch).mp hr with hr | rfl
  · exact Nat.le_succ_of_le (h.tokens r hr)
  · exact Nat.le_refl _

/-- The request that was started last is the only one with its token. -/
lemma eq_of_token (h : Rendered s pages) {q : String} {offset : ℕ} {append rec : Bool} {r : Fetch}
    (hr : r ∈ (s.runFetch q offset append rec).inFlight) (htoken : r.token = s.fetchToken + 1) :
    r = ⟨s.fetchToken + 1, q, offset, append, rec⟩ := by
  rcases (s.mem_inFlight_runFetch).mp hr with hr | hr
  · have := h.tokens r hr
    omega
  · exact hr

lemma settle (h : Rendered s pages) (token : ℕ) : Rendered (s.settle token) pages where
  tokens r hr := h.tokens r (List.mem_of_mem_filter hr)
  rows := h.rows

lemma accepted (h : Rendered s pages) {r : Fetch} {body : Body Item} {t : State Item}
    (hacc : State.Accepted s r body t) :
    Rendered t ((if r.append then pages else []) ++ [(r.q, body.items)]) := by
  constructor
  · rw [hacc.inFlight, hacc.fetchToken]
    exact h.tokens
  · rw [hacc.rows]
    split_ifs
    · rw [List.flatMap_append, ← h.rows]
      simp
    · simp

end Rendered

/-- Every event keeps the rows and the answers together. -/
theorem Rendered.step {o o' : Observed Item} {e : Event Item} (h : Rendered o.state o.pages)
    (hstep : o.Step e o') : Rendered o'.state o'.pages := by
  cases hstep.effect with
  | input q              => exact ⟨h.tokens, h.rows⟩
  | @timer q hq          =>
    have hfired : Rendered { o.state with debounced := none } o.pages := ⟨h.tokens, h.rows⟩
    exact hfired.runFetch q 0 false false
  | clearFilter hmem     => exact ⟨h.tokens, h.rows⟩
  | loadMore hmore       => exact h.runFetch _ _ _ _
  | retry                => exact h.runFetch _ _ _ _
  | superseded res hlast => exact h.settle _
  | failed err hres      => exact ⟨(h.settle _).tokens, h.rows⟩
  | accepted hr hlast hawaits hacc => exact (h.settle _).accepted hacc

lemma rendered_of_run {es : List (Event Item)} {o : Observed Item}
    (hrun : Run Observed.Step .start es o) : Rendered o.state o.pages :=
  hrun.invariant (I := fun o => Rendered o.state o.pages) (P := fun _ => True)
    (fun _ _ _ _ hstep h => h.step hstep) (fun _ _ => trivial) .initialLoad

/-! ### The beginning of a list -/

/-- The rows are the beginning of the list for the query that they were fetched for, and the last
request asks for the beginning or for what comes next. -/
structure Paged (list : String → List Item) (s : State Item) (pages : List (String × List Item)) :
    Prop where
  beginning : ∀ r ∈ s.inFlight, r.token = s.fetchToken → r.append = false → r.offset = 0
  next : ∀ r ∈ s.inFlight, r.token = s.fetchToken → r.append = true →
    r.q = s.currentQuery ∧ r.offset = s.currentOffset ∧ s.currentHasMore = true
  fetched : ∃ q, (∀ p ∈ pages, p.1 = q) ∧ s.rows = (list q).take s.currentOffset ∧
    (s.currentHasMore = true → q = s.currentQuery)
  noMatches : .noMatches ∈ s.rowsEl → s.currentHasMore = false

section serve

variable {list : String → List Item} {q : String} {offset : ℕ}

lemma take_append_serve : (list q).take offset ++ (serve list q offset).items =
    (list q).take (offset + (serve list q offset).items.length) := by
  rw [List.take_add]
  congr 1
  simp [serve]

lemma hasMore_serve_zero (h : (serve list q 0).items = []) :
    (serve list q 0).hasMore = false := by
  have hnil : list q = [] := by simpa [serve, pageLimit] using h
  simp [serve, hnil]

end serve

namespace Paged

variable {list : String → List Item} {s : State Item} {pages : List (String × List Item)}

lemma initialLoad (list : String → List Item) : Paged list .initialLoad [] where
  beginning := by simp [State.initialLoad, State.initial, State.runFetch]
  next := by simp [State.initialLoad, State.initial, State.runFetch]
  fetched := ⟨"", by simp, rfl, fun _ => rfl⟩
  noMatches := fun _ => rfl

lemma runFetch (h : Paged list s pages) (hrendered : Rendered s pages) {q : String} {offset : ℕ}
    {append rec : Bool} (hbeginning : append = false → offset = 0)
    (hnext : append = true → q = s.currentQuery ∧ offset = s.currentOffset ∧
      s.currentHasMore = true) : Paged list (s.runFetch q offset append rec) pages := by
  refine ⟨fun r hr hlast happend => ?_, fun r hr hlast happend => ?_, h.fetched, h.noMatches⟩
  · obtain rfl := hrendered.eq_of_token hr hlast
    exact hbeginning happend
  · obtain rfl := hrendered.eq_of_token hr hlast
    exact hnext happend

lemma settle (h : Paged list s pages) (token : ℕ) : Paged list (s.settle token) pages where
  beginning r hr := h.beginning r (List.mem_of_mem_filter hr)
  next r hr := h.next r (List.mem_of_mem_filter hr)
  fetched := h.fetched
  noMatches := h.noMatches

/-- There is no next page to wait for when no trace matches. -/
lemma clearFilter (h : Paged list s pages) (hmem : .noMatches ∈ s.rowsEl) :
    Paged list { s with currentQuery := "", debounced := some "" } pages := by
  have hnone := h.noMatches hmem
  obtain ⟨q, hpages, hrows, -⟩ := h.fetched
  refine ⟨h.beginning, fun r hr hlast happend => ?_, ⟨q, hpages, hrows, fun hmore => ?_⟩,
    h.noMatches⟩
  · have hmore := (h.next r hr hlast happend).2.2
    rw [hnone] at hmore
    cases hmore
  · rw [hnone] at hmore
    cases hmore

lemma accepted (h : Paged list s pages) {r : Fetch} {body : Body Item} {t : State Item}
    (hr : r ∈ s.inFlight) (hlast : r.token = s.fetchToken)
    (hserved : body = serve list r.q r.offset) (hacc : State.Accepted (s.settle r.token) r body t) :
    Paged list t ((if r.append then pages else []) ++ [(r.q, body.items)]) := by
  have hnone := hacc.token_ne hlast
  refine ⟨fun r' hr' hlast' => absurd hlast' (hnone r' hr'),
    fun r' hr' hlast' => absurd hlast' (hnone r' hr'),
    ⟨r.q, ?_, ?_, fun _ => hacc.currentQuery.symm⟩, fun hmem => ?_⟩
  · intro p hp
    rcases List.mem_append.mp hp with hp | hp
    · split_ifs at hp with happend
      · obtain ⟨q, hpages, -, hmore⟩ := h.fetched
        obtain ⟨hq, -, hhasMore⟩ := h.next r hr hlast happend
        rw [hpages p hp, hmore hhasMore, hq]
      · cases hp
    · rw [List.mem_singleton.mp hp]
  · rw [hacc.rows, hacc.currentOffset, hserved, ← take_append_serve]
    congr 1
    split_ifs with happend
    · obtain ⟨q, -, hrows, hmore⟩ := h.fetched
      obtain ⟨hq, hoffset, hhasMore⟩ := h.next r hr hlast happend
      rw [hq, hoffset, ← hmore hhasMore]
      exact hrows
    · rw [h.beginning r hr hlast (by simpa using happend), List.take_zero]
  · rw [hacc.currentHasMore, hserved]
    rcases hacc.noMatches hmem with ⟨happend, hempty⟩ | ⟨happend, hmem⟩
    · rw [hserved, h.beginning r hr hlast happend] at hempty
      rw [h.beginning r hr hlast happend]
      exact hasMore_serve_zero hempty
    · have hmore := (h.next r hr hlast happend).2.2
      rw [h.noMatches hmem] at hmore
      cases hmore

/-- Every event keeps the rows the beginning of a list. -/
theorem step {o o' : Observed Item} {e : Event Item} (h : Paged list o.state o.pages)
    (hrendered : Rendered o.state o.pages) (hstep : ServedStep list o e o') :
    Paged list o'.state o'.pages := by
  obtain ⟨hserves, hstep⟩ := hstep
  cases hstep.effect with
  | input q => exact ⟨h.beginning, h.next, h.fetched, h.noMatches⟩
  | @timer q hq =>
    have hfired : Paged list { o.state with debounced := none } o.pages :=
      ⟨h.beginning, h.next, h.fetched, h.noMatches⟩
    exact hfired.runFetch ⟨hrendered.tokens, hrendered.rows⟩ (fun _ => rfl)
      (fun happend => by cases happend)
  | clearFilter hmem => exact h.clearFilter hmem
  | loadMore hmore =>
    exact h.runFetch hrendered (fun happend => by cases happend) (fun _ => ⟨rfl, rfl, hmore⟩)
  | retry => exact h.runFetch hrendered (fun _ => rfl) (fun happend => by cases happend)
  | superseded res hlast => exact h.settle _
  | @failed token res err hres =>
    have hsettled := h.settle token
    exact ⟨hsettled.beginning, hsettled.next, hsettled.fetched, hsettled.noMatches⟩
  | accepted hr hlast hawaits hacc => exact h.accepted hr hlast (hserves _ hawaits) hacc

end Paged

/-- Whatever is clicked and in whatever order the responses arrive, the rows are the beginning of
the list for the query that they were fetched for, and a superseded response leaves them as they
are. -/
theorem rows_eq_take_of_run {list : String → List Item} {es : List (Event Item)}
    {o : Observed Item} (hrun : Run (ServedStep list) .start es o) :
    (o.state.rows = o.pages.flatMap (·.2) ∧ ∃ q, (∀ p ∈ o.pages, p.1 = q) ∧
        o.state.rows = (list q).take o.state.currentOffset) ∧
      ∀ token res o', token ≠ o.state.fetchToken → o.Step (.arrive token res) o' →
        o'.state.rowsEl = o.state.rowsEl := by
  obtain ⟨hrendered, hpaged⟩ : Rendered o.state o.pages ∧ Paged list o.state o.pages :=
    hrun.invariant (I := fun o => Rendered o.state o.pages ∧ Paged list o.state o.pages)
      (P := fun _ => True) (fun _ _ _ _ hstep h => ⟨h.1.step hstep.2, h.2.step h.1 hstep⟩)
      (fun _ _ => trivial) ⟨.initialLoad, .initialLoad list⟩
  obtain ⟨q, hpages, hrows, -⟩ := hpaged.fetched
  refine ⟨⟨hrendered.rows, q, hpages, hrows⟩, fun token res o' hlast hstep => ?_⟩
  cases hstep.effect with
  | superseded res _          => rfl
  | failed err hres           => rfl
  | accepted hr hlast' _ hacc => exact absurd hlast' hlast

/-- The filter is changed before the first page has come, which is then superseded. -/
theorem rows_eq_take_of_run_superseded :
    ∃ (list : String → List ℕ) (es : _) (o : _), Run (ServedStep list) .start es o ∧
      o.pages = [("b", [2])] ∧
      (o.state.rows = o.pages.flatMap (·.2) ∧ ∃ q, (∀ p ∈ o.pages, p.1 = q) ∧
        o.state.rows = (list q).take o.state.currentOffset) ∧
      ∀ token res o', token ≠ o.state.fetchToken → o.Step (.arrive token res) o' →
        o'.state.rowsEl = o.state.rowsEl := by
  let list : String → List ℕ := fun q => if q = "" then [1, 2] else [2]
  let first : Event ℕ := .arrive 1 (.body (serve list "" 0))
  let second : Event ℕ := .arrive 2 (.body (serve list "b" 0))
  let o₁ : Observed ℕ := Observed.start.after (.input "b")
  let o₂ := o₁.after .timer
  let o₃ := o₂.after first
  let o := o₃.after second
  have hrun : Run (ServedStep list) .start [.input "b", .timer, first, second] o :=
    .cons (t := o₁) ⟨trivial, Observed.step_after rfl⟩ <|
      .cons (t := o₂) ⟨trivial, Observed.step_after rfl⟩ <|
        .cons (t := o₃) ⟨by rintro r ⟨⟩; rfl, Observed.step_after rfl⟩ <|
          .single ⟨by rintro r ⟨⟩; rfl, Observed.step_after rfl⟩
  exact ⟨list, _, o, hrun, rfl, rows_eq_take_of_run hrun⟩

/-! ### The last filter -/

/-- A change of the filter, a click on "Load more" or a response with a body. -/
def Event.Plain : Event Item → Prop
  | .input _ | .timer | .loadMore | .arrive _ (.body _) => True
  | _ => False

/-- Without errors an answer has a body. -/
lemma Event.Plain.exists_body {token : ℕ} {res : Response Item}
    (he : (Event.arrive token res).Plain) : ∃ body, res = .body body := by
  cases res with
  | body body => exact ⟨body, rfl⟩
  | _         => cases he

/-- The rows were fetched for the query `q`. -/
def Observed.Belongs (o : Observed Item) (q : String) : Prop :=
  o.pages ≠ [] ∧ ∀ p ∈ o.pages, p.1 = q

/-- A click on "Load more" comes when the list shows the query `q`. -/
def TimelyStep (q : String) (o : Observed Item) (e : Event Item) (o' : Observed Item) : Prop :=
  o.Step e o' ∧ (e = .loadMore → o.state.currentQuery = q)

/-- All rows are for the current query, and so are the rows that "Load more" will append. -/
structure Uniform (o : Observed Item) : Prop where
  rendered : Rendered o.state o.pages
  pages : ∀ p ∈ o.pages, p.1 = o.state.currentQuery
  more : o.state.currentHasMore = true → o.pages ≠ []
  next : ∀ r ∈ o.state.inFlight, r.token = o.state.fetchToken → r.append = true →
    r.q = o.state.currentQuery

/-- The last request is the one of the filter. -/
structure Waiting (q : String) (o : Observed Item) : Prop where
  exists_last : ∃ r ∈ o.state.inFlight, r.token = o.state.fetchToken
  last : ∀ r ∈ o.state.inFlight, r.token = o.state.fetchToken → r.append = false ∧ r.q = q

/-- The list shows the query `q`, and the last request can only append to it. -/
structure Showing (q : String) (o : Observed Item) : Prop where
  currentQuery : o.state.currentQuery = q
  pages : o.pages ≠ []
  last : ∀ r ∈ o.state.inFlight, r.token = o.state.fetchToken → r.append = true

section settling

variable {o o' : Observed Item} {e : Event Item} {es : List (Event Item)} {q q' : String}

lemma Uniform.start : Uniform (Observed.start : Observed Item) where
  rendered := .initialLoad
  pages := by simp [Observed.start]
  more := fun hmore => by cases hmore
  next := by simp [Observed.start, State.initialLoad, State.initial, State.runFetch]

/-- Every request of the filter has the filter's text and replaces the rows. -/
lemma Uniform.eq_of_fired (h : Uniform o) {r : Fetch}
    (hr : r ∈ (o.state.debouncedFilter q).inFlight) (hlast : r.token = o.state.fetchToken + 1) :
    r = ⟨o.state.fetchToken + 1, q, 0, false, false⟩ := by
  have hfired : Rendered { o.state with debounced := none } o.pages :=
    ⟨h.rendered.tokens, h.rendered.rows⟩
  exact hfired.eq_of_token hr hlast

theorem Uniform.step (h : Uniform o) (he : e.Plain) (hstep : o.Step e o') : Uniform o' := by
  have hrendered := h.rendered.step hstep
  cases hstep.effect with
  | input q => exact ⟨hrendered, h.pages, h.more, h.next⟩
  | timer hq =>
    refine ⟨hrendered, h.pages, h.more, fun r hr hlast happend => ?_⟩
    obtain rfl := h.eq_of_fired hr hlast
    cases happend
  | clearFilter hmem | retry => cases he
  | loadMore hmore =>
    refine ⟨hrendered, h.pages, h.more, fun r hr hlast happend => ?_⟩
    obtain rfl := h.rendered.eq_of_token hr hlast
    rfl
  | superseded res hlast =>
    exact ⟨hrendered, h.pages, h.more, fun r hr => h.next r (List.mem_of_mem_filter hr)⟩
  | failed err hres =>
    obtain ⟨body, rfl⟩ := he.exists_body
    exact absurd rfl (hres body)
  | accepted hr hlast hawaits hacc =>
    refine ⟨hrendered, fun p hp => ?_, fun _ => by simp,
      fun r' hr' hlast' => absurd hlast' (hacc.token_ne hlast r' hr')⟩
    rw [hacc.currentQuery]
    rcases List.mem_append.mp hp with hp | hp
    · split_ifs at hp with happend
      · rw [h.pages p hp, h.next _ hr hlast happend]
      · cases hp
    · rw [List.mem_singleton.mp hp]

lemma Uniform.belongs (h : Uniform o) (hpages : o.pages ≠ []) :
    o.Belongs q ↔ o.state.currentQuery = q := by
  constructor
  · rintro ⟨-, hq⟩
    obtain ⟨p, hp⟩ := List.exists_mem_of_ne_nil _ hpages
    rw [← h.pages p hp, hq p hp]
  · rintro rfl
    exact ⟨hpages, h.pages⟩

/-- Without a change of the filter the list keeps its query. -/
lemma Showing.step (hs : Showing q o) (h : Uniform o) (he : e.Plain) (htimer : e ≠ .timer)
    (hstep : o.Step e o') : Showing q o' := by
  cases hstep.effect with
  | input q => exact ⟨hs.currentQuery, hs.pages, hs.last⟩
  | timer hq => exact absurd rfl htimer
  | clearFilter hmem | retry => cases he
  | loadMore hmore =>
    refine ⟨hs.currentQuery, hs.pages, fun r hr hlast => ?_⟩
    obtain rfl := h.rendered.eq_of_token hr hlast
    rfl
  | superseded res hlast =>
    exact ⟨hs.currentQuery, hs.pages, fun r hr => hs.last r (List.mem_of_mem_filter hr)⟩
  | failed err hres =>
    obtain ⟨body, rfl⟩ := he.exists_body
    exact absurd rfl (hres body)
  | accepted hr hlast hawaits hacc =>
    refine ⟨?_, by simp, fun r' hr' hlast' => absurd hlast' (hacc.token_ne hlast r' hr')⟩
    rw [hacc.currentQuery, h.next _ hr hlast (hs.last _ hr hlast), hs.currentQuery]

lemma Showing.of_run (hs : Showing q o) (h : Uniform o) (hplain : ∀ e ∈ es, e.Plain)
    (hlast : .timer ∉ es) (hrun : Run Observed.Step o es o') : Showing q o' := by
  refine (hrun.invariant (I := fun o => Uniform o ∧ Showing q o)
    (P := fun e => e.Plain ∧ e ≠ .timer) ?_ ?_ ⟨h, hs⟩).2
  · rintro o e o' ⟨he, htimer⟩ hstep ⟨h, hs⟩
    exact ⟨h.step he hstep, hs.step h he htimer hstep⟩
  · rintro e he
    exact ⟨hplain e he, fun heq => hlast (heq ▸ he)⟩

/-- A click on "Load more" puts the list back to the query that it shows. -/
lemma Uniform.showing_of_loadMore (h : Uniform o) (hstep : o.Step .loadMore o') :
    Showing o.state.currentQuery o' := by
  cases hstep.effect with
  | loadMore hmore =>
    refine ⟨rfl, h.more hmore, fun r hr hlast => ?_⟩
    obtain rfl := h.rendered.eq_of_token hr hlast
    rfl

/-- Otherwise the filter's request goes on until it is answered. -/
lemma Waiting.step (hw : Waiting q o) (he : e.Plain) (htimer : e ≠ .timer) (hload : e ≠ .loadMore)
    (hstep : o.Step e o') : Waiting q o' ∨ Showing q o' := by
  cases hstep.effect with
  | input q => exact Or.inl ⟨hw.exists_last, hw.last⟩
  | timer hq => exact absurd rfl htimer
  | clearFilter hmem | retry => cases he
  | loadMore hmore => exact absurd rfl hload
  | superseded res hlast =>
    obtain ⟨r, hr, htoken⟩ := hw.exists_last
    refine Or.inl ⟨⟨r, List.mem_filter.mpr ⟨hr, ?_⟩, htoken⟩,
      fun r hr => hw.last r (List.mem_of_mem_filter hr)⟩
    simpa [htoken] using hlast.symm
  | failed err hres =>
    obtain ⟨body, rfl⟩ := he.exists_body
    exact absurd rfl (hres body)
  | accepted hr hlast hawaits hacc =>
    refine Or.inr ⟨?_, by simp, fun r' hr' hlast' => absurd hlast' (hacc.token_ne hlast r' hr')⟩
    rw [hacc.currentQuery, (hw.last _ hr hlast).2]

lemma Observed.Step.det {o₁ o₂ : Observed Item} (h₁ : o.Step e o₁) (h₂ : o.Step e o₂) :
    o₁ = o₂ := by
  obtain ⟨s₁, pages₁⟩ := o₁
  obtain ⟨s₂, pages₂⟩ := o₂
  obtain rfl : s₁ = s₂ := Option.some.inj (h₁.1.symm.trans h₂.1)
  obtain rfl : pages₁ = pages₂ := h₁.2.trans h₂.2.symm
  rfl

/-- A run in which all clicks are timely ends with the filter's query shown or awaited, any other
run with another query. -/
theorem timely_or_lost (hrun : Run Observed.Step o es o') (h : Uniform o)
    (hq : Waiting q o ∨ Showing q o) (hplain : ∀ e ∈ es, e.Plain) (hlast : .timer ∉ es) :
    (Run (TimelyStep q) o es o' ∧ (Waiting q o' ∨ Showing q o')) ∨
      (¬ Run (TimelyStep q) o es o' ∧ ∃ q', q' ≠ q ∧ Showing q' o') := by
  induction hrun with
  | nil o => exact Or.inl ⟨.nil o, hq⟩
  | @cons o o₁ o' e es hstep hrest ih =>
    simp only [List.mem_cons, forall_eq_or_imp, not_or] at hplain hlast
    have htimer : e ≠ .timer := fun heq => hlast.1 heq.symm
    have h₁ := h.step hplain.1 hstep
    by_cases htimely : e = .loadMore → o.state.currentQuery = q
    · have hq₁ : Waiting q o₁ ∨ Showing q o₁ := by
        by_cases hload : e = .loadMore
        · exact Or.inr (htimely hload ▸ h.showing_of_loadMore (hload ▸ hstep))
        · rcases hq with hw | hs
          · exact hw.step hplain.1 htimer hload hstep
          · exact Or.inr (hs.step h hplain.1 htimer hstep)
      rcases ih h₁ hq₁ hplain.2 hlast.2 with ⟨hrun, hq'⟩ | ⟨hrun, hlost⟩
      · exact Or.inl ⟨.cons ⟨hstep, htimely⟩ hrun, hq'⟩
      · refine Or.inr ⟨fun hall => hrun ?_, hlost⟩
        obtain ⟨t, ⟨hstep', -⟩, hall⟩ := Run.cons_iff.mp hall
        exact hstep.det hstep' ▸ hall
    · obtain ⟨hload, hne⟩ := Classical.not_imp.mp htimely
      have hs : Showing o.state.currentQuery o₁ := h.showing_of_loadMore (hload ▸ hstep)
      refine Or.inr ⟨fun hall => ?_, _, hne, hs.of_run h₁ hplain.2 hlast.2 hrest⟩
      obtain ⟨t, ⟨-, htimely'⟩, -⟩ := Run.cons_iff.mp hall
      exact htimely htimely'

/-- Once all requests are answered, the rows are for the query of the last change of the filter if
and only if every later click on "Load more" came when the list already showed that query. -/
theorem belongs_iff_of_run {es₁ es₂ : List (Event Item)} {o₁ o₂ o₃ : Observed Item} {q : String}
    (hplain : ∀ e ∈ es₁ ++ es₂, e.Plain) (hrun₁ : Run Observed.Step .start es₁ o₁)
    (hq : o₁.state.debounced = some q) (hfire : o₁.Step .timer o₂)
    (hrun₂ : Run Observed.Step o₂ es₂ o₃) (hlast : .timer ∉ es₂)
    (hidle : o₃.state.inFlight = []) :
    o₃.state.rows = o₃.pages.flatMap (·.2) ∧ (o₃.Belongs q ↔ Run (TimelyStep q) o₂ es₂ o₃) := by
  have hplain₁ : ∀ e ∈ es₁, e.Plain := fun e he => hplain e (List.mem_append_left _ he)
  have hplain₂ : ∀ e ∈ es₂, e.Plain := fun e he => hplain e (List.mem_append_right _ he)
  have h₁ : Uniform o₁ := hrun₁.invariant (I := Uniform) (P := Event.Plain)
    (fun _ _ _ he hstep h => h.step he hstep) hplain₁ .start
  have h₂ : Uniform o₂ := h₁.step (e := .timer) trivial hfire
  have h₃ : Uniform o₃ := hrun₂.invariant (I := Uniform) (P := Event.Plain)
    (fun _ _ _ he hstep h => h.step he hstep) hplain₂ h₂
  have hwaiting : Waiting q o₂ := by
    cases hfire.effect with
    | timer hq' =>
      obtain rfl := Option.some.inj (hq.symm.trans hq')
      refine ⟨⟨_, (State.mem_inFlight_runFetch _).mpr (Or.inr rfl), rfl⟩, fun r hr htoken => ?_⟩
      obtain rfl := h₁.eq_of_fired hr htoken
      exact ⟨rfl, rfl⟩
  refine ⟨h₃.rendered.rows, ?_⟩
  rcases timely_or_lost hrun₂ h₂ (Or.inl hwaiting) hplain₂ hlast with
    ⟨htimely, hw | hs⟩ | ⟨hlate, q', hne, hs⟩
  · obtain ⟨r, hr, -⟩ := hw.exists_last
    rw [hidle] at hr
    cases hr
  · exact iff_of_true ((h₃.belongs hs.pages).mpr hs.currentQuery) htimely
  · refine iff_of_false (fun hbelongs => hne ?_) hlate
    rw [← hs.currentQuery, (h₃.belongs hs.pages).mp hbelongs]

end settling

/-- The page of 101 traces, of which one matches "foo". -/
def oneMatches (q : String) : List ℕ := if q = "" then List.range 101 else [7]

/-- The filter is changed when the first page has come, and nothing is clicked. -/
theorem belongs_iff_of_run_filtered :
    ∃ (es₁ es₂ : List (Event ℕ)) (o₁ o₂ o₃ : Observed ℕ), (∀ e ∈ es₁ ++ es₂, e.Plain) ∧
      Run (ServedStep oneMatches) .start es₁ o₁ ∧ o₁.state.debounced = some "foo" ∧
      o₁.Step .timer o₂ ∧ Run (ServedStep oneMatches) o₂ es₂ o₃ ∧ .timer ∉ es₂ ∧
      o₃.state.inFlight = [] ∧ o₃.state.rows = o₃.pages.flatMap (·.2) ∧ o₃.Belongs "foo" := by
  let first : Event ℕ := .arrive 1 (.body (serve oneMatches "" 0))
  let second : Event ℕ := .arrive 2 (.body (serve oneMatches "foo" 0))
  let s₁ := Observed.start.after first
  let o₁ := s₁.after (.input "foo")
  let o₂ := o₁.after .timer
  let o₃ := o₂.after second
  have hstep₁ : ServedStep oneMatches .start first s₁ :=
    ⟨by rintro r ⟨⟩; rfl, Observed.step_after rfl⟩
  have hinput : ServedStep oneMatches s₁ (.input "foo") o₁ := ⟨trivial, Observed.step_after rfl⟩
  have hfire : o₁.Step .timer o₂ := Observed.step_after rfl
  have hstep₂ : ServedStep oneMatches o₂ second o₃ :=
    ⟨by rintro r ⟨⟩; rfl, Observed.step_after rfl⟩
  have hplain : ∀ e ∈ [first, .input "foo"] ++ [second], e.Plain := by
    simp [first, second, Event.Plain]
  have hiff := belongs_iff_of_run hplain (.cons hstep₁.2 (.single hinput.2)) rfl hfire
    (.single hstep₂.2) (by simp [second]) rfl
  refine ⟨_, _, o₁, o₂, o₃, hplain, .cons hstep₁ (.single hinput), rfl, hfire, .single hstep₂,
    by simp [second], rfl, hiff.1, hiff.2.mpr (.single ⟨hstep₂.2, by simp [second]⟩)⟩

/-- "Load more" is clicked while the filter's request is on its way. The page ends with the rows of
the old query, and nothing is left that could change them. -/
theorem not_belongs :
    ∃ (es₁ es₂ : List (Event ℕ)) (o₁ o₂ o₃ : Observed ℕ), (∀ e ∈ es₁ ++ es₂, e.Plain) ∧
      Run (ServedStep oneMatches) .start es₁ o₁ ∧ o₁.state.debounced = some "foo" ∧
      o₁.Step .timer o₂ ∧ Run (ServedStep oneMatches) o₂ es₂ o₃ ∧ .timer ∉ es₂ ∧
      o₃.state.inFlight = [] ∧ o₃.state.debounced = none ∧
      o₃.state.rows = List.range 101 ∧ ¬ o₃.Belongs "foo" := by
  let first : Event ℕ := .arrive 1 (.body (serve oneMatches "" 0))
  let second : Event ℕ := .arrive 2 (.body (serve oneMatches "foo" 0))
  let third : Event ℕ := .arrive 3 (.body (serve oneMatches "" 100))
  let s₁ := Observed.start.after first
  let o₁ := s₁.after (.input "foo")
  let o₂ := o₁.after .timer
  let s₂ := o₂.after .loadMore
  let s₃ := s₂.after second
  let o₃ := s₃.after third
  have hrun₁ : Run (ServedStep oneMatches) .start [first, .input "foo"] o₁ :=
    .cons (t := s₁) ⟨by rintro r ⟨⟩; rfl, Observed.step_after rfl⟩ <|
      .single ⟨trivial, Observed.step_after rfl⟩
  have hrun₂ : Run (ServedStep oneMatches) o₂ [.loadMore, second, third] o₃ :=
    .cons (t := s₂) ⟨trivial, Observed.step_after rfl⟩ <|
      .cons (t := s₃) ⟨by rintro r ⟨⟩; rfl, Observed.step_after rfl⟩ <|
        .single ⟨by rintro r ⟨⟩; rfl, Observed.step_after rfl⟩
  refine ⟨_, _, o₁, o₂, o₃, ?_, hrun₁, rfl, Observed.step_after rfl, hrun₂, ?_, rfl, rfl, ?_, ?_⟩
  · simp [first, second, third, Event.Plain]
  · simp [second, third]
  · decide +kernel
  · rintro ⟨-, hall⟩
    have hmem : ("", (serve oneMatches "" 0).items) ∈ o₃.pages := by decide +kernel
    exact absurd (hall _ hmem) (by decide)

end TraceList

end PhpTreeViz
