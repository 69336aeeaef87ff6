import PhpTreeViz.Viz.Sort

/-!
# Search hits

What a search finds is kept as positions in the row list. A new search and a new tree find it
again, but an expand or a collapse moves the rows that follow and leaves the positions as they are.
-/

namespace PhpTreeViz

open Core

namespace Detail

/-! ### The operations -/

namespace Page

/-- The remainder has the sign of the dividend. -/
def stepMatch (p : Page) (direction : ℤ) : Page :=
  if p.currentMatches.length = 0 then p
  else
    { p with
      currentMatchIndex := (p.currentMatchIndex + direction + p.currentMatches.length).tmod
        p.currentMatches.length }

/-- The end of `applySort` or `main` in an error, which is shown to the user. -/
def treeFailed (p : Page) (f : TreeFetch) : Page :=
  { p with inFlight := p.inFlight.filter (· ≠ f) }

def onChevronClick (p : Page) (nodeId : ℕ) : Page :=
  { p with tree := p.tree.onChevronClick nodeId }

def childrenArrived (p : Page) (q : Request) (nodes : List ApiNode) : Page :=
  { p with tree := p.tree.childrenArrived q nodes }

def childrenFailed (p : Page) (q : Request) : Page := { p with tree := p.tree.childrenFailed q }

/-- Nothing is being fetched. -/
def Idle (p : Page) : Prop := p.inFlight = [] ∧ p.tree.inFlight = []

end Page

/-- An operation, with what the server answers -/
inductive Operation where
  | load (nodes : List ApiNode)
  | loadFailed
  | applySearch (q : List UInt16)
  | stepMatch (direction : ℤ)
  | click (nodeId : ℕ)
  | expand (nodeId : ℕ) (nodes : List ApiNode)
  | expandFailed (nodeId : ℕ)
  | applySort (newSort : SortKey) (nodes : List ApiNode)
  | applySortFailed (newSort : SortKey)

/-- The operations, each of which ends before the next one starts. A `click` is one that fetches
nothing: it collapses the row, or shows it as expanded. -/
inductive OperationStep [JsString] (fqn : ℕ → Option (List UInt16)) (tree : CallTree) :
    Page → Operation → Page → Prop where
  | load {nodes : List ApiNode} : tree.Part nodes →
      OperationStep fqn tree .main (.load nodes)
        (Page.main.treeArrived fqn ⟨0, .totalWallDesc⟩ nodes)
  | loadFailed :
      OperationStep fqn tree .main .loadFailed (Page.main.treeFailed ⟨0, .totalWallDesc⟩)
  | applySearch {p : Page} {q : List UInt16} : p.Idle →
      OperationStep fqn tree p (.applySearch q) (p.applySearch fqn q)
  | stepMatch {p : Page} {direction : ℤ} : p.Idle → direction = 1 ∨ direction = -1 →
      OperationStep fqn tree p (.stepMatch direction) (p.stepMatch direction)
  | click {p : Page} {nodeId : ℕ} : p.Idle → (p.onChevronClick nodeId).tree.inFlight = [] →
      OperationStep fqn tree p (.click nodeId) (p.onChevronClick nodeId)
  | expand {p : Page} {nodeId : ℕ} {q : Request} {nodes : List ApiNode} : p.Idle →
      (p.onChevronClick nodeId).tree.inFlight = [q] → tree.Children q.nodeId nodes →
      OperationStep fqn tree p (.expand nodeId nodes)
        ((p.onChevronClick nodeId).childrenArrived q nodes)
  | expandFailed {p : Page} {nodeId : ℕ} {q : Request} : p.Idle →
      (p.onChevronClick nodeId).tree.inFlight = [q] →
      OperationStep fqn tree p (.expandFailed nodeId) ((p.onChevronClick nodeId).childrenFailed q)
  | applySort {p : Page} {newSort : SortKey} {nodes : List ApiNode} : p.Idle → tree.Part nodes →
      OperationStep fqn tree p (.applySort newSort nodes)
        ((p.applySort newSort).treeArrived fqn ⟨p.sent, newSort⟩ nodes)
  | applySortFailed {p : Page} {newSort : SortKey} : p.Idle →
      OperationStep fqn tree p (.applySortFailed newSort)
        ((p.applySort newSort).treeFailed ⟨p.sent, newSort⟩)

/-! ### What the positions should be -/

/-- Every position is that of a row whose name contains the query, and the current one is one of
them, if there are any. -/
structure HitsValid [JsString] (fqn : ℕ → Option (List UInt16)) (p : Page) : Prop where
  hit : ∀ i ∈ p.currentMatches, ∃ row name, p.tree.rows[i]? = some row ∧
    fqn row.nodeId = some name ∧
    JsString.toLowerCase p.currentQuery <:+: JsString.toLowerCase name
  none : p.currentMatchIndex = -1 ↔ p.currentMatches = []
  index : p.currentMatches ≠ [] →
    0 ≤ p.currentMatchIndex ∧ p.currentMatchIndex < p.currentMatches.length

/-- A click on this row removes rows: it is expanded, and the next one is deeper. -/
def State.Removes (s : State) (nodeId : ℕ) : Prop :=
  ∃ row next, s.rows[s.clicked nodeId]? = some row ∧ row.loadingChildren = false ∧
    row.expanded = true ∧ s.rows[s.clicked nodeId + 1]? = some next ∧
    row.indentDepthForUi < next.indentDepthForUi

/-- No rows are inserted or removed above a hit. -/
def KeepsHits (p : Page) : Operation → Prop
  | .click nodeId        =>
    p.tree.Removes nodeId → ∀ i ∈ p.currentMatches, i ≤ p.tree.clicked nodeId
  | .expand nodeId nodes =>
    nodes ≠ [] → ∀ i ∈ p.currentMatches, i ≤ p.tree.clicked nodeId
  | _                    => True

/-! ### Rows that stay where they are -/

namespace State

variable {s : State} {q : Request} {row : Row} {nodes : List ApiNode} {nodeId idx i : ℕ}

lemma places_collapseAt_eq (s : State) (idx : ℕ) (row : Row) :
    ∃ count, (s.collapseAt idx row).places =
        s.places.take (idx + 1) ++ s.places.drop (idx + 1 + count) ∧
      (count ≠ 0 → ∃ next, s.rows[idx + 1]? = some next ∧
        row.indentDepthForUi < next.indentDepthForUi) := by
  set deeper : Row → Bool := fun r => r.indentDepthForUi > row.indentDepthForUi with hdeeper
  refine ⟨((s.rows.drop (idx + 1)).takeWhile deeper).length, ?_, fun hcount => ?_⟩
  · rw [collapseAt, places_assign]
    · simp only [places, removeRowsAt, rows_abortInFlight, List.map_append, List.map_take,
        List.map_drop]
      rfl
    · exact fun _ => rfl
  · cases hnext : s.rows[idx + 1]? with
    | none =>
      rw [List.drop_eq_nil_of_le (List.getElem?_eq_none_iff.mp hnext)] at hcount
      exact absurd rfl hcount
    | some next =>
      refine ⟨next, rfl, ?_⟩
      obtain ⟨hlt, hget⟩ := List.getElem?_eq_some_iff.mp hnext
      rw [List.drop_eq_getElem_cons hlt, hget, List.takeWhile_cons] at hcount
      by_contra hnot
      refine hcount ?_
      rw [if_neg]
      · rfl
      · simpa [hdeeper] using hnot

/-- A click leaves the rows in place up to the one that it is about, and all rows if it removes
none. -/
lemma getElem?_onChevronClick (h : s.Removes nodeId → i ≤ s.clicked nodeId) :
    (s.onChevronClick nodeId).places[i]? = s.places[i]? := by
  cases hrow : s.rows[s.clicked nodeId]? with
  | none => rw [onChevronClick_none hrow]
  | some stored =>
    rw [onChevronClick_some hrow]
    split_ifs with hloading hexpanded hloaded
    · rw [places_assign]
      · rw [places, rows_abortInFlight, places]
      · exact fun _ => rfl
    · obtain ⟨count, hplaces, hnext⟩ := places_collapseAt_eq s (s.clicked nodeId) stored
      rw [hplaces]
      by_cases hcount : count = 0
      · rw [hcount, Nat.add_zero, List.take_append_drop]
      · obtain ⟨next, hnext, hdeeper⟩ := hnext hcount
        have hi := h ⟨stored, next, hrow, by simpa using hloading, hexpanded, hnext, hdeeper⟩
        have hlt := (List.getElem?_eq_some_iff.mp hrow).1
        have hlength : s.places.length = s.rows.length := List.length_map ..
        rw [List.getElem?_append_left, List.getElem?_take_of_lt (by omega)]
        rw [List.length_take]
        omega
    · rw [places_assign]
      · rw [places_clearLoadError]
      · exact fun _ => rfl
    · exact congrArg (·[i]?) (places_loadChildren.trans places_clearLoadError)

lemma inFlight_abortInFlight (h : s.inFlight = []) : (s.abortInFlight nodeId).inFlight = [] := by
  have hnone := @map_inFlight_abortInFlight s nodeId _ Request.idx fun _ => rfl
  rwa [h, List.map_nil, List.map_eq_nil_iff] at hnone

/-- A click that sends a request leaves all rows in place, and the request keeps the index. -/
lemma request_onChevronClick (h : s.inFlight = [])
    (hq : (s.onChevronClick nodeId).inFlight = [q]) :
    q.idx = s.clicked nodeId ∧ (s.onChevronClick nodeId).places = s.places := by
  cases hrow : s.rows[s.clicked nodeId]? with
  | none =>
    rw [onChevronClick_none hrow, h] at hq
    cases hq
  | some stored =>
    have hclear : (s.clearLoadError stored).inFlight = [] := inFlight_clearLoadError.trans h
    rw [onChevronClick_some hrow] at hq ⊢
    split_ifs at hq ⊢
    · exact absurd (hq.symm.trans (inFlight_abortInFlight h)) (List.cons_ne_nil _ _)
    · exact absurd (hq.symm.trans (inFlight_abortInFlight h)) (List.cons_ne_nil _ _)
    · exact absurd (hq.symm.trans hclear) (List.cons_ne_nil _ _)
    · refine ⟨?_, places_loadChildren.trans places_clearLoadError⟩
      have hload : ((s.clearLoadError stored).loadChildren (s.clicked nodeId) stored).inFlight =
          (s.clearLoadError stored).inFlight ++ [_] := rfl
      rw [hload, hclear] at hq
      cases hq
      rfl

end State

/-! ### One operation -/

section hits

variable [JsString] {fqn : ℕ → Option (List UInt16)} {tree : CallTree} {p t : Page} {q : Request}
  {o : Operation} {os : List Operation} {nodes : List ApiNode} {nodeId : ℕ}

/-- The positions stay valid if the rows at them stay in place. -/
lemma HitsValid.of_places (h : HitsValid fqn p) {s : State}
    (hplaces : ∀ i ∈ p.currentMatches, s.places[i]? = p.tree.places[i]?) :
    HitsValid fqn { p with tree := s } := by
  refine ⟨fun i hi => ?_, h.none, h.index⟩
  obtain ⟨row, name, hrow, hname⟩ := h.hit i hi
  have hplace := hplaces i hi
  rw [State.places, State.places, List.getElem?_map, List.getElem?_map, hrow] at hplace
  obtain ⟨row', hrow', heq⟩ := Option.map_eq_some_iff.mp hplace
  refine ⟨row', name, hrow', ?_⟩
  rw [heq]
  exact hname

lemma hitsValid_of_nil (hmatches : p.currentMatches = []) (hindex : p.currentMatchIndex = -1) :
    HitsValid fqn p := by
  constructor
  · intro i hi
    rw [hmatches] at hi
    cases hi
  · exact iff_of_true hindex hmatches
  · exact fun hne => absurd hmatches hne

/-- What a search finds are the positions of rows whose names contain the query. -/
lemma exists_row_of_mem_findMatches {ρ : Type*} {name : ρ → Option (List UInt16)} {rows : List ρ}
    {query : List UInt16} {i : ℕ} (hquery : query ≠ [])
    (h : i ∈ Search.findMatches name rows query) :
    ∃ row s, rows[i]? = some row ∧ name row = some s ∧
      JsString.toLowerCase query <:+: JsString.toLowerCase s := by
  have hname : ∃ s, rows[i]?.bind name = some s := by
    rw [Search.findMatches, if_neg hquery, List.mem_filter] at h
    cases hs : rows[i]?.bind name with
    | none =>
      rw [hs] at h
      exact absurd h.2 Bool.false_ne_true
    | some s => exact ⟨s, rfl⟩
  obtain ⟨s, hs⟩ := hname
  obtain ⟨row, hrow, hrow'⟩ := Option.bind_eq_some_iff.mp hs
  refine ⟨row, s, hrow, hrow', (includes_iff (Search.toLowerCase_ne_nil hquery)).mp ?_⟩
  exact (Search.mem_findMatches_iff hquery hs).mp h

lemma HitsValid.applySearch (h : HitsValid fqn p)
    (hnone : p.hasVirtualizer = false → p.currentMatches = []) (query : List UInt16) :
    HitsValid fqn (p.applySearch fqn query) := by
  rw [Page.applySearch]
  by_cases hvirtualizer : p.hasVirtualizer
  · simp only [hvirtualizer, Bool.not_true, Bool.false_eq_true, if_false]
    split_ifs with hquery hpos
    · exact hitsValid_of_nil rfl rfl
    · refine ⟨fun i hi => exists_row_of_mem_findMatches hquery hi, ?_, fun _ => ⟨le_rfl, ?_⟩⟩
      · have hne : (0 : ℤ) ≠ -1 := by decide
        exact iff_of_false hne (List.length_pos_iff.mp hpos)
      · exact Int.natCast_pos.mpr hpos
    · exact hitsValid_of_nil (List.length_eq_zero_iff.mp (Nat.le_zero.mp (not_lt.mp hpos))) rfl
  · simp only [Bool.not_eq_true] at hvirtualizer
    simp only [hvirtualizer, Bool.not_false, if_true]
    have hmatches := hnone hvirtualizer
    exact hitsValid_of_nil hmatches (h.none.mpr hmatches)

/-- A step to either side stays on the list of hits, around its ends. -/
lemma HitsValid.stepMatch (h : HitsValid fqn p) {direction : ℤ}
    (hdirection : direction = 1 ∨ direction = -1) : HitsValid fqn (p.stepMatch direction) := by
  rw [Page.stepMatch]
  split_ifs with hzero
  · exact h
  · have hne : p.currentMatches ≠ [] := fun hnil => hzero (by rw [hnil, List.length_nil])
    obtain ⟨hge, hlt⟩ := h.index hne
    have hpos : (0 : ℤ) < p.currentMatches.length := by omega
    have hindex : 0 ≤ (p.currentMatchIndex + direction + p.currentMatches.length).tmod
        p.currentMatches.length := Int.tmod_nonneg _ (by omega)
    refine ⟨h.hit, iff_of_false ?_ hne, fun _ => ⟨hindex, Int.tmod_lt_of_pos _ hpos⟩⟩
    intro hminus
    have := hindex.trans_eq hminus
    omega

lemma HitsValid.onChevronClick (h : HitsValid fqn p) (hkeeps : KeepsHits p (.click nodeId)) :
    HitsValid fqn (p.onChevronClick nodeId) :=
  h.of_places fun i hi => State.getElem?_onChevronClick fun hremoves => hkeeps hremoves i hi

/-- The rows are in place up to the row that is expanded. -/
lemma HitsValid.expand (h : HitsValid fqn p) (hidle : p.tree.inFlight = [])
    (hq : (p.onChevronClick nodeId).tree.inFlight = [q])
    (hkeeps : KeepsHits p (.expand nodeId nodes)) :
    HitsValid fqn ((p.onChevronClick nodeId).childrenArrived q nodes) := by
  obtain ⟨hidx, hplaces⟩ := State.request_onChevronClick hidle hq
  refine h.of_places fun i hi => ?_
  change ((p.tree.onChevronClick nodeId).childrenArrived q nodes).places[i]? = _
  obtain ⟨row, -, hrow, -⟩ := h.hit i hi
  have hlt := (List.getElem?_eq_some_iff.mp hrow).1
  have hlength : p.tree.places.length = p.tree.rows.length := List.length_map ..
  by_cases htoken : (p.tree.onChevronClick nodeId).expandTokens q.nodeId = q.token
  · rw [places_childrenArrived htoken, hplaces]
    by_cases hnodes : nodes = []
    · rw [hnodes, childPlaces, List.map_nil, List.append_nil, List.take_append_drop]
    · have hle := hkeeps hnodes i hi
      rw [List.append_assoc, List.getElem?_append_left, List.getElem?_take_of_lt (by omega)]
      rw [List.length_take]
      omega
  · rw [State.childrenArrived_stale htoken, State.places_settle, hplaces]

lemma HitsValid.expandFailed (h : HitsValid fqn p) (hidle : p.tree.inFlight = [])
    (hq : (p.onChevronClick nodeId).tree.inFlight = [q]) :
    HitsValid fqn ((p.onChevronClick nodeId).childrenFailed q) := by
  refine h.of_places fun i _ => ?_
  change ((p.tree.onChevronClick nodeId).childrenFailed q).places[i]? = _
  rw [places_childrenFailed, (State.request_onChevronClick hidle hq).2]

/-- A new tree is searched again. -/
lemma hitsValid_treeArrived {f : TreeFetch} (hf : f.number ≠ 0) :
    HitsValid fqn (p.treeArrived fqn f nodes) := by
  rw [Page.treeArrived]
  simp only [if_neg hf]
  split_ifs
  · exact HitsValid.applySearch (hitsValid_of_nil rfl rfl) (fun _ => rfl) _
  · exact hitsValid_of_nil rfl rfl

/-- Before the tree has arrived nothing is found, and `main` has sent its request. -/
structure Page.Begun (p : Page) : Prop where
  none : p.hasVirtualizer = false → p.currentMatches = []
  sent : p.sent ≠ 0

lemma begun_treeArrived (f : TreeFetch) (nodes : List ApiNode) (hsent : p.sent ≠ 0) :
    (p.treeArrived fqn f nodes).Begun := by
  obtain ⟨found, index, heq⟩ := @treeArrived_eq _ fqn p f nodes
  rw [heq]
  exact ⟨nofun, hsent⟩

lemma Page.Begun.step (hp : p.Begun) (h : OperationStep fqn tree p o t) : t.Begun := by
  cases h with
  | load => exact begun_treeArrived _ _ hp.sent
  | loadFailed => exact ⟨hp.none, hp.sent⟩
  | applySearch =>
    rw [Page.applySearch]
    split_ifs with hvirtualizer
    · exact ⟨hp.none, hp.sent⟩
    · exact ⟨fun _ => rfl, hp.sent⟩
    · exact ⟨fun hfalse => absurd (by simpa using hfalse) hvirtualizer, hp.sent⟩
  | stepMatch =>
    rw [Page.stepMatch]
    split_ifs
    · exact hp
    · exact ⟨hp.none, hp.sent⟩
  | click => exact ⟨hp.none, hp.sent⟩
  | expand => exact ⟨hp.none, hp.sent⟩
  | expandFailed => exact ⟨hp.none, hp.sent⟩
  | applySort => exact begun_treeArrived _ _ (Nat.succ_ne_zero _)
  | applySortFailed => exact ⟨hp.none, Nat.succ_ne_zero _⟩

lemma hitsValid_of_step (hp : p.Begun) (h : HitsValid fqn p) (hkeeps : KeepsHits p o)
    (hstep : OperationStep fqn tree p o t) : HitsValid fqn t := by
  cases hstep with
  | load => exact hitsValid_of_nil rfl rfl
  | loadFailed => exact hitsValid_of_nil rfl rfl
  | applySearch => exact h.applySearch hp.none _
  | stepMatch _ hdirection => exact h.stepMatch hdirection
  | click => exact h.onChevronClick hkeeps
  | expand hidle hq => exact h.expand hidle.2 hq hkeeps
  | expandFailed hidle hq => exact h.expandFailed hidle.2 hq
  | applySort => exact hitsValid_treeArrived hp.sent
  | applySortFailed => exact ⟨h.hit, h.none, h.index⟩

/-- The positions are valid in every state that is reached by operations which insert and remove no
rows above a hit. -/
theorem hitsValid_of_run
    (hrun : Run (fun p o t => OperationStep fqn tree p o t ∧ KeepsHits p o) .main os t) :
    HitsValid fqn t := by
  have hstart : Page.main.Begun ∧ HitsValid fqn .main :=
    ⟨⟨fun _ => rfl, Nat.one_ne_zero⟩, hitsValid_of_nil rfl rfl⟩
  refine (hrun.invariant (I := fun p => p.Begun ∧ HitsValid fqn p) (P := fun _ => True)
    ?_ (fun _ _ => trivial) hstart).2
  rintro p o t - ⟨hstep, hkeeps⟩ ⟨hbegun, hvalid⟩
  exact ⟨hbegun.step hstep, hitsValid_of_step hbegun hvalid hkeeps hstep⟩

end hits

/-! ### A hit below the row that is expanded -/

/-- The node 4 is called "aB", the others "a". -/
def named (nodeId : ℕ) : Option (List UInt16) :=
  if nodeId = 4 then some [0x61, 0x42] else some [0x61]

/-- The row that was found is expanded itself. -/
theorem hitsValid_of_run_expand : ∃ t,
    Run (@OperationStep Search.dotted named sampleTree) .main
      [.load sampleNodes, .applySearch [0x62], .expand 4 [⟨6, some 4, false, false, default⟩]] t ∧
    t.currentMatches = [2] ∧ @HitsValid Search.dotted named t := by
  have hrun : Run (fun p o t => @OperationStep Search.dotted named sampleTree p o t ∧ KeepsHits p o)
      .main [.load sampleNodes, .applySearch [0x62],
        .expand 4 [⟨6, some 4, false, false, default⟩]] _ :=
    .cons ⟨@OperationStep.load Search.dotted _ _ _ part_sampleNodes, trivial⟩
      (.cons ⟨@OperationStep.applySearch Search.dotted _ _ _ _ ⟨rfl, rfl⟩, trivial⟩
        (.cons ⟨@OperationStep.expand Search.dotted _ _ _ _ ⟨4, 1, 2, 2, 1, false⟩ _ ⟨rfl, rfl⟩ rfl
          children_four, fun _ => by decide⟩ (.nil _)))
  exact ⟨_, hrun.map (f := id) fun _ _ _ h => h.1, by decide,
    @hitsValid_of_run Search.dotted _ _ _ _ hrun⟩

/-- Its position is then that of the row that was inserted. -/
theorem not_hitsValid :
    ¬ ∀ (fqn : ℕ → Option (List UInt16)) (tree : CallTree) (os : List Operation) (t : Page),
      Run (@OperationStep Search.dotted fqn tree) .main os t → @HitsValid Search.dotted fqn t := by
  intro h
  obtain ⟨t, hrun, hmatches, hquery, hid⟩ : ∃ t,
      Run (@OperationStep Search.dotted named sampleTree) .main
        [.load sampleNodes, .applySearch [0x62], .expand 3 [⟨5, some 3, false, false, default⟩]] t ∧
      t.currentMatches = [2] ∧ t.currentQuery = [0x62] ∧
      (t.tree.rows[2]?).map (·.nodeId) = some 5 :=
    ⟨_, .cons (@OperationStep.load Search.dotted _ _ _ part_sampleNodes)
      (.cons (@OperationStep.applySearch Search.dotted _ _ _ _ ⟨rfl, rfl⟩)
        (.cons (@OperationStep.expand Search.dotted _ _ _ _ ⟨3, 1, 1, 1, 1, false⟩ _ ⟨rfl, rfl⟩ rfl
          children_three) (.nil _))), by decide, by decide, by decide⟩
  obtain ⟨row, name, hrow, hname, hinfix⟩ :=
    @HitsValid.hit Search.dotted _ _ (h named sampleTree _ t hrun) 2 (by simp [hmatches])
  rw [hrow] at hid
  have hid : row.nodeId = 5 := Option.some.inj hid
  rw [hid] at hname
  obtain rfl : [0x61] = name := Option.some.inj hname
  rw [hquery] at hinfix
  revert hinfix
  decide

end Detail

end PhpTreeViz
