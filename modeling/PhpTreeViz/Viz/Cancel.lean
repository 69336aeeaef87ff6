import PhpTreeViz.Viz.Keyboard

/-!
# Cancelling an expand

A click on the chevron of a row that is loading cancels the request for its children. The cancel
does not end the request: its fetch is rejected with an abort later on, unless the response has
come first. Here the requests that were aborted are settled like all others, and it is worked out
when the row that was cancelled stays closed.
-/

namespace PhpTreeViz

open Core

namespace Detail

/-! ### What a fetch comes to -/

structure JsError where
  name : String
  message : String
  status : Option ℕ

/-- A fetch is rejected, with the error of an abort for instance, or resolves to a response. If its
body is JSON, these are its nodes, none if it has no `nodes`. -/
inductive Fetched where
  | rejected (err : JsError)
  | response (status : ℕ) (body : Option (List ApiNode))

def apiNetworkError (message : String) (status : ℕ) : JsError :=
  ⟨"ApiNetworkError", message, some status⟩

def parseBody (status : ℕ) (body : Option (List ApiNode)) : Option (List ApiNode) :=
  if status = 204 then none else body

def apiFetch : Fetched → Except JsError (Option (List ApiNode))
  | .rejected err =>
    .error (apiNetworkError
      (if err.message = "" then "network error" else "network error: " ++ err.message) 0)
  | .response status body =>
    if status = 401 then .error (apiNetworkError "session required" 401)
    else if ¬ (200 ≤ status ∧ status < 300) ∧ status ≠ 204 then
      .error (apiNetworkError ("request failed with status " ++ toString status) status)
    else .ok (parseBody status body)

/-- What reading a property of `null` throws. -/
def typeError : JsError := ⟨"TypeError", "Cannot read properties of null", none⟩

/-- The nodes that a fetch brings. -/
def Fetched.nodes? (fetched : Fetched) : Option (List ApiNode) :=
  match apiFetch fetched with
  | .error _ => none
  | .ok body => body

/-! ### The end of a request -/

namespace State

/-- The `catch` clause of `loadChildren`. -/
def childrenCaught (s : State) (q : Request) (err : JsError) : State :=
  if err.name = "AbortError" then s.settle q else s.childrenFailed q

/-- `loadChildren` from its `await` on. -/
def childrenSettled (s : State) (q : Request) (fetched : Fetched) : State :=
  match apiFetch fetched with
  | .error err => s.childrenCaught q err
  | .ok body   =>
    if s.expandTokens q.nodeId ≠ q.token then s.settle q
    else
      match body with
      | none       => s.childrenCaught q typeError
      | some nodes => s.childrenArrived q nodes

end State

lemma name_of_apiFetch_eq_error {fetched : Fetched} {err : JsError}
    (h : apiFetch fetched = .error err) : err.name = "ApiNetworkError" := by
  cases fetched with
  | rejected =>
    cases h
    rfl
  | response status body =>
    rw [apiFetch] at h
    split_ifs at h
    · cases h
      rfl
    · cases h
      rfl

/-- The `catch` clause never sees an abort: a request that brings no nodes has failed. -/
theorem childrenSettled_eq (s : State) (q : Request) (fetched : Fetched) :
    s.childrenSettled q fetched =
      match fetched.nodes? with
      | none       => s.childrenFailed q
      | some nodes => s.childrenArrived q nodes := by
  rw [State.childrenSettled, Fetched.nodes?]
  cases hfetch : apiFetch fetched with
  | error err =>
    apply if_neg
    rw [name_of_apiFetch_eq_error hfetch]
    decide
  | ok body =>
    simp only
    by_cases htoken : s.expandTokens q.nodeId ≠ q.token
    · rw [if_pos htoken]
      cases body with
      | none => exact (State.childrenFailed_stale htoken).symm
      | some nodes => exact (State.childrenArrived_stale htoken).symm
    · rw [if_neg htoken]
      cases body with
      | none => exact if_neg (by decide)
      | some nodes => rfl

/-! ### Runs -/

inductive RaceEvent where
  | click (nodeId : ℕ)
  | settle (q : Request) (fetched : Fetched)
  | sort (nodes : List ApiNode)

/-- As `Step`, but a request that was aborted may be answered all the same. -/
inductive RaceStep (tree : CallTree) : State → RaceEvent → State → Prop where
  | click {s : State} {nodeId : ℕ} : RaceStep tree s (.click nodeId) (s.onChevronClick nodeId)
  | settle {s : State} {q : Request} {fetched : Fetched} :
      q ∈ s.inFlight →
      (∀ nodes, fetched.nodes? = some nodes → tree.Children q.nodeId nodes) →
      RaceStep tree s (.settle q fetched) (s.childrenSettled q fetched)
  | sort {s : State} {nodes : List ApiNode} :
      tree.Part nodes → RaceStep tree s (.sort nodes) (s.hydrateTree nodes)

lemma RaceStep.deterministic {tree : CallTree} {s t t' : State} {e : RaceEvent}
    (h : RaceStep tree s e t) (h' : RaceStep tree s e t') : t = t' := by
  cases h with
  | click => cases h'; rfl
  | settle => cases h'; rfl
  | sort => cases h'; rfl

/-! ### A node that stays closed -/

/-- A row that is collapsed, not loading and without an error -/
structure Row.Collapsed (row : Row) : Prop where
  expanded : row.expanded = false
  loadingChildren : row.loadingChildren = false
  loadError : row.loadError = false

instance (row : Row) : Decidable row.Collapsed :=
  decidable_of_iff (_ ∧ _ ∧ _) ⟨fun h => ⟨h.1, h.2.1, h.2.2⟩,
    fun h => ⟨h.expanded, h.loadingChildren, h.loadError⟩⟩

/-- The rows of the node are collapsed, and none of its children is in the list. -/
structure Closed (nodeId : ℕ) (rows : List Row) : Prop where
  collapsed : ∀ r ∈ rows, r.nodeId = nodeId → r.Collapsed
  childless : ∀ c ∈ rows, c.parentNodeId ≠ some nodeId

/-- A response connects the node with the root. -/
inductive Listed (nodes : List ApiNode) : ApiNode → Prop where
  | top {node : ApiNode} : node ∈ nodes → node.parentNodeId = some 1 → Listed nodes node
  | child {p node : ApiNode} : Listed nodes p → node ∈ nodes →
      node.parentNodeId = some p.nodeId → Listed nodes node

/-- If the last request for the node is settled, it brings an empty list of children, or fails when
the row object that it was made for is not in the list any more. A new tree has the node without its
children, if it has it. -/
def LeavesClosed (nodeId : ℕ) (s : State) : RaceEvent → Prop
  | .click _          => True
  | .settle q fetched =>
    q.nodeId = nodeId → s.expandTokens q.nodeId = q.token →
      match fetched.nodes? with
      | none       => ∀ r ∈ s.rows, r.ref ≠ q.ref
      | some nodes => nodes = []
  | .sort nodes       => ∀ node, Listed nodes node →
      (node.nodeId = nodeId → node.childrenLoaded = false) ∧ node.parentNodeId ≠ some nodeId

/-! ### What a click does to the rows -/

namespace State

variable {s t u : State} {ref nodeId : ℕ} {f : Row → Row} {row r : Row}

/-- Row objects of `s` are the rows of `t`, unchanged but for the one with this reference. -/
def Touches (ref : ℕ) (s t : State) : Prop :=
  ∀ r' ∈ t.rows, ∃ r ∈ s.rows, r'.toPlace = r.toPlace ∧ r'.data = r.data ∧ r'.ref = r.ref ∧
    (r.ref ≠ ref → r' = r)

lemma touches_of_subset (h : t.rows ⊆ s.rows) : Touches ref s t :=
  fun r hr => ⟨r, h hr, rfl, rfl, rfl, fun _ => rfl⟩

lemma Touches.trans (h : Touches ref s t) (h' : Touches ref t u) : Touches ref s u := by
  intro r'' hr''
  obtain ⟨r', hr', hplace', hdata', href', heq'⟩ := h' r'' hr''
  obtain ⟨r, hr, hplace, hdata, href, heq⟩ := h r' hr'
  refine ⟨r, hr, hplace'.trans hplace, hdata'.trans hdata, href'.trans href, fun hne => ?_⟩
  rw [heq' (href ▸ hne), heq hne]

lemma touches_assign (hf : ∀ row, (f row).toPlace = row.toPlace ∧ (f row).data = row.data ∧
    (f row).ref = row.ref) : Touches ref s (s.assign ref f) := by
  intro r' hr'
  obtain ⟨r, hr, rfl⟩ := List.mem_map.mp hr'
  refine ⟨r, hr, ?_⟩
  split_ifs with href
  · exact ⟨(hf r).1, (hf r).2.1, (hf r).2.2, fun hne => absurd href hne⟩
  · exact ⟨rfl, rfl, rfl, fun _ => rfl⟩

lemma rows_collapseAt (s : State) (idx : ℕ) (row : Row) :
    ∃ kept : List Row, kept.Sublist s.rows ∧
      (∀ r ∈ s.rows, r.indentDepthForUi ≤ row.indentDepthForUi → r ∈ kept) ∧
      (s.collapseAt idx row).rows = kept.map fun r =>
        if r.ref = row.ref then { r with expanded := false, childrenLoaded := false } else r := by
  set deeper : Row → Bool := fun r => r.indentDepthForUi > row.indentDepthForUi with hdeeper
  set count := ((s.rows.drop (idx + 1)).takeWhile deeper).length with hcount
  refine ⟨removeRowsAt s.rows (idx + 1) count, ?_, fun r hr hindent => ?_, ?_⟩
  · have hdrop : (s.rows.drop (idx + 1 + count)).Sublist (s.rows.drop (idx + 1)) := by
      rw [← List.drop_drop]
      exact List.drop_sublist ..
    have happend := hdrop.append_left (s.rows.take (idx + 1))
    rwa [List.take_append_drop] at happend
  · rw [removeRowsAt, List.mem_append, ← List.drop_drop]
    rw [← List.take_append_drop (idx + 1) s.rows, List.mem_append] at hr
    refine hr.imp_right fun hr => ?_
    rw [← List.takeWhile_append_dropWhile (p := deeper) (l := s.rows.drop (idx + 1)),
      List.mem_append] at hr
    rcases hr with hr | hr
    · have := List.mem_takeWhile_imp hr
      simp only [hdeeper, decide_eq_true_eq] at this
      omega
    · rw [← List.takeWhile_append_dropWhile (p := deeper) (l := s.rows.drop (idx + 1)), hcount,
        List.drop_left]
      exact hr
  · simp only [collapseAt, assign, rows_abortInFlight]
    rfl

/-- A click is about the first row of its node. -/
lemma getElem?_clicked (s : State) (nodeId : ℕ) :
    s.rows[s.clicked nodeId]? = s.rows.find? (·.nodeId = nodeId) :=
  List.find?_eq_getElem?_findIdx.symm

lemma touches_clearLoadError : Touches row.ref s (s.clearLoadError row) := by
  rcases clearLoadError_cases s row with h | h
  · rw [h]
    exact touches_of_subset (List.Subset.refl _)
  · rw [h]
    exact touches_assign fun _ => ⟨rfl, rfl, rfl⟩

/-- A click changes the flags of one row at most, and may remove others. -/
lemma touches_onChevronClick (h : s.rows.find? (·.nodeId = nodeId) = some row) :
    Touches row.ref s (s.onChevronClick nodeId) := by
  have heq := onChevronClick_some ((s.getElem?_clicked nodeId).trans h)
  rw [heq]
  split_ifs
  · refine Touches.trans (t := s.abortInFlight row.nodeId) (touches_of_subset ?_)
      (touches_assign fun _ => ⟨rfl, rfl, rfl⟩)
    rw [rows_abortInFlight]
    exact List.Subset.refl _
  · obtain ⟨kept, hkept, -, hrows⟩ := rows_collapseAt s (s.clicked nodeId) row
    refine Touches.trans (t := { s with rows := kept }) (touches_of_subset hkept.subset) ?_
    intro r hr
    rw [hrows] at hr
    exact touches_assign (s := { s with rows := kept })
      (f := ({ · with expanded := false, childrenLoaded := false })) (fun _ => ⟨rfl, rfl, rfl⟩) r hr
  · exact touches_clearLoadError.trans (touches_assign fun _ => ⟨rfl, rfl, rfl⟩)
  · refine touches_clearLoadError.trans (touches_assign
      (f := ({ · with loadingChildren := true, expanded := true })) fun _ => ⟨rfl, rfl, rfl⟩)

/-- Another row that is not deeper than the one that was clicked is left as it is. -/
lemma mem_onChevronClick (h : s.rows.find? (·.nodeId = nodeId) = some row) (hr : r ∈ s.rows)
    (hne : r.ref ≠ row.ref) (hindent : r.indentDepthForUi ≤ row.indentDepthForUi) :
    r ∈ (s.onChevronClick nodeId).rows := by
  have hassign : ∀ (s : State) (f : Row → Row), r ∈ s.rows → r ∈ (s.assign row.ref f).rows :=
    fun s f hr => List.mem_map.mpr ⟨r, hr, if_neg hne⟩
  have hclear : r ∈ (s.clearLoadError row).rows := by
    rcases clearLoadError_cases s row with h | h
    · rwa [h]
    · rw [h]
      exact hassign _ _ hr
  have heq := onChevronClick_some ((s.getElem?_clicked nodeId).trans h)
  rw [heq]
  split_ifs
  · apply hassign
    rwa [rows_abortInFlight]
  · obtain ⟨kept, -, hkeeps, hrows⟩ := rows_collapseAt s (s.clicked nodeId) row
    rw [hrows]
    exact List.mem_map.mpr ⟨r, hkeeps r hr hindent, if_neg hne⟩
  · exact hassign _ _ hclear
  · exact hassign _ _ hclear

end State

/-! ### Row objects -/

/-- The row object and the node that it shows. -/
def Row.object (row : Row) : ℕ × ℕ := (row.ref, row.nodeId)

def Request.object (q : Request) : ℕ × ℕ := (q.ref, q.nodeId)

/-- A row that is loading has no error. -/
def Row.Sane (row : Row) : Prop := row.loadingChildren = true → row.loadError = false

namespace State

variable {s t : State} {q : Request} {ref nodeId : ℕ} {f : Row → Row} {row : Row}
  {nodes : List ApiNode} {rows : List Row}

def objects (s : State) : List (ℕ × ℕ) := s.rows.map Row.object

def requested (s : State) : List (ℕ × ℕ) := s.inFlight.map Request.object

lemma objects_assign (hf : ∀ row, (f row).object = row.object) :
    (s.assign ref f).objects = s.objects := map_rows_assign Row.object hf

lemma objects_clearLoadError : (s.clearLoadError row).objects = s.objects := by
  rcases clearLoadError_cases s row with h | h
  · rw [h]
  · rw [h]
    exact objects_assign fun _ => rfl

lemma objects_onChevronClick (s : State) (nodeId : ℕ) :
    (s.onChevronClick nodeId).objects.Sublist s.objects := by
  cases h : s.rows.find? (·.nodeId = nodeId) with
  | none =>
    rw [onChevronClick_none ((s.getElem?_clicked nodeId).trans h)]
  | some row =>
    have heq := onChevronClick_some ((s.getElem?_clicked nodeId).trans h)
    rw [heq]
    split_ifs
    · rw [objects_assign]
      · rw [objects, rows_abortInFlight, objects]
      · exact fun _ => rfl
    · obtain ⟨kept, hkept, -, hrows⟩ := rows_collapseAt s (s.clicked nodeId) row
      have hobjects : (s.collapseAt (s.clicked nodeId) row).objects = kept.map Row.object := by
        rw [objects, hrows]
        exact objects_assign (s := { s with rows := kept })
          (f := ({ · with expanded := false, childrenLoaded := false })) fun _ => rfl
      rw [hobjects]
      exact hkept.map _
    · rw [objects_assign]
      · rw [objects_clearLoadError]
      · exact fun _ => rfl
    · have hobjects : ((s.clearLoadError row).loadChildren (s.clicked nodeId) row).objects =
          (s.clearLoadError row).objects :=
        objects_assign (f := ({ · with loadingChildren := true, expanded := true })) fun _ => rfl
      rw [hobjects, objects_clearLoadError]

lemma requested_abortInFlight : (s.abortInFlight nodeId).requested = s.requested :=
  map_inFlight_abortInFlight _ fun _ => rfl

lemma requested_clearLoadError : (s.clearLoadError row).requested = s.requested := by
  rw [requested, inFlight_clearLoadError, requested]

/-- A click asks for a row of the list, or for nothing. -/
lemma requested_onChevronClick (s : State) (nodeId : ℕ) :
    (s.onChevronClick nodeId).requested ⊆ s.objects ++ s.requested := by
  cases h : s.rows.find? (·.nodeId = nodeId) with
  | none =>
    rw [onChevronClick_none ((s.getElem?_clicked nodeId).trans h)]
    exact List.subset_append_right ..
  | some row =>
    have hrow : row.object ∈ s.objects := List.mem_map_of_mem (List.mem_of_find?_eq_some h)
    have heq := onChevronClick_some ((s.getElem?_clicked nodeId).trans h)
    rw [heq]
    split_ifs
    · change (s.abortInFlight row.nodeId).requested ⊆ _
      rw [requested_abortInFlight]
      exact List.subset_append_right ..
    · change (s.abortInFlight row.nodeId).requested ⊆ _
      rw [requested_abortInFlight]
      exact List.subset_append_right ..
    · change (s.clearLoadError row).requested ⊆ _
      rw [requested_clearLoadError]
      exact List.subset_append_right ..
    · have hload : ((s.clearLoadError row).loadChildren (s.clicked nodeId) row).requested =
          s.requested ++ [row.object] := by
        rw [← @requested_clearLoadError s row]
        exact List.map_append
      rw [hload]
      intro o ho
      rcases List.mem_append.mp ho with ho | ho
      · exact List.mem_append_right _ ho
      · rw [List.mem_singleton.mp ho]
        exact List.mem_append_left _ hrow

lemma nextRef_abortInFlight : (s.abortInFlight nodeId).nextRef = s.nextRef := by
  rw [abortInFlight]
  split
  · rfl
  · rfl

lemma nextRef_onChevronClick (s : State) (nodeId : ℕ) :
    (s.onChevronClick nodeId).nextRef = s.nextRef := by
  cases h : s.rows.find? (·.nodeId = nodeId) with
  | none => rw [onChevronClick_none ((s.getElem?_clicked nodeId).trans h)]
  | some row =>
    have hclear : (s.clearLoadError row).nextRef = s.nextRef := by
      rcases clearLoadError_cases s row with h | h
      · rw [h]
      · rw [h]
        rfl
    have heq := onChevronClick_some ((s.getElem?_clicked nodeId).trans h)
    rw [heq]
    split_ifs
    · exact nextRef_abortInFlight
    · exact nextRef_abortInFlight
    · exact hclear
    · exact hclear

lemma requested_settle : (s.settle q).requested ⊆ s.requested :=
  List.map_subset _ (List.filter_subset_self _)

lemma perm_insertRowsAt (rows newRows : List Row) (index : ℕ) :
    (insertRowsAt rows index newRows).Perm (rows ++ newRows) := by
  rw [insertRowsAt]
  split_ifs with h
  · rw [h, List.append_nil]
  · conv_rhs => rw [← List.take_append_drop index rows]
    rw [List.append_assoc, List.append_assoc]
    exact List.perm_append_comm.append_left _

lemma map_ref_withRefs (nextRef : ℕ) (rows : List Row) :
    (withRefs nextRef rows).map Row.ref = List.range' nextRef rows.length := by
  refine List.ext_getElem (by simp [withRefs]) fun i h h' => ?_
  simp [withRefs]

end State

/-- A reference stands for one row object, of the list or held by a request, and the next one is
fresh. -/
structure Owned (s : State) : Prop where
  nodup : (s.objects.map Prod.fst).Nodup
  lt : ∀ o ∈ s.objects ++ s.requested, o.1 < s.nextRef
  eq : ∀ o ∈ s.objects, ∀ o' ∈ s.objects ++ s.requested, o.1 = o'.1 → o = o'
  sane : ∀ row ∈ s.rows, row.Sane

section owned

variable {tree : CallTree} {s t : State} {q : Request} {ref nodeId : ℕ}
  {f : Row → Row} {row r : Row} {nodes : List ApiNode} {rows : List Row} {e : RaceEvent}

lemma Owned.row_eq (hs : Owned s) (hrow : row ∈ s.rows) (hr : r ∈ s.rows)
    (href : r.ref = row.ref) : r = row := by
  have hnodup := hs.nodup
  rw [State.objects, List.map_map] at hnodup
  exact List.inj_on_of_nodup_map hnodup hr hrow href

lemma Owned.mono (hs : Owned s) (hobjects : t.objects.Sublist s.objects)
    (hrequested : t.requested ⊆ s.objects ++ s.requested) (hnext : t.nextRef = s.nextRef)
    (hsane : ∀ row ∈ t.rows, row.Sane) : Owned t := by
  have hsub : t.objects ++ t.requested ⊆ s.objects ++ s.requested := by
    refine List.append_subset.mpr ⟨fun o ho => ?_, fun o ho => ?_⟩
    · exact List.mem_append_left _ (hobjects.subset ho)
    · exact hrequested ho
  constructor
  · exact (hobjects.map _).nodup hs.nodup
  · exact fun o ho => hnext ▸ hs.lt o (hsub ho)
  · exact fun o ho o' ho' => hs.eq o (hobjects.subset ho) o' (hsub ho')
  · exact hsane

lemma Owned.lt_object (hs : Owned s) {o : ℕ × ℕ} (ho : o ∈ s.objects) : o.1 < s.nextRef :=
  hs.lt o (List.mem_append_left _ ho)

lemma bounds_of_mem_fresh {new : List (ℕ × ℕ)} {nextRef : ℕ}
    (hnew : new.map Prod.fst = List.range' nextRef new.length) {o : ℕ × ℕ} (ho : o ∈ new) :
    nextRef ≤ o.1 ∧ o.1 < nextRef + new.length := by
  have hmem : o.1 ∈ new.map Prod.fst := List.mem_map_of_mem ho
  rwa [hnew, List.mem_range'_1] at hmem

/-- New rows with fresh references among those that were there, or in their place -/
lemma Owned.fresh (hs : Owned s) (old new : List (ℕ × ℕ))
    (hobjects : t.objects.Perm (old ++ new)) (hold : old.Sublist s.objects)
    (hnew : new.map Prod.fst = List.range' s.nextRef new.length)
    (hrequested : t.requested ⊆ s.requested) (hnext : t.nextRef = s.nextRef + new.length)
    (hsane : ∀ row ∈ t.rows, row.Sane) : Owned t := by
  have hcases : ∀ o ∈ t.objects ++ t.requested,
      o ∈ s.objects ++ s.requested ∨ o ∈ new := by
    intro o ho
    rcases List.mem_append.mp ho with ho | ho
    · rcases List.mem_append.mp (hobjects.subset ho) with ho | ho
      · exact .inl (List.mem_append_left _ (hold.subset ho))
      · exact .inr ho
    · exact .inl (List.mem_append_right _ (hrequested ho))
  have hnodup : (new.map Prod.fst).Nodup := hnew ▸ List.nodup_range'
  constructor
  · refine ((hobjects.map Prod.fst).nodup_iff).mpr ?_
    rw [List.map_append]
    refine List.nodup_append.mpr ⟨(hold.map _).nodup hs.nodup, hnodup, ?_⟩
    intro ref href ref' href'
    obtain ⟨o, ho, rfl⟩ := List.mem_map.mp href
    obtain ⟨o', ho', rfl⟩ := List.mem_map.mp href'
    have := hs.lt_object (hold.subset ho)
    have := (bounds_of_mem_fresh hnew ho').1
    omega
  · intro o ho
    rw [hnext]
    rcases hcases o ho with ho | ho
    · exact Nat.lt_add_right _ (hs.lt o ho)
    · exact (bounds_of_mem_fresh hnew ho).2
  · intro o ho o' ho' heq
    rcases List.mem_append.mp (hobjects.subset ho) with ho | ho
    · rcases hcases o' ho' with ho' | ho'
      · exact hs.eq o (hold.subset ho) o' ho' heq
      · have := hs.lt_object (hold.subset ho)
        have := (bounds_of_mem_fresh hnew ho').1
        omega
    · rcases hcases o' ho' with ho' | ho'
      · have := hs.lt o' ho'
        have := (bounds_of_mem_fresh hnew ho).1
        omega
      · exact List.inj_on_of_nodup_map hnodup ho ho' heq
  · exact hsane

lemma sane_assign (hs : ∀ row ∈ s.rows, row.Sane)
    (hf : ∀ row ∈ s.rows, row.ref = ref → row.Sane → (f row).Sane) :
    ∀ row ∈ (s.assign ref f).rows, row.Sane := by
  intro r hr
  obtain ⟨row, hrow, rfl⟩ := List.mem_map.mp hr
  split_ifs with href
  · exact hf row hrow href (hs row hrow)
  · exact hs row hrow

/-- The error of a row is cleared before its children are fetched. -/
lemma sane_onChevronClick (hs : Owned s) (nodeId : ℕ) :
    ∀ row ∈ (s.onChevronClick nodeId).rows, row.Sane := by
  cases h : s.rows.find? (·.nodeId = nodeId) with
  | none =>
    rw [State.onChevronClick_none ((s.getElem?_clicked nodeId).trans h)]
    exact hs.sane
  | some row =>
    have hrow := List.mem_of_find?_eq_some h
    have hclear : (∀ r ∈ (s.clearLoadError row).rows, r.Sane) ∧
        ∀ r ∈ (s.clearLoadError row).rows, r.ref = row.ref → r.loadError = false := by
      rw [State.clearLoadError]
      split_ifs with herror
      · refine ⟨sane_assign hs.sane fun _ _ _ _ _ => rfl, fun r hr href => ?_⟩
        obtain ⟨r', hr', rfl⟩ := List.mem_map.mp hr
        split_ifs at href ⊢ with href'
        · rfl
        · exact absurd href href'
      · refine ⟨hs.sane, fun r hr href => ?_⟩
        rw [hs.row_eq hrow hr href]
        simpa using herror
    have heq := State.onChevronClick_some ((s.getElem?_clicked nodeId).trans h)
    rw [heq]
    split_ifs
    · refine sane_assign ?_ fun _ _ _ _ h => absurd h Bool.false_ne_true
      rw [State.rows_abortInFlight]
      exact hs.sane
    · obtain ⟨kept, hkept, -, hrows⟩ := State.rows_collapseAt s (s.clicked nodeId) row
      rw [hrows]
      exact sane_assign (s := { s with rows := kept }) (fun r hr => hs.sane r (hkept.subset hr))
        fun _ _ _ hsane => hsane
    · exact sane_assign hclear.1 fun _ _ _ hsane => hsane
    · exact sane_assign hclear.1 (f := ({ · with loadingChildren := true, expanded := true }))
        fun r hr href _ _ => hclear.2 r hr href

lemma Owned.onChevronClick (hs : Owned s) (nodeId : ℕ) :
    Owned (s.onChevronClick nodeId) :=
  hs.mono (s.objects_onChevronClick nodeId) (s.requested_onChevronClick nodeId)
    (s.nextRef_onChevronClick nodeId) (sane_onChevronClick hs nodeId)

lemma Owned.settle (hs : Owned s) : Owned (s.settle q) :=
  hs.mono (List.Sublist.refl _) (fun _ ho => List.mem_append_right _ (State.requested_settle ho))
    rfl hs.sane

lemma Owned.assign (hs : Owned s) (hf : ∀ row, (f row).object = row.object)
    (hsane : ∀ row, row.Sane → (f row).Sane) : Owned (s.assign ref f) := by
  refine hs.mono ?_ (List.subset_append_right ..) rfl
    (sane_assign hs.sane fun row _ _ h => hsane row h)
  rw [State.objects_assign hf]

lemma Owned.childrenFailed (hs : Owned s) : Owned (s.childrenFailed q) := by
  rw [State.childrenFailed]
  split_ifs
  · exact hs.settle
  · refine Owned.settle (hs.assign (fun _ => rfl) fun _ _ h => ?_)
    cases h

lemma map_fst_object_withRefs (nextRef : ℕ) (rows : List Row) :
    ((withRefs nextRef rows).map Row.object).map Prod.fst =
      List.range' nextRef ((withRefs nextRef rows).map Row.object).length := by
  rw [List.map_map]
  exact (State.map_ref_withRefs nextRef rows).trans (by simp [withRefs])

lemma mem_withRefs {nextRef : ℕ} (h : r ∈ withRefs nextRef rows) :
    ∃ row ∈ rows, ∃ ref, nextRef ≤ ref ∧ r = { row with ref := ref } := by
  obtain ⟨i, hi, rfl⟩ := List.mem_mapIdx.mp h
  exact ⟨rows[i], List.getElem_mem hi, nextRef + i, Nat.le_add_right .., rfl⟩

lemma Owned.childrenArrived (hs : Owned s) : Owned (s.childrenArrived q nodes) := by
  rw [State.childrenArrived]
  split_ifs
  · exact hs.settle
  · refine Owned.settle ?_
    have hassign : Owned
        (s.assign q.ref ({ · with loadingChildren := false, childrenLoaded := true })) := by
      refine hs.assign (fun _ => rfl) fun _ _ h => ?_
      cases h
    set new := withRefs s.nextRef (nodes.map (State.childRow q)) with hnew
    refine hassign.fresh _ (new.map Row.object) ?_ (List.Sublist.refl _)
      (map_fst_object_withRefs ..) (List.Subset.refl _) ?_ ?_
    · change ((insertRowsAt _ (q.idx + 1) new).map Row.object).Perm _
      rw [State.objects, ← List.map_append]
      exact (State.perm_insertRowsAt ..).map _
    · rw [List.length_map]
    · intro r hr
      rcases List.mem_append.mp ((State.perm_insertRowsAt ..).subset hr) with hr | hr
      · exact hassign.sane r hr
      · obtain ⟨row, hrow, ref, -, rfl⟩ := mem_withRefs hr
        obtain ⟨api, -, rfl⟩ := List.mem_map.mp hrow
        exact fun _ => rfl

lemma Owned.hydrateTree (hs : Owned s) (hpart : tree.Part nodes) :
    Owned (s.hydrateTree nodes) := by
  refine hs.fresh [] (s.hydrateTree nodes).objects (List.Perm.refl _) (List.nil_sublist _)
    (map_fst_object_withRefs ..) (List.Subset.refl _) ?_ ?_
  · rw [State.objects, List.length_map]
    simp [State.hydrateTree, withRefs]
  · intro r hr hloading
    obtain ⟨node, -, hshows⟩ := shows_of_mem_hydrateTree hpart s hr
    rw [hshows.loadingChildren] at hloading
    cases hloading

lemma Owned.raceStep (hs : Owned s) (h : RaceStep tree s e t) : Owned t := by
  cases h with
  | click => exact hs.onChevronClick _
  | @settle q fetched =>
    rw [childrenSettled_eq]
    cases fetched.nodes? with
    | none => exact hs.childrenFailed
    | some nodes => exact hs.childrenArrived
  | sort hpart => exact hs.hydrateTree hpart

lemma Consistent.raceStep (hs : Consistent tree s) (h : RaceStep tree s e t) :
    Consistent tree t := by
  cases h with
  | click => exact hs.onChevronClick _
  | @settle q fetched hq hnodes =>
    rw [childrenSettled_eq]
    cases hfetched : fetched.nodes? with
    | none => exact hs.childrenFailed
    | some nodes => exact hs.childrenArrived hq (hnodes nodes hfetched)
  | sort hpart => exact .hydrateTree hs.asked hpart

/-! ### One step -/

/-- A request holds a row object of its node. -/
lemma Owned.nodeId_eq (hs : Owned s) (hq : q ∈ s.inFlight) (hr : r ∈ s.rows)
    (href : r.ref = q.ref) : r.nodeId = q.nodeId :=
  congrArg Prod.snd (hs.eq r.object (List.mem_map_of_mem hr) q.object
    (List.mem_append_right _ (List.mem_map_of_mem hq)) href)

/-- Changes of a row of another node leave this one closed. -/
lemma Closed.of_touches (h : Closed nodeId s.rows) (ht : State.Touches ref s t)
    (hne : ∀ r ∈ s.rows, r.nodeId = nodeId → r.ref ≠ ref) : Closed nodeId t.rows := by
  constructor
  · intro r' hr' hid
    obtain ⟨r, hr, hplace, -, -, heq⟩ := ht r' hr'
    have hid' : r.nodeId = nodeId := (congrArg Place.nodeId hplace).symm.trans hid
    rw [heq (hne r hr hid')]
    exact h.collapsed r hr hid'
  · intro c' hc'
    obtain ⟨c, hc, hplace, -⟩ := ht c' hc'
    rw [hplace]
    exact h.childless c hc

lemma Closed.onChevronClick {n : ℕ} (h : Closed nodeId s.rows) (hs : Owned s) (hne : n ≠ nodeId) :
    Closed nodeId (s.onChevronClick n).rows := by
  cases hfind : s.rows.find? (·.nodeId = n) with
  | none => rwa [State.onChevronClick_none ((s.getElem?_clicked n).trans hfind)]
  | some stored =>
    have hstored : stored.nodeId = n := by simpa using List.find?_some hfind
    refine h.of_touches (State.touches_onChevronClick hfind) fun r hr hid href => hne ?_
    rw [← hstored, ← hs.row_eq (List.mem_of_find?_eq_some hfind) hr href, hid]

/-- A request that fails leaves an error on the row that it was made for. -/
lemma closed_childrenFailed_iff (h : Closed nodeId s.rows) (hs : Owned s) (hq : q ∈ s.inFlight)
    (htoken : s.expandTokens q.nodeId = q.token) :
    Closed nodeId (s.childrenFailed q).rows ↔
      (q.nodeId = nodeId → ∀ r ∈ s.rows, r.ref ≠ q.ref) := by
  rw [State.childrenFailed_current htoken]
  constructor
  · intro hclosed hid r hr href
    have hmem : { r with loadingChildren := false, loadError := true } ∈
        (s.assign q.ref ({ · with loadingChildren := false, loadError := true })).rows :=
      List.mem_map.mpr ⟨r, hr, if_pos href⟩
    exact Bool.false_ne_true
      (hclosed.collapsed _ hmem ((hs.nodeId_eq hq hr href).trans hid)).loadError.symm
  · intro himp
    have htouches : State.Touches q.ref s
        (s.assign q.ref ({ · with loadingChildren := false, loadError := true })) :=
      State.touches_assign fun _ => ⟨rfl, rfl, rfl⟩
    refine h.of_touches htouches fun r hr hid href => ?_
    exact himp ((hs.nodeId_eq hq hr href).symm.trans hid) r hr href

/-- After an arrival, the list holds the rows that it held before, with other flags perhaps, and the
new ones. -/
lemma childrenArrived_cases (nodes : List ApiNode) (htoken : s.expandTokens q.nodeId = q.token) :
    (∀ r ∈ withRefs s.nextRef (nodes.map (State.childRow q)),
      r ∈ (s.childrenArrived q nodes).rows) ∧
    ∀ r' ∈ (s.childrenArrived q nodes).rows,
      r' ∈ withRefs s.nextRef (nodes.map (State.childRow q)) ∨
      ∃ r ∈ s.rows, r'.toPlace = r.toPlace ∧ (r.Collapsed → r'.Collapsed) := by
  have hmem : ∀ r', r' ∈ (s.childrenArrived q nodes).rows ↔
      r' ∈ (s.assign q.ref ({ · with loadingChildren := false, childrenLoaded := true })).rows ∨
        r' ∈ withRefs s.nextRef (nodes.map (State.childRow q)) := by
    intro r'
    rw [State.childrenArrived, if_neg (not_not.mpr htoken), ← List.mem_append]
    exact (State.perm_insertRowsAt ..).mem_iff
  refine ⟨fun r hr => (hmem r).mpr (.inr hr), fun r' hr' => ?_⟩
  refine ((hmem r').mp hr').symm.imp_right fun hold => ?_
  obtain ⟨r, hr, rfl⟩ := List.mem_map.mp hold
  refine ⟨r, hr, ?_⟩
  split_ifs
  · exact ⟨rfl, fun h => ⟨h.expanded, rfl, h.loadError⟩⟩
  · exact ⟨rfl, id⟩

/-- A response puts its nodes into the list, whether the row is expanded or not. -/
lemma closed_childrenArrived_iff (h : Closed nodeId s.rows) (hnodes : tree.Children q.nodeId nodes)
    (htoken : s.expandTokens q.nodeId = q.token) :
    Closed nodeId (s.childrenArrived q nodes).rows ↔ (q.nodeId = nodeId → nodes = []) := by
  have hnew : ∀ c ∈ withRefs s.nextRef (nodes.map (State.childRow q)),
      nodes ≠ [] ∧ c.parentNodeId = some q.nodeId ∧ c.Collapsed := by
    intro c hc
    obtain ⟨c', hc', ref, -, rfl⟩ := mem_withRefs hc
    obtain ⟨api, hapi, rfl⟩ := List.mem_map.mp hc'
    have hparent := (hnodes.parent api hapi).trans
      ((hnodes.mem_iff _).mp (List.mem_map_of_mem hapi))
    exact ⟨List.ne_nil_of_mem hapi, hparent, rfl, rfl, rfl⟩
  obtain ⟨hadded, hcases⟩ := childrenArrived_cases nodes htoken
  constructor
  · intro hclosed hid
    by_contra hne
    obtain ⟨c, hc⟩ := List.exists_mem_of_ne_nil (withRefs s.nextRef (nodes.map (State.childRow q)))
      (by simpa [withRefs] using hne)
    exact hclosed.childless c (hadded c hc) ((hnew c hc).2.1.trans (congrArg some hid))
  · intro himp
    constructor
    · intro r' hr' hid
      rcases hcases r' hr' with hfresh | ⟨r, hr, hplace, hcollapsed⟩
      · exact (hnew r' hfresh).2.2
      · exact hcollapsed (h.collapsed r hr ((congrArg Place.nodeId hplace).symm.trans hid))
    · intro c' hc'
      rcases hcases c' hc' with hfresh | ⟨c, hc, hplace, -⟩
      · obtain ⟨hne, hparent, -⟩ := hnew c' hfresh
        rw [hparent]
        exact fun hid => hne (himp (Option.some.inj hid))
      · rw [hplace]
        exact h.childless c hc

lemma Listed.mem {node : ApiNode} (h : Listed nodes node) : node ∈ nodes := by
  cases h with
  | top hmem => exact hmem
  | child _ hmem => exact hmem

lemma exists_listed_of_mem_walk {fuel p uiDepth : ℕ}
    (hp : p = 1 ∨ ∃ parent, Listed nodes parent ∧ parent.nodeId = p)
    (h : r ∈ walk nodes fuel p uiDepth) : ∃ node, Listed nodes node ∧ r.nodeId = node.nodeId := by
  induction fuel generalizing p uiDepth with
  | zero => cases h
  | succ fuel ih =>
    obtain ⟨child, hchild, hr⟩ := List.mem_flatMap.mp h
    obtain ⟨hmem, hparent⟩ := mem_childrenOf.mp hchild
    have hlisted : Listed nodes child := by
      rcases hp with rfl | ⟨parent, hp, rfl⟩
      · exact .top hmem hparent
      · exact .child hp hmem hparent
    rcases List.mem_cons.mp hr with rfl | hr
    · exact ⟨child, hlisted, rfl⟩
    · exact ih (.inr ⟨child, hlisted, rfl⟩) hr

lemma Listed.mem_below {node : ApiNode} {below : ℕ → List ℕ} (h : Listed nodes node)
    (hbelow : ListsBelow nodes below) (hpart : tree.Part nodes) : node.nodeId ∈ below 1 := by
  induction h with
  | @top node hmem hparent =>
    rw [hbelow 1, List.mem_flatMap]
    exact ⟨node, mem_childrenOf.mpr ⟨hmem, hparent⟩, List.mem_cons_self⟩
  | child _ hmem hparent ih => exact hbelow.mem_of_child hpart ih hmem hparent

/-- The rows of a new tree are the nodes that the response connects with the root. -/
lemma mem_hydrateTree_iff (hpart : tree.Part nodes) (s : State) {node : ApiNode}
    (hnode : node ∈ nodes) :
    node.nodeId ∈ (s.hydrateTree nodes).rows.map (·.nodeId) ↔ Listed nodes node := by
  rw [map_nodeId_hydrateTree hpart]
  constructor
  · intro h
    obtain ⟨r, hr, hid⟩ := List.mem_map.mp h
    obtain ⟨node', hlisted, hid'⟩ := exists_listed_of_mem_walk (.inl rfl) hr
    obtain rfl : node' = node :=
      List.inj_on_of_nodup_map hpart.nodup hlisted.mem hnode (hid'.symm.trans hid)
    exact hlisted
  · exact fun h => h.mem_below (listsBelow_walk hpart) hpart

lemma closed_hydrateTree_iff (hpart : tree.Part nodes) (s : State) :
    Closed nodeId (s.hydrateTree nodes).rows ↔ ∀ node, Listed nodes node →
      (node.nodeId = nodeId → node.childrenLoaded = false) ∧ node.parentNodeId ≠ some nodeId := by
  constructor
  · intro h node hlisted
    obtain ⟨r, hr, hid⟩ := List.mem_map.mp ((mem_hydrateTree_iff hpart s hlisted.mem).mpr hlisted)
    obtain ⟨node', hnode', hshows⟩ := shows_of_mem_hydrateTree hpart s hr
    obtain rfl : node' = node := List.inj_on_of_nodup_map hpart.nodup hnode' hlisted.mem
      (hshows.nodeId.symm.trans hid)
    refine ⟨fun heq => ?_, fun hparent => ?_⟩
    · rw [← hshows.expanded]
      exact (h.collapsed r hr (hshows.nodeId.trans heq)).expanded
    · exact h.childless r hr (hshows.parentNodeId.trans hparent)
  · intro h
    have hlisted : ∀ r ∈ (s.hydrateTree nodes).rows, ∃ node, Listed nodes node ∧ Shows node r := by
      intro r hr
      obtain ⟨node, hnode, hshows⟩ := shows_of_mem_hydrateTree hpart s hr
      refine ⟨node, (mem_hydrateTree_iff hpart s hnode).mp ?_, hshows⟩
      exact List.mem_map.mpr ⟨r, hr, hshows.nodeId⟩
    constructor
    · intro r hr hid
      obtain ⟨node, hnode, hshows⟩ := hlisted r hr
      have hloaded := (h node hnode).1 (hshows.nodeId.symm.trans hid)
      exact ⟨hshows.expanded.trans hloaded, hshows.loadingChildren, hshows.loadError⟩
    · intro c hc
      obtain ⟨node, hnode, hshows⟩ := hlisted c hc
      rw [hshows.parentNodeId]
      exact (h node hnode).2

/-- Only the end of a request and a new tree can open the node without a click on it. -/
lemma closed_step_iff (hs : Owned s) (h : Closed nodeId s.rows) (hclick : e ≠ .click nodeId)
    (hstep : RaceStep tree s e t) : Closed nodeId t.rows ↔ LeavesClosed nodeId s e := by
  cases hstep with
  | click => exact iff_of_true (h.onChevronClick hs fun heq => hclick (heq ▸ rfl)) trivial
  | sort hpart => exact closed_hydrateTree_iff hpart s
  | @settle q fetched hq hnodes =>
    rw [LeavesClosed, childrenSettled_eq]
    by_cases htoken : s.expandTokens q.nodeId = q.token
    · cases hfetched : fetched.nodes? with
      | none =>
        refine (closed_childrenFailed_iff h hs hq htoken).trans ?_
        exact ⟨fun himp hid _ => himp hid, fun himp hid => himp hid htoken⟩
      | some nodes =>
        refine (closed_childrenArrived_iff h (hnodes nodes hfetched) htoken).trans ?_
        exact ⟨fun himp hid _ => himp hid, fun himp hid => himp hid htoken⟩
    · refine iff_of_true ?_ fun _ htoken' => absurd htoken' htoken
      cases fetched.nodes? with
      | none =>
        change Closed nodeId (s.childrenFailed q).rows
        rwa [State.childrenFailed_stale htoken]
      | some nodes =>
        change Closed nodeId (s.childrenArrived q nodes).rows
        rwa [State.childrenArrived_stale htoken]

end owned

/-! ### The cancel and what follows -/

section cancel

variable {tree : CallTree} {s t : State} {row : Row} {es₀ es : List RaceEvent} {idx : ℕ}

lemma owned_start : Owned State.start := by
  constructor
  · exact List.nodup_nil
  · exact fun o ho => nomatch ho
  · exact fun o ho => nomatch ho
  · exact fun row hrow => nomatch hrow

lemma reachable (hreach : Run (RaceStep tree) .start es₀ s) : Owned s ∧ Consistent tree s := by
  refine hreach.invariant (I := fun s => Owned s ∧ Consistent tree s) (P := fun _ => True)
    (fun s e t _ h hs => ⟨hs.1.raceStep h, hs.2.raceStep h⟩) (fun _ _ => trivial)
    ⟨owned_start, ?_, ?_⟩
  · exact fun p hp => nomatch hp
  · exact fun a ha => nomatch ha

/-- A click that reaches the row that is loading leaves all other rows as they are. -/
lemma mem_cancel_iff (hs : Owned s) (hfind : s.rows.find? (·.nodeId = row.nodeId) = some row)
    (hloading : row.loadingChildren = true) {r' : Row} :
    r' ∈ (s.onChevronClick row.nodeId).rows ↔
      r' = { row with loadingChildren := false, expanded := false } ∨ r' ∈ s.rows ∧ r' ≠ row := by
  have hrow := List.mem_of_find?_eq_some hfind
  have hrows : (s.onChevronClick row.nodeId).rows = s.rows.map fun r =>
      if r.ref = row.ref then { r with loadingChildren := false, expanded := false } else r := by
    rw [State.onChevronClick_some ((s.getElem?_clicked row.nodeId).trans hfind), if_pos hloading]
    simp only [State.assign, State.rows_abortInFlight]
  rw [hrows, List.mem_map]
  constructor
  · rintro ⟨r, hr, rfl⟩
    by_cases href : r.ref = row.ref
    · rw [if_pos href, hs.row_eq hrow hr href]
      exact .inl rfl
    · rw [if_neg href]
      exact .inr ⟨hr, fun heq => href (congrArg Row.ref heq)⟩
  · rintro (rfl | ⟨hr, hne⟩)
    · exact ⟨row, hrow, if_pos rfl⟩
    · exact ⟨r', hr, if_neg fun href => hne (hs.row_eq hrow hr href)⟩

lemma closed_cancel_first_iff (hs : Owned s)
    (hfind : s.rows.find? (·.nodeId = row.nodeId) = some row)
    (hloading : row.loadingChildren = true) :
    Closed row.nodeId (s.onChevronClick row.nodeId).rows ↔
      (∀ r ∈ s.rows, r.nodeId = row.nodeId → r ≠ row → r.Collapsed) ∧
        ∀ c ∈ s.rows, c.parentNodeId ≠ some row.nodeId := by
  have hrow := List.mem_of_find?_eq_some hfind
  constructor
  · intro hclosed
    refine ⟨fun r hr hid hne => ?_, fun c hc => ?_⟩
    · exact hclosed.collapsed r ((mem_cancel_iff hs hfind hloading).mpr (.inr ⟨hr, hne⟩)) hid
    · by_cases hc' : c = row
      · rw [hc']
        have hmem := (mem_cancel_iff hs hfind hloading).mpr (.inl rfl)
        exact hclosed.childless { row with loadingChildren := false, expanded := false } hmem
      · exact hclosed.childless c ((mem_cancel_iff hs hfind hloading).mpr (.inr ⟨hc, hc'⟩))
  · rintro ⟨hothers, hchildless⟩
    constructor
    · intro r' hr' hid
      rcases (mem_cancel_iff hs hfind hloading).mp hr' with rfl | ⟨hr, hne⟩
      · exact ⟨rfl, rfl, hs.sane row hrow hloading⟩
      · exact hothers r' hr hid hne
    · intro c' hc'
      rcases (mem_cancel_iff hs hfind hloading).mp hc' with rfl | ⟨hc, -⟩
      · exact hchildless row hrow
      · exact hchildless c' hc

/-- A second click closes the node of a row that is loading, unless it is about another row of that
node, or the node was not closed but for this row. -/
lemma closed_cancel_iff (hs : Owned s) (hplaced : Consistent tree s) (hrow : row ∈ s.rows)
    (hloading : row.loadingChildren = true) :
    Closed row.nodeId (s.onChevronClick row.nodeId).rows ↔
      s.rows.find? (·.nodeId = row.nodeId) = some row ∧
        (∀ r ∈ s.rows, r.nodeId = row.nodeId → r ≠ row → r.Collapsed) ∧
          ∀ c ∈ s.rows, c.parentNodeId ≠ some row.nodeId := by
  obtain ⟨stored, hfind⟩ : ∃ stored, s.rows.find? (·.nodeId = row.nodeId) = some stored := by
    rw [← Option.isSome_iff_exists, List.find?_isSome]
    exact ⟨row, hrow, by simp⟩
  have hstored := List.mem_of_find?_eq_some hfind
  by_cases href : row.ref = stored.ref
  · obtain rfl := hs.row_eq hstored hrow href
    rw [closed_cancel_first_iff hs hfind hloading, and_iff_right hfind]
  · -- the row that was loading stays as it is, and is not removed with rows below the other one
    refine iff_of_false (fun hclosed => ?_) ?_
    · have hid : stored.nodeId = row.nodeId := by simpa using List.find?_some hfind
      have hdepth := (hplaced.placed row.toPlace (List.mem_map_of_mem hrow)).2
      have hdepth' := (hplaced.placed stored.toPlace (List.mem_map_of_mem hstored)).2
      rw [hid] at hdepth'
      have hmem := State.mem_onChevronClick hfind hrow href (by omega)
      rw [(hclosed.collapsed row hmem rfl).loadingChildren] at hloading
      cases hloading
    · rintro ⟨hfirst, -⟩
      rw [hfind] at hfirst
      exact href (congrArg Row.ref (Option.some.inj hfirst).symm)

/-- After the cancel and until the next click on it, the node of a row that was loading is closed
all along if and only if the click was about that row, the node was closed but for it, and each step
leaves the node closed. -/
theorem closed_iff_of_run (hreach : Run (RaceStep tree) .start es₀ s)
    (hrow : s.rows[idx]? = some row) (hloading : row.loadingChildren = true)
    (hrun : Run (RaceStep tree) (s.onChevronClick row.nodeId) es t)
    (hclick : .click row.nodeId ∉ es) :
    (∀ es' u, es' <+: es → Run (RaceStep tree) (s.onChevronClick row.nodeId) es' u →
        Closed row.nodeId u.rows) ↔
      (s.rows.find? (·.nodeId = row.nodeId) = some row ∧
        (∀ r ∈ s.rows, r.nodeId = row.nodeId → r ≠ row → r.Collapsed) ∧
          ∀ c ∈ s.rows, c.parentNodeId ≠ some row.nodeId) ∧
      Run (fun s e t => RaceStep tree s e t ∧ LeavesClosed row.nodeId s e)
        (s.onChevronClick row.nodeId) es t := by
  obtain ⟨hs, hplaced⟩ := reachable hreach
  have hmem := List.mem_of_getElem? hrow
  rw [← closed_cancel_iff hs hplaced hmem hloading]
  have hall : Closed row.nodeId (s.onChevronClick row.nodeId).rows →
      ((∀ es' u, es' <+: es → Run (RaceStep tree) (s.onChevronClick row.nodeId) es' u →
        Closed row.nodeId u.rows) ↔
      Run (fun s e t => RaceStep tree s e t ∧ LeavesClosed row.nodeId s e)
        (s.onChevronClick row.nodeId) es t) := by
    refine hrun.all_reached_iff (I := Owned) (P := fun s => Closed row.nodeId s.rows)
      (Q := fun e => e ≠ .click row.nodeId) (fun _ _ _ _ h h' => h.deterministic h') ?_
      (fun e he heq => hclick (heq ▸ he)) (hs.onChevronClick _)
    intro s e t he hs h hstep
    exact ⟨hs.raceStep hstep, closed_step_iff hs h he hstep⟩
  constructor
  · intro hclosed
    have hfirst := hclosed [] _ (List.nil_prefix) (.nil _)
    exact ⟨hfirst, (hall hfirst).mp hclosed⟩
  · rintro ⟨hfirst, hsteps⟩
    exact (hall hfirst).mpr hsteps

end cancel

/-! ### An abort -/

/-- The list while the children of the node 3 are being fetched. -/
def loadingThree : State := (State.start.hydrateTree sampleNodes).onChevronClick 3

def rowThree : Row := ⟨⟨3, some 2, 1⟩, 1, true, false, true, true, false, default⟩

/-- The fetch of a request that was aborted is rejected. -/
def abortThree : RaceEvent :=
  .settle ⟨3, 1, 1, 1, 1, true⟩ (.rejected ⟨"AbortError", "The operation was aborted.", none⟩)

lemma run_loadingThree :
    Run (RaceStep sampleTree) .start [.sort sampleNodes, .click 3] loadingThree :=
  .cons (.sort part_sampleNodes) (.cons .click (.nil _))

/-- Where the list is sorted again before the fetch is rejected, the error goes to a row object that
nobody sees any more, and the new row of the node is closed. -/
theorem closed_of_run_sorted : ∃ t,
    Run (RaceStep sampleTree) (loadingThree.onChevronClick 3) [.sort sampleNodes, abortThree] t ∧
      (∃ r ∈ t.rows, r.nodeId = 3) ∧ Closed 3 t.rows := by
  have hgone : ∀ r ∈ ((loadingThree.onChevronClick 3).hydrateTree sampleNodes).rows, r.ref ≠ 1 := by
    decide
  have hnodes : ∀ node ∈ sampleNodes, (node.nodeId = 3 → node.childrenLoaded = false) ∧
      node.parentNodeId ≠ some 3 := by decide
  have hsteps : Run (fun s e t => RaceStep sampleTree s e t ∧ LeavesClosed 3 s e)
      (loadingThree.onChevronClick 3) [.sort sampleNodes, abortThree] _ :=
    .cons ⟨.sort part_sampleNodes, fun node h => hnodes node h.mem⟩
      (.cons ⟨.settle (by decide) nofun, fun _ _ => hgone⟩ (.nil _))
  have hrun : Run (RaceStep sampleTree) (loadingThree.onChevronClick 3)
      [.sort sampleNodes, abortThree] _ := hsteps.map (f := id) fun _ _ _ h => h.1
  have hrow : loadingThree.rows[1]? = some rowThree := rfl
  have hall := (closed_iff_of_run run_loadingThree hrow rfl hrun
    (by simp [abortThree])).mpr ⟨⟨rfl, by decide, by decide⟩, hsteps⟩
  exact ⟨_, hrun, by decide, hall _ _ List.prefix_rfl hrun⟩

/-- The rejection leaves an error on the row. -/
theorem not_closed :
    ¬ ∀ (tree : CallTree) (es₀ es : List RaceEvent) (s t : State) (idx : ℕ) (row : Row),
      Run (RaceStep tree) .start es₀ s → s.rows[idx]? = some row → row.loadingChildren = true →
      Run (RaceStep tree) (s.onChevronClick row.nodeId) es t → .click row.nodeId ∉ es →
      Closed row.nodeId t.rows := by
  intro h
  have hclosed := h sampleTree _ [abortThree] loadingThree _ 1 rowThree run_loadingThree rfl rfl
    (.cons (.settle (by decide) nofun) (.nil _)) (by simp [abortThree])
  have herror := (hclosed.collapsed _ (List.mem_of_getElem? (i := 1) rfl) rfl).loadError
  exact nomatch herror

end Detail

end PhpTreeViz
