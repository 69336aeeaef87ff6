import PhpTreeViz.Api.Tree
import PhpTreeViz.Viz.RowList
import PhpTreeViz.Viz.Search

/-!
# Sorting the tree

A change of the sort order marks its column and its menu item at once and fetches the tree again.
The rows change when the response arrives, and the responses arrive in any order: the list shows
the one that arrives last, whatever was chosen last.
-/

namespace PhpTreeViz

open Core

namespace Detail

/-! ### The page -/

inductive Column where
  | fqn
  | count
  | totalWall
  | selfWall
  | pctParent
  | memDelta
  deriving DecidableEq

/-- The sort order that a click on a column header asks for. -/
def sortByCol : Column → SortKey
  | .fqn       => .fqnAsc
  | .count     => .countDesc
  | .totalWall => .totalWallDesc
  | .selfWall  => .selfWallDesc
  | .pctParent => .selfWallDesc
  | .memDelta  => .memDeltaDesc

structure SortLabel where
  col : Column
  asc : Bool
  deriving DecidableEq

def sortLabels : SortKey → SortLabel
  | .totalWallDesc => ⟨.totalWall, false⟩
  | .selfWallDesc  => ⟨.selfWall, false⟩
  | .countDesc     => ⟨.count, false⟩
  | .memDeltaDesc  => ⟨.memDelta, false⟩
  | .fqnAsc        => ⟨.fqn, true⟩

/-- A request for the tree. The requests are numbered in the order in which they are sent; the
first one is that of `main`. -/
structure TreeFetch where
  number : ℕ
  sort : SortKey
  deriving DecidableEq

/-- The call tree and what is around it. `activeColumn` is the column header that is marked, and how
its `aria-sort` reads. -/
structure Page where
  tree : State
  hasVirtualizer : Bool
  currentSort : SortKey
  activeColumn : Option SortLabel
  ariaChecked : SortKey → Bool
  currentQuery : List UInt16
  currentMatches : List ℕ
  currentMatchIndex : ℤ
  sent : ℕ
  inFlight : List TreeFetch

namespace Page

def renderActiveColumn (p : Page) : Page :=
  { p with activeColumn := some (sortLabels p.currentSort) }

def renderSortMenuChecked (p : Page) : Page := { p with ariaChecked := (· = p.currentSort) }

/-- `apiFetch` for the tree, up to its `await`. -/
def fetchTree (p : Page) : Page :=
  { p with sent := p.sent + 1, inFlight := p.inFlight ++ [⟨p.sent, p.currentSort⟩] }

/-- The page of the HTML file, whose menu has a checked item from the start. -/
def initial : Page where
  tree := .start
  hasVirtualizer := false
  currentSort := .totalWallDesc
  activeColumn := none
  ariaChecked := (· = .totalWallDesc)
  currentQuery := []
  currentMatches := []
  currentMatchIndex := -1
  sent := 0
  inFlight := []

/-- `main` up to its `await`. -/
def main : Page := initial.renderActiveColumn.fetchTree

def hydrateTree (p : Page) (nodes : List ApiNode) : Page :=
  { p with tree := p.tree.hydrateTree nodes, hasVirtualizer := true }

def clearSearchMatches (p : Page) : Page := { p with currentMatches := [], currentMatchIndex := -1 }

section search

variable [JsString] (fqn : ℕ → Option (List UInt16))

/-- `fqn` is the function name of each node. -/
def applySearch (p : Page) (q : List UInt16) : Page :=
  let p := { p with currentQuery := q }
  if !p.hasVirtualizer then p
  else if q = [] then p.clearSearchMatches
  else
    let found := Search.findMatches (fun row : Row => fqn row.nodeId) p.tree.rows q
    { p with currentMatches := found, currentMatchIndex := if found.length > 0 then 0 else -1 }

/-- The sort order is one of `SORT_LABELS`: no caller passes another one. The page has a key,
because `main` does not wire the controls without one. -/
def applySort (p : Page) (newSort : SortKey) : Page :=
  { p with currentSort := newSort }.renderActiveColumn.renderSortMenuChecked.fetchTree

/-- What `main` and `applySort` do when their response arrives. -/
def treeArrived (p : Page) (f : TreeFetch) (nodes : List ApiNode) : Page :=
  let p := { p with inFlight := p.inFlight.filter (· ≠ f) }.hydrateTree nodes
  if f.number = 0 then p
  else
    let p := p.clearSearchMatches
    if p.currentQuery ≠ [] then p.applySearch fqn p.currentQuery else p

end search

def onColumnHeaderClick (p : Page) (col : Column) : Page := p.applySort (sortByCol col)

end Page

/-! ### Runs -/

inductive SortEvent where
  | applySort (newSort : SortKey)
  | arrive (f : TreeFetch)

/-- Changes of the sort order, and responses in any order -/
inductive SortStep [JsString] (fqn : ℕ → Option (List UInt16))
    (responses : TreeFetch → List ApiNode) : Page → SortEvent → Page → Prop where
  | applySort {p : Page} {newSort : SortKey} :
      SortStep fqn responses p (.applySort newSort) (p.applySort newSort)
  | arrive {p : Page} {f : TreeFetch} :
      f ∈ p.inFlight → SortStep fqn responses p (.arrive f) (p.treeArrived fqn f (responses f))

/-- The requests that the calls of `applySort` send, if the first one has this number -/
def calls : ℕ → List SortEvent → List TreeFetch
  | _, []                         => []
  | number, .applySort newSort :: es => ⟨number, newSort⟩ :: calls (number + 1) es
  | number, .arrive _ :: es       => calls number es

/-- The requests whose responses have arrived, in this order -/
def arrivals : List SortEvent → List TreeFetch
  | []                   => []
  | .applySort _ :: es => arrivals es
  | .arrive f :: es    => f :: arrivals es

/-- The rows, whatever objects they are -/
def State.shown (s : State) : List Row := s.rows.map fun row => { row with ref := 0 }

/-- The rows that a response comes to -/
def hydration (nodes : List ApiNode) : List Row := (State.start.hydrateTree nodes).shown

/-- The sort order that the page marks as the current one -/
structure Page.Marked (sort : SortKey) (p : Page) : Prop where
  currentSort : p.currentSort = sort
  activeColumn : p.activeColumn = some (sortLabels sort)
  ariaChecked : ∀ item, p.ariaChecked item = true ↔ item = sort

/-- The page shows the tree that was asked for last, and marks its sort order. -/
structure LastSortShown (responses : TreeFetch → List ApiNode) (last : TreeFetch) (p : Page) : Prop
    extends p.Marked last.sort where
  rows : p.tree.shown = hydration (responses last)

/-! ### One step -/

section step

variable {p t : Page} {es : List SortEvent} {f last : TreeFetch} {nodes : List ApiNode}
  {sort : SortKey}

/-- A click on a column header marks that column, but for `%Parent`, which marks `Self`. -/
theorem activeColumn_onColumnHeaderClick (p : Page) (col : Column) :
    (p.onColumnHeaderClick col).activeColumn =
      some ⟨if col = .pctParent then .selfWall else col, col = .fqn⟩ := by
  cases col <;> rfl

lemma shown_hydrateTree (s : State) (nodes : List ApiNode) :
    (s.hydrateTree nodes).shown = hydration nodes := by
  have hrefs : ∀ (nextRef : ℕ) (rows : List Row),
      ((withRefs nextRef rows).map fun row => { row with ref := 0 }) =
        rows.map fun row => { row with ref := 0 } := by
    intro nextRef rows
    refine List.ext_getElem (by simp [withRefs]) fun i h h' => ?_
    simp [withRefs]
  exact (hrefs s.nextRef _).trans (hrefs State.start.nextRef _).symm

lemma marked_applySort (p : Page) (sort : SortKey) : (p.applySort sort).Marked sort :=
  ⟨rfl, rfl, fun _ => decide_eq_true_iff⟩

variable [JsString] {fqn : ℕ → Option (List UInt16)} {responses : TreeFetch → List ApiNode}

lemma applySearch_eq (p : Page) (q : List UInt16) :
    ∃ found index, p.applySearch fqn q =
      { p with currentQuery := q, currentMatches := found, currentMatchIndex := index } := by
  rw [Page.applySearch]
  split_ifs
  · exact ⟨p.currentMatches, p.currentMatchIndex, rfl⟩
  · exact ⟨[], -1, rfl⟩
  · exact ⟨_, _, rfl⟩

/-- Besides the tree, an arrival changes what was found in it. -/
lemma treeArrived_eq (p : Page) (f : TreeFetch) (nodes : List ApiNode) :
    ∃ found index, p.treeArrived fqn f nodes =
      { p with
        tree := p.tree.hydrateTree nodes
        hasVirtualizer := true
        inFlight := p.inFlight.filter (· ≠ f)
        currentMatches := found
        currentMatchIndex := index } := by
  set cleared := ({ p with inFlight := p.inFlight.filter (· ≠ f) }.hydrateTree
    nodes).clearSearchMatches with hcleared
  have harrived : p.treeArrived fqn f nodes =
      if f.number = 0 then { p with inFlight := p.inFlight.filter (· ≠ f) }.hydrateTree nodes
      else if p.currentQuery ≠ [] then cleared.applySearch fqn p.currentQuery else cleared := rfl
  rw [harrived]
  split_ifs
  · exact ⟨p.currentMatches, p.currentMatchIndex, rfl⟩
  · obtain ⟨found, index, heq⟩ := @applySearch_eq _ fqn cleared p.currentQuery
    exact ⟨found, index, heq⟩
  · exact ⟨[], -1, rfl⟩

lemma Page.Marked.treeArrived (h : p.Marked sort) : (p.treeArrived fqn f nodes).Marked sort := by
  obtain ⟨found, index, heq⟩ := @treeArrived_eq _ fqn p f nodes
  rw [heq]
  exact ⟨h.currentSort, h.activeColumn, h.ariaChecked⟩

/-! ### Whole runs -/

/-- A request is in flight until its response arrives. -/
lemma mem_arrivals_of_run (h : Run (SortStep fqn responses) p es t)
    (hf : f ∈ p.inFlight ++ calls p.sent es) : f ∈ t.inFlight ∨ f ∈ arrivals es := by
  induction h with
  | nil => simpa [calls, arrivals] using hf
  | @cons p _ _ e es hstep _ ih =>
    cases hstep with
    | @applySort newSort =>
      refine ih ?_
      change f ∈ (p.inFlight ++ [⟨p.sent, newSort⟩]) ++ calls (p.sent + 1) es
      simpa [calls] using hf
    | @arrive g =>
      obtain ⟨found, index, heq⟩ := @treeArrived_eq _ fqn p g (responses g)
      rw [heq] at ih
      by_cases hg : f = g
      · exact .inr (hg ▸ List.mem_cons_self)
      · refine (ih ?_).imp_right (List.mem_cons_of_mem g)
        rw [List.mem_append] at hf ⊢
        exact hf.imp_left fun hf => List.mem_filter.mpr ⟨hf, by simpa using hg⟩

/-- The last response to arrive decides what is shown. -/
lemma shown_of_run (h : Run (SortStep fqn responses) p es t) :
    t.tree.shown =
      ((arrivals es).getLast?.map fun f => hydration (responses f)).getD p.tree.shown := by
  induction h with
  | nil => rfl
  | @cons p _ _ e es hstep _ ih =>
    cases hstep with
    | applySort => exact ih
    | @arrive g =>
      obtain ⟨found, index, heq⟩ := @treeArrived_eq _ fqn p g (responses g)
      rw [heq] at ih
      rw [ih, arrivals, List.getLast?_cons, shown_hydrateTree]
      cases (arrivals es).getLast? <;> rfl

/-- The last call decides what is marked. -/
lemma marked_of_run (h : Run (SortStep fqn responses) p es t)
    (hmarked : calls p.sent es = [] → p.Marked sort)
    (hlast : ∀ last, (calls p.sent es).getLast? = some last → last.sort = sort) :
    t.Marked sort := by
  induction h with
  | nil => exact hmarked rfl
  | @cons p _ _ e es hstep _ ih =>
    cases hstep with
    | @applySort newSort =>
      refine ih (fun hnone => ?_) fun last hl => hlast last ?_
      · have hsort : newSort = sort := by
          refine hlast ⟨p.sent, newSort⟩ ?_
          rw [calls, List.getLast?_cons]
          change calls (p.sent + 1) es = [] at hnone
          rw [hnone]
          rfl
        exact hsort ▸ marked_applySort p newSort
      · change (calls (p.sent + 1) es).getLast? = some last at hl
        rw [calls, List.getLast?_cons, hl]
        rfl
    | @arrive g =>
      obtain ⟨found, index, heq⟩ := @treeArrived_eq _ fqn p g (responses g)
      have hsent : (p.treeArrived fqn g (responses g)).sent = p.sent := by rw [heq]
      rw [hsent] at ih
      exact ih (fun hnone => (hmarked hnone).treeArrived) hlast

/-- The order of calls and arrivals does not depend on what the responses say. -/
lemma exists_run_of_responses (h : Run (SortStep fqn responses) p es t)
    (responses' : TreeFetch → List ApiNode) : ∃ t', Run (SortStep fqn responses') p es t' := by
  have hsame : ∀ p e t p', SortStep fqn responses p e t →
      p'.inFlight = p.inFlight ∧ p'.sent = p.sent →
      ∃ t', SortStep fqn responses' p' e t' ∧ t'.inFlight = t.inFlight ∧ t'.sent = t.sent := by
    rintro p e t p' hstep ⟨hflight, hsent⟩
    cases hstep with
    | @applySort newSort =>
      refine ⟨_, .applySort, ?_, congrArg (· + 1) hsent⟩
      change p'.inFlight ++ [⟨p'.sent, newSort⟩] = p.inFlight ++ [⟨p.sent, newSort⟩]
      rw [hflight, hsent]
    | @arrive g hg =>
      obtain ⟨found, index, heq⟩ := @treeArrived_eq _ fqn p g (responses g)
      obtain ⟨found', index', heq'⟩ := @treeArrived_eq _ fqn p' g (responses' g)
      refine ⟨_, .arrive (hflight ▸ hg), ?_⟩
      rw [heq, heq']
      exact ⟨congrArg (List.filter (· ≠ g)) hflight, hsent⟩
  obtain ⟨t', hrun, -⟩ := h.simulate hsame ⟨rfl, rfl⟩
  exact ⟨t', hrun⟩

/-- One call, whose count is another one in the response to this request -/
def counted (last f : TreeFetch) : List ApiNode :=
  [⟨2, some 1, false, true, { (default : NodeData) with count := if f = last then 1 else 0 }⟩]

omit [JsString] in
lemma eq_of_hydration_counted (h : hydration (counted last f) = hydration (counted last last)) :
    f = last := by
  have hcounts : (hydration (counted last f)).map (fun row => row.data.count) =
      (hydration (counted last last)).map fun row => row.data.count := by rw [h]
  have hcount : (if f = last then 1 else 0) = if last = last then 1 else 0 :=
    List.singleton_injective hcounts
  by_contra hne
  rw [if_neg hne, if_pos rfl] at hcount
  cases hcount

/-- Once all responses have arrived, the page shows the tree that was asked for last, whatever the
responses say, if and only if its response was the last to arrive. -/
theorem lastSortShown_iff (hrun : Run (SortStep fqn responses) p es t) (hdone : t.inFlight = [])
    (hlast : (calls p.sent es).getLast? = some last) :
    (∀ responses t, Run (SortStep fqn responses) p es t → LastSortShown responses last t) ↔
      (arrivals es).getLast? = some last := by
  have hmem : last ∈ arrivals es := by
    have hcall : last ∈ p.inFlight ++ calls p.sent es :=
      List.mem_append_right _ (List.mem_of_getLast? hlast)
    have := mem_arrivals_of_run hrun hcall
    simpa [hdone] using this
  obtain ⟨f, hf⟩ : ∃ f, (arrivals es).getLast? = some f := by
    rw [← Option.ne_none_iff_exists', ne_eq, List.getLast?_eq_none_iff]
    exact List.ne_nil_of_mem hmem
  have hshown : ∀ responses t, Run (SortStep fqn responses) p es t →
      t.tree.shown = hydration (responses f) := by
    intro responses t hrun
    have := shown_of_run hrun
    rwa [hf] at this
  constructor
  · intro hall
    obtain ⟨t', hrun'⟩ := exists_run_of_responses hrun (counted last)
    have hrows := (hall _ t' hrun').rows
    rw [hshown _ t' hrun'] at hrows
    rw [hf, eq_of_hydration_counted hrows]
  · intro heq responses' t' hrun'
    obtain rfl := Option.some.inj (hf.symm.trans heq)
    refine ⟨marked_of_run hrun' (fun hnone => ?_) fun last' hlast' => ?_, hshown _ t' hrun'⟩
    · rw [hnone] at hlast
      cases hlast
    · rw [Option.some.inj (hlast.symm.trans hlast')]

end step

/-! ### Two changes of the sort order -/

/-- Two calls below the root, of which 2 was made more often and 3 took longer -/
def twoCalls (f : TreeFetch) : List ApiNode :=
  let two : ApiNode := ⟨2, some 1, false, true, { (default : NodeData) with count := 9 }⟩
  let three : ApiNode := ⟨3, some 1, false, true, { (default : NodeData) with selfWallNs := 5 }⟩
  ⟨1, none, true, true, default⟩ ::
    match f.sort with
    | .countDesc => [two, three]
    | _          => [three, two]

def unnamed : ℕ → Option (List UInt16) := fun _ => none

/-- The order of the calls is that of the responses. -/
theorem lastSortShown_of_run_inOrder :
    let es : List SortEvent := [.arrive ⟨0, .totalWallDesc⟩, .applySort .selfWallDesc,
      .applySort .countDesc, .arrive ⟨1, .selfWallDesc⟩, .arrive ⟨2, .countDesc⟩]
    ∃ t, Run (@SortStep Search.dotted unnamed twoCalls) .main es t ∧
      LastSortShown twoCalls ⟨2, .countDesc⟩ t := by
  intro es
  have hrun : Run (@SortStep Search.dotted unnamed twoCalls) .main es _ :=
    .cons (@SortStep.arrive Search.dotted _ _ _ _ (by decide))
      (.cons (@SortStep.applySort Search.dotted _ _ _ _)
        (.cons (@SortStep.applySort Search.dotted _ _ _ _)
          (.cons (@SortStep.arrive Search.dotted _ _ _ _ (by decide))
            (.cons (@SortStep.arrive Search.dotted _ _ _ _ (by decide)) (.nil _)))))
  exact ⟨_, hrun,
    (@lastSortShown_iff _ _ _ _ Search.dotted _ _ hrun rfl rfl).mpr rfl _ _ hrun⟩

/-- The response for the sort order that was chosen first arrives last. -/
theorem not_lastSortShown :
    ¬ ∀ (fqn : ℕ → Option (List UInt16)) (responses : TreeFetch → List ApiNode) (p t : Page)
        (es : List SortEvent) (last : TreeFetch),
      Run (@SortStep Search.dotted fqn responses) p es t → t.inFlight = [] →
      (calls p.sent es).getLast? = some last → LastSortShown responses last t := by
  intro h
  obtain ⟨t, hrun, hdone, hshown⟩ : ∃ t, Run (@SortStep Search.dotted unnamed twoCalls) .main
      [.arrive ⟨0, .totalWallDesc⟩, .applySort .selfWallDesc, .applySort .countDesc,
        .arrive ⟨2, .countDesc⟩, .arrive ⟨1, .selfWallDesc⟩] t ∧ t.inFlight = [] ∧
      t.tree.rows.map (·.nodeId) = [3, 2] := by
    refine ⟨_, .cons (@SortStep.arrive Search.dotted _ _ _ _ (by decide))
      (.cons (@SortStep.applySort Search.dotted _ _ _ _)
        (.cons (@SortStep.applySort Search.dotted _ _ _ _)
          (.cons (@SortStep.arrive Search.dotted _ _ _ _ (by decide))
            (.cons (@SortStep.arrive Search.dotted _ _ _ _ (by decide)) (.nil _))))),
      rfl, by decide⟩
  have hrows := congrArg (List.map (·.nodeId)) (h unnamed twoCalls .main t _ _ hrun hdone rfl).rows
  rw [State.shown, List.map_map] at hrows
  have hids : [3, 2] = (hydration (twoCalls ⟨2, .countDesc⟩)).map (·.nodeId) :=
    hshown.symm.trans hrows
  revert hids
  decide

end Detail

end PhpTreeViz
