import Mathlib.Data.List.TakeWhile
import PhpTreeViz.Core.Outline
import PhpTreeViz.Core.Run

/-!
# The row list of the call tree

The page of one trace shows its call tree as a flat list of rows. A click on the chevron of a row
collapses it, or fetches its children; when the response arrives they are spliced into the list, at
the index that the row had when the request was sent. Other clicks and responses come in between.

Row objects are compared by reference in the source, because a response sets the flags of the row it
was requested for, which may have left the list. `ref` stands for that reference.
-/

namespace PhpTreeViz

open Core

namespace Detail

/-! ### Rows and requests -/

/-- What a row tells about its node. -/
structure NodeData where
  depth : UInt32
  fqn : String
  file : String
  line : UInt32
  kind : UInt8
  count : ℕ
  totalWallNs : ℤ
  selfWallNs : ℤ
  totalCpuUNs : ℤ
  totalCpuSNs : ℤ
  totalMemDeltaBytes : ℤ
  abnormalExitCount : ℕ
  anomalyCount : ℕ
  deriving DecidableEq, Inhabited

/-- A node of a response. Only the root has no parent. -/
structure ApiNode where
  nodeId : ℕ
  parentNodeId : Option ℕ
  hasChildren : Bool
  childrenLoaded : Bool
  data : NodeData

/-- The place of a row in the tree. -/
structure Place where
  nodeId : ℕ
  parentNodeId : Option ℕ
  indentDepthForUi : ℕ
  deriving DecidableEq

structure Row extends Place where
  ref : ℕ
  hasChildren : Bool
  childrenLoaded : Bool
  expanded : Bool
  loadingChildren : Bool
  loadError : Bool
  data : NodeData
  deriving DecidableEq

/-- What `loadChildren` still has in its hands when the response arrives. -/
structure Request where
  nodeId : ℕ
  indentDepthForUi : ℕ
  ref : ℕ
  idx : ℕ
  token : ℕ
  aborted : Bool
  deriving DecidableEq

/-- `nextRef` is the reference that the next row object gets. -/
structure State where
  rows : List Row
  nextRef : ℕ
  expandTokens : ℕ → ℕ
  expandControllers : ℕ → Option ℕ
  inFlight : List Request

/-- The page before its tree has arrived. -/
def State.start : State where
  rows := []
  nextRef := 0
  expandTokens _ := 0
  expandControllers _ := none
  inFlight := []

/-! ### The virtualizer -/

def insertRowsAt (rows : List Row) (index : ℕ) (newRows : List Row) : List Row :=
  if newRows = [] then rows else rows.take index ++ newRows ++ rows.drop index

def removeRowsAt (rows : List Row) (index count : ℕ) : List Row :=
  rows.take index ++ rows.drop (index + count)

/-- References for row objects that have just been made. -/
def withRefs (nextRef : ℕ) (rows : List Row) : List Row :=
  rows.mapIdx fun i row => { row with ref := nextRef + i }

/-! ### Hydration -/

def makeRow (apiNode : ApiNode) (uiDepth : ℕ) : Row where
  nodeId := apiNode.nodeId
  parentNodeId := apiNode.parentNodeId
  indentDepthForUi := uiDepth
  ref := 0
  hasChildren := apiNode.hasChildren
  childrenLoaded := apiNode.childrenLoaded
  expanded := apiNode.childrenLoaded
  loadingChildren := false
  loadError := false
  data := apiNode.data

def childrenOf (apiNodes : List ApiNode) (parent : ℕ) : List ApiNode :=
  apiNodes.filter (·.parentNodeId = some parent)

/-- The rows below a node. The recursion is cut off when the fuel runs out. -/
def walk (apiNodes : List ApiNode) : ℕ → ℕ → ℕ → List Row
  | 0, _, _                  => []
  | fuel + 1, parent, uiDepth => (childrenOf apiNodes parent).flatMap fun child =>
    makeRow child uiDepth :: walk apiNodes fuel child.nodeId (uiDepth + 1)

/-- `new Map()` of the nodes by their id: the last one counts. -/
def byId (apiNodes : List ApiNode) (nodeId : ℕ) : Option ApiNode :=
  apiNodes.reverse.find? (·.nodeId = nodeId)

def State.hydrateTree (s : State) (apiNodes : List ApiNode) : State :=
  let rows := (childrenOf apiNodes 1).flatMap fun child =>
    makeRow child 0 :: walk apiNodes apiNodes.length child.nodeId 1
  let rows := rows.map fun row =>
    match byId apiNodes row.nodeId with
    | none     => row
    | some api =>
      { row with childrenLoaded := api.childrenLoaded, hasChildren := api.hasChildren }
  { s with rows := withRefs s.nextRef rows, nextRef := s.nextRef + rows.length }

/-! ### Expand and collapse -/

namespace State

/-- Assign to the fields of a row object. If it is not in the list any more, nobody sees it. -/
def assign (s : State) (ref : ℕ) (f : Row → Row) : State :=
  { s with rows := s.rows.map fun row => if row.ref = ref then f row else row }

def abortInFlight (s : State) (nodeId : ℕ) : State :=
  match s.expandControllers nodeId with
  | none       => s
  | some token =>
    { s with
      inFlight := s.inFlight.map fun q =>
        if q.nodeId = nodeId ∧ q.token = token then { q with aborted := true } else q
      expandControllers := Function.update s.expandControllers nodeId none }

def collapseAt (s : State) (idx : ℕ) (parent : Row) : State :=
  let s := s.abortInFlight parent.nodeId
  let removeCount := ((s.rows.drop (idx + 1)).takeWhile fun row =>
    row.indentDepthForUi > parent.indentDepthForUi).length
  let s := { s with rows := removeRowsAt s.rows (idx + 1) removeCount }
  s.assign parent.ref ({ · with expanded := false, childrenLoaded := false })

/-- `loadChildren` until it awaits the response. -/
def loadChildren (s : State) (idx : ℕ) (row : Row) : State :=
  let token := s.expandTokens row.nodeId + 1
  let s := s.assign row.ref ({ · with loadingChildren := true, expanded := true })
  { s with
    expandTokens := Function.update s.expandTokens row.nodeId token
    expandControllers := Function.update s.expandControllers row.nodeId (some token)
    inFlight := s.inFlight ++ [⟨row.nodeId, row.indentDepthForUi, row.ref, idx, token, false⟩] }

def clearLoadError (s : State) (row : Row) : State :=
  if row.loadError then s.assign row.ref ({ · with loadError := false }) else s

def onChevronClick (s : State) (nodeId : ℕ) : State :=
  let idx := s.rows.findIdx (·.nodeId = nodeId)
  match s.rows[idx]? with
  | none        => s
  | some stored =>
    if stored.loadingChildren then
      (s.abortInFlight stored.nodeId).assign stored.ref
        ({ · with loadingChildren := false, expanded := false })
    else if stored.expanded then s.collapseAt idx stored
    else
      let s := s.clearLoadError stored
      if stored.childrenLoaded then s.assign stored.ref ({ · with expanded := true })
      else s.loadChildren idx stored

/-- The `finally` block of a request that has ended. -/
def settle (s : State) (q : Request) : State :=
  { s with
    expandControllers := Function.update s.expandControllers q.nodeId none
    inFlight := s.inFlight.filter fun q' => ¬ (q'.nodeId = q.nodeId ∧ q'.token = q.token) }

def childRow (q : Request) (api : ApiNode) : Row where
  nodeId := api.nodeId
  parentNodeId := api.parentNodeId
  indentDepthForUi := q.indentDepthForUi + 1
  ref := 0
  hasChildren := api.hasChildren
  childrenLoaded := false
  expanded := false
  loadingChildren := false
  loadError := false
  data := api.data

/-- `loadChildren` from a response with these nodes on. -/
def childrenArrived (s : State) (q : Request) (nodes : List ApiNode) : State :=
  if s.expandTokens q.nodeId ≠ q.token then s.settle q
  else
    let newRows := withRefs s.nextRef (nodes.map (childRow q))
    let s := s.assign q.ref ({ · with loadingChildren := false, childrenLoaded := true })
    let s := { s with
      rows := insertRowsAt s.rows (q.idx + 1) newRows
      nextRef := s.nextRef + newRows.length }
    s.settle q

/-- `loadChildren` from an error on. An abort arrives as an `ApiNetworkError`, like all others. -/
def childrenFailed (s : State) (q : Request) : State :=
  if s.expandTokens q.nodeId ≠ q.token then s.settle q
  else (s.assign q.ref ({ · with loadingChildren := false, loadError := true })).settle q

end State

/-! ### Runs -/

/-- The call tree: the parent of each node, and its distance from the root. -/
structure CallTree where
  parent : ℕ → Option ℕ
  depth : ℕ → ℕ
  depth_root : depth 1 = 0
  depth_child : ∀ n p, parent n = some p → depth n = depth p + 1

/-- The nodes of a response are nodes of the tree, each at most once. -/
structure CallTree.Part (tree : CallTree) (nodes : List ApiNode) : Prop where
  nodup : (nodes.map ApiNode.nodeId).Nodup
  parent : ∀ node ∈ nodes, node.parentNodeId = tree.parent node.nodeId

/-- The nodes of a response are exactly the children of a node. -/
structure CallTree.Children (tree : CallTree) (nodeId : ℕ) (nodes : List ApiNode) : Prop
    extends tree.Part nodes where
  mem_iff : ∀ n, n ∈ nodes.map ApiNode.nodeId ↔ tree.parent n = some nodeId

inductive Event where
  | click (nodeId : ℕ)
  | arrive (q : Request) (nodes : List ApiNode)
  | fail (q : Request)
  | sort (nodes : List ApiNode)

/-- Clicks on any row, responses in any order, and new trees after a change of the sort order. A
request that was aborted gets no response. -/
inductive Step (tree : CallTree) : State → Event → State → Prop where
  | click {s : State} {nodeId : ℕ} : Step tree s (.click nodeId) (s.onChevronClick nodeId)
  | arrive {s : State} {q : Request} {nodes : List ApiNode} :
      q ∈ s.inFlight → q.aborted = false → tree.Children q.nodeId nodes →
      Step tree s (.arrive q nodes) (s.childrenArrived q nodes)
  | fail {s : State} {q : Request} :
      q ∈ s.inFlight → Step tree s (.fail q) (s.childrenFailed q)
  | sort {s : State} {nodes : List ApiNode} :
      tree.Part nodes → Step tree s (.sort nodes) (s.hydrateTree nodes)

/-! ### Places -/

def outline : Outline Place (Option ℕ) where
  key p := some p.nodeId
  parent p := p.parentNodeId
  indent p := p.indentDepthForUi
  IsTop p := p.parentNodeId = some 1

lemma map_toPlace_withRefs (rows : List Row) (nextRef : ℕ) :
    (withRefs nextRef rows).map Row.toPlace = rows.map Row.toPlace := by
  refine List.ext_getElem (by simp [withRefs]) fun i h h' => ?_
  simp [withRefs]

lemma map_toPlace_insertRowsAt (rows newRows : List Row) (index : ℕ) :
    (insertRowsAt rows index newRows).map Row.toPlace =
      (rows.map Row.toPlace).take index ++ newRows.map Row.toPlace ++
        (rows.map Row.toPlace).drop index := by
  rw [insertRowsAt]
  split_ifs with h
  · simp [h]
  · simp [List.map_take, List.map_drop]

namespace State

def places (s : State) : List Place := s.rows.map Row.toPlace

variable {s : State} {q : Request} {ref nodeId idx : ℕ} {f : Row → Row} {row : Row}
  {nodes : List ApiNode}

/-- The index of the row that a click on this node is about. -/
def clicked (s : State) (nodeId : ℕ) : ℕ := s.rows.findIdx (·.nodeId = nodeId)

lemma onChevronClick_none (h : s.rows[s.clicked nodeId]? = none) : s.onChevronClick nodeId = s := by
  rw [clicked] at h
  rw [onChevronClick]
  simp only [h]

lemma onChevronClick_some (h : s.rows[s.clicked nodeId]? = some row) :
    s.onChevronClick nodeId =
      if row.loadingChildren then
        (s.abortInFlight row.nodeId).assign row.ref
          ({ · with loadingChildren := false, expanded := false })
      else if row.expanded then s.collapseAt (s.clicked nodeId) row
      else if row.childrenLoaded then
        (s.clearLoadError row).assign row.ref ({ · with expanded := true })
      else (s.clearLoadError row).loadChildren (s.clicked nodeId) row := by
  rw [clicked] at h ⊢
  rw [onChevronClick]
  simp only [h]

/-- What an assignment leaves of each row, it leaves of the list. -/
lemma map_rows_assign {α : Type*} (g : Row → α) (hf : ∀ row, g (f row) = g row) :
    (s.assign ref f).rows.map g = s.rows.map g := by
  rw [assign, List.map_map]
  refine List.map_congr_left fun row _ => ?_
  rw [Function.comp_apply]
  split_ifs
  · exact hf row
  · rfl

lemma places_assign (hf : ∀ row, (f row).toPlace = row.toPlace) :
    (s.assign ref f).places = s.places := map_rows_assign Row.toPlace hf

@[simp] lemma rows_abortInFlight : (s.abortInFlight nodeId).rows = s.rows := by
  rw [abortInFlight]
  split
  · rfl
  · rfl

/-- An abort only marks requests. -/
lemma map_inFlight_abortInFlight {α : Type*} (g : Request → α)
    (hg : ∀ q, g { q with aborted := true } = g q) :
    (s.abortInFlight nodeId).inFlight.map g = s.inFlight.map g := by
  rw [abortInFlight]
  split
  · rfl
  · rw [List.map_map]
    refine List.map_congr_left fun q _ => ?_
    rw [Function.comp_apply]
    split_ifs
    · exact hg q
    · rfl

@[simp] lemma places_settle : (s.settle q).places = s.places := rfl

lemma clearLoadError_cases (s : State) (row : Row) :
    s.clearLoadError row = s ∨
      s.clearLoadError row = s.assign row.ref ({ · with loadError := false }) := by
  rw [clearLoadError]
  split_ifs
  · exact .inr rfl
  · exact .inl rfl

lemma places_clearLoadError : (s.clearLoadError row).places = s.places := by
  rcases clearLoadError_cases s row with h | h
  · rw [h]
  · rw [h]
    exact places_assign fun _ => rfl

@[simp] lemma inFlight_clearLoadError : (s.clearLoadError row).inFlight = s.inFlight := by
  rcases clearLoadError_cases s row with h | h
  · rw [h]
  · rw [h]
    rfl

lemma childrenArrived_stale (h : s.expandTokens q.nodeId ≠ q.token) :
    s.childrenArrived q nodes = s.settle q := if_pos h

lemma childrenFailed_stale (h : s.expandTokens q.nodeId ≠ q.token) :
    s.childrenFailed q = s.settle q := if_pos h

lemma childrenFailed_current (h : s.expandTokens q.nodeId = q.token) :
    s.childrenFailed q =
      (s.assign q.ref ({ · with loadingChildren := false, loadError := true })).settle q :=
  if_neg (not_not.mpr h)

lemma places_loadChildren : (s.loadChildren idx row).places = s.places :=
  places_assign (f := ({ · with loadingChildren := true, expanded := true })) fun _ => rfl

/-- Collapsing removes the deeper rows that follow. -/
lemma places_collapseAt (hrow : s.rows[idx]? = some row) :
    ∃ before below after, s.places = before ++ row.toPlace :: (below ++ after) ∧
      (s.collapseAt idx row).places = before ++ row.toPlace :: after ∧
      (∀ p ∈ below, row.indentDepthForUi < p.indentDepthForUi) ∧
      ∀ p ∈ after.head?, p.indentDepthForUi ≤ row.indentDepthForUi := by
  set deeper : Row → Bool := fun r => r.indentDepthForUi > row.indentDepthForUi with hdeeper
  set rest := s.rows.drop (idx + 1) with hrest
  have htake : s.rows.take (idx + 1) = s.rows.take idx ++ [row] := by
    simp [List.take_add_one, hrow]
  have hrows : s.rows = s.rows.take idx ++ row :: rest := by
    have := List.take_append_drop (idx + 1) s.rows
    rw [htake, ← hrest, List.append_assoc] at this
    exact this.symm
  have hdrop : s.rows.drop (idx + 1 + (rest.takeWhile deeper).length) = rest.dropWhile deeper := by
    have := List.takeWhile_append_dropWhile (p := deeper) (l := rest)
    rw [← List.drop_drop, ← hrest]
    exact (congrArg _ this.symm).trans (List.drop_left ..)
  refine ⟨(s.rows.take idx).map Row.toPlace, (rest.takeWhile deeper).map Row.toPlace,
    (rest.dropWhile deeper).map Row.toPlace, ?_, ?_, ?_, ?_⟩
  · rw [← List.map_append, List.takeWhile_append_dropWhile]
    conv_lhs => rw [places, hrows]
    simp
  · rw [collapseAt, places_assign]
    · simp only [places, removeRowsAt, rows_abortInFlight, ← hrest, ← hdeeper, hdrop, htake]
      simp
    · exact fun _ => rfl
  · intro p hp
    obtain ⟨r, hr, rfl⟩ := List.mem_map.mp hp
    simpa [hdeeper] using List.mem_takeWhile_imp hr
  · intro p hp
    rw [List.head?_map] at hp
    obtain ⟨r, hr, rfl⟩ := Option.map_eq_some_iff.mp hp
    have := List.head?_dropWhile_not deeper rest
    rw [hr] at this
    simpa [hdeeper] using this

/-- A click leaves the places of the rows as they are, but for a collapse. -/
lemma places_onChevronClick (s : State) (nodeId : ℕ) :
    (s.onChevronClick nodeId).places = s.places ∨
      ∃ before p below after, s.places = before ++ p :: (below ++ after) ∧
        (s.onChevronClick nodeId).places = before ++ p :: after ∧
        (∀ x ∈ below, p.indentDepthForUi < x.indentDepthForUi) ∧
        ∀ x ∈ after.head?, x.indentDepthForUi ≤ p.indentDepthForUi := by
  cases hrow : s.rows[s.clicked nodeId]? with
  | none => exact .inl (congrArg places (onChevronClick_none hrow))
  | some stored =>
    rw [onChevronClick_some hrow]
    split_ifs
    · left
      rw [places_assign]
      · rw [places, rows_abortInFlight, places]
      · exact fun _ => rfl
    · right
      obtain ⟨before, below, after, h⟩ := places_collapseAt hrow
      exact ⟨before, stored.toPlace, below, after, h⟩
    · left
      rw [places_assign]
      · exact places_clearLoadError
      · exact fun _ => rfl
    · exact .inl (places_loadChildren.trans places_clearLoadError)

/-! ### The nodes that have been asked for -/

/-- The node of each request, and the indent of its row. -/
def asked (s : State) : List (ℕ × ℕ) := s.inFlight.map fun q => (q.nodeId, q.indentDepthForUi)

lemma asked_abortInFlight : (s.abortInFlight nodeId).asked = s.asked :=
  map_inFlight_abortInFlight _ fun _ => rfl

lemma asked_clearLoadError : (s.clearLoadError row).asked = s.asked := by
  rw [asked, inFlight_clearLoadError, asked]

lemma asked_loadChildren :
    (s.loadChildren idx row).asked = s.asked ++ [(row.nodeId, row.indentDepthForUi)] := by
  simp [asked, loadChildren, assign]

lemma asked_settle : (s.settle q).asked ⊆ s.asked :=
  List.map_subset _ (List.filter_subset_self _)

/-- A click asks for the node of a row, or for nothing. -/
lemma asked_onChevronClick {a : ℕ × ℕ} (h : a ∈ (s.onChevronClick nodeId).asked) :
    a ∈ s.asked ∨ ∃ p ∈ s.places, a = (p.nodeId, p.indentDepthForUi) := by
  cases hrow : s.rows[s.clicked nodeId]? with
  | none =>
    rw [onChevronClick_none hrow] at h
    exact .inl h
  | some stored =>
    rw [onChevronClick_some hrow] at h
    split_ifs at h
    · exact .inl (asked_abortInFlight ▸ h)
    · exact .inl (asked_abortInFlight ▸ h)
    · exact .inl (asked_clearLoadError ▸ h)
    · rw [asked_loadChildren, asked_clearLoadError] at h
      refine (List.mem_append.mp h).imp_right fun h => ?_
      exact ⟨stored.toPlace, List.mem_map_of_mem (List.mem_of_getElem? hrow), by simpa using h⟩

end State

end Detail

end PhpTreeViz
