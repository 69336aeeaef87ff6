import Mathlib.Algebra.Order.Field.Rat
import PhpTreeViz.Api.Tree
import PhpTreeViz.Storage.ContextTree
import PhpTreeViz.Storage.Totals
import PhpTreeViz.Viz.Detail

/-!
# The share of a top-level row

The page shows each row with its share of the parent's total. The collector adds nothing to the
total of the synthetic root, so that the rows right below it have no share, however long their calls
took.
-/

namespace PhpTreeViz

open Core

/-- A node as the outline of the page takes it. -/
def TreeItem.toApiNode (item : TreeItem) : Detail.ApiNode where
  nodeId := item.nodeId
  parentNodeId := item.parentNodeId
  hasChildren := item.hasChildren
  childrenLoaded := item.childrenLoaded
  data :=
    { depth := item.depth
      fqn := item.fqn
      file := item.file
      line := item.line
      kind := item.kind
      count := item.count
      totalWallNs := item.totalWallNs
      selfWallNs := item.selfWallNs
      totalCpuUNs := item.totalCpuUNs
      totalCpuSNs := item.totalCpuSNs
      totalMemDeltaBytes := item.totalMemDeltaBytes
      abnormalExitCount := item.abnormalExitCount
      anomalyCount := item.anomalyCount }

namespace TreeView

/-! ### Rows with their numbers -/

/-- A row object of the page. Numbers are exact. -/
structure Row where
  nodeId : ℕ
  parentNodeId : Option ℕ
  depth : UInt32
  indentDepthForUi : ℕ
  fqn : String
  file : String
  line : UInt32
  kind : UInt8
  count : ℕ
  totalWallNs : ℤ
  selfWallNs : ℤ
  totalCpuUNs : ℤ
  totalCpuSNs : ℤ
  totalMemDeltaBytes : ℤ
  abnormalExitCount : ℕ
  anomalyCount : ℕ
  hasChildren : Bool
  childrenLoaded : Bool
  expanded : Bool
  parentTotalWallNs : ℤ
  loadingChildren : Bool
  loadError : Bool
  deriving DecidableEq

def makeRow (apiNode : TreeItem) (parentApi : Option TreeItem) (uiDepth : ℕ) : Row where
  nodeId := apiNode.nodeId
  parentNodeId := apiNode.parentNodeId
  depth := apiNode.depth
  indentDepthForUi := uiDepth
  fqn := apiNode.fqn
  file := apiNode.file
  line := apiNode.line
  kind := apiNode.kind
  count := apiNode.count
  totalWallNs := apiNode.totalWallNs
  selfWallNs := apiNode.selfWallNs
  totalCpuUNs := apiNode.totalCpuUNs
  totalCpuSNs := apiNode.totalCpuSNs
  totalMemDeltaBytes := apiNode.totalMemDeltaBytes
  abnormalExitCount := apiNode.abnormalExitCount
  anomalyCount := apiNode.anomalyCount
  hasChildren := apiNode.hasChildren
  childrenLoaded := apiNode.childrenLoaded
  expanded := apiNode.childrenLoaded
  parentTotalWallNs := (parentApi.map TreeItem.totalWallNs).getD 0
  loadingChildren := false
  loadError := false

def childItems (apiNodes : List TreeItem) (parent : ℕ) : List TreeItem :=
  apiNodes.filter (·.parentNodeId = some parent)

/-- The rows below a node. The recursion is cut off when the fuel runs out. -/
def walk (apiNodes : List TreeItem) : ℕ → TreeItem → ℕ → List Row
  | 0, _, _                   => []
  | fuel + 1, parent, uiDepth => (childItems apiNodes parent.nodeId).flatMap fun child =>
    makeRow child parent uiDepth :: walk apiNodes fuel child (uiDepth + 1)

/-- `new Map()` of the nodes by their id: the last one counts. -/
def byId (apiNodes : List TreeItem) (nodeId : ℕ) : Option TreeItem :=
  apiNodes.reverse.find? (·.nodeId = nodeId)

/-- The rows that `hydrateTree` hands to the virtualizer. -/
def hydrateTree (apiNodes : List TreeItem) : List Row :=
  let rows := (childItems apiNodes 1).flatMap fun child =>
    makeRow child (byId apiNodes 1) 0 :: walk apiNodes apiNodes.length child 1
  rows.map fun row =>
    match byId apiNodes row.nodeId with
    | none     => row
    | some api => { row with childrenLoaded := api.childrenLoaded, hasChildren := api.hasChildren }

def computePctOfParent (row : Row) : ℚ :=
  if row.parentTotalWallNs ≤ 0 then 0
  else if row.totalWallNs ≤ 0 then 0
  else
    let ratio : ℚ := row.totalWallNs / row.parentTotalWallNs * 100
    if ratio < 0 then 0 else if 100 < ratio then 100 else ratio

/-! ### The rows of the outline -/

/-- A row of the outline, which does not say how long its parent took. -/
def Row.outline (row : Row) : Detail.Row where
  nodeId := row.nodeId
  parentNodeId := row.parentNodeId
  indentDepthForUi := row.indentDepthForUi
  ref := 0
  hasChildren := row.hasChildren
  childrenLoaded := row.childrenLoaded
  expanded := row.expanded
  loadingChildren := row.loadingChildren
  loadError := row.loadError
  data :=
    { depth := row.depth
      fqn := row.fqn
      file := row.file
      line := row.line
      kind := row.kind
      count := row.count
      totalWallNs := row.totalWallNs
      selfWallNs := row.selfWallNs
      totalCpuUNs := row.totalCpuUNs
      totalCpuSNs := row.totalCpuSNs
      totalMemDeltaBytes := row.totalMemDeltaBytes
      abnormalExitCount := row.abnormalExitCount
      anomalyCount := row.anomalyCount }

section outline

variable (apiNodes : List TreeItem)

lemma childrenOf_map (parent : ℕ) : Detail.childrenOf (apiNodes.map TreeItem.toApiNode) parent =
    (childItems apiNodes parent).map TreeItem.toApiNode := List.filter_map

lemma byId_map (nodeId : ℕ) : Detail.byId (apiNodes.map TreeItem.toApiNode) nodeId =
    (byId apiNodes nodeId).map TreeItem.toApiNode := by
  rw [Detail.byId, byId, ← List.map_reverse, List.find?_map]
  rfl

lemma walk_outline (fuel uiDepth : ℕ) (parent : TreeItem) :
    (walk apiNodes fuel parent uiDepth).map Row.outline =
      Detail.walk (apiNodes.map TreeItem.toApiNode) fuel parent.nodeId uiDepth := by
  induction fuel generalizing parent uiDepth with
  | zero => rfl
  | succ fuel ih =>
    rw [walk, Detail.walk, childrenOf_map, List.map_flatMap, List.flatMap_map]
    refine List.flatMap_congr fun child _ => ?_
    rw [List.map_cons, ih]
    rfl

/-- The rows with their numbers are the rows of the outline. -/
theorem hydrateTree_outline :
    (Detail.State.start.hydrateTree (apiNodes.map TreeItem.toApiNode)).rows =
      Detail.withRefs 0 ((hydrateTree apiNodes).map Row.outline) := by
  have hrows : (Detail.childrenOf (apiNodes.map TreeItem.toApiNode) 1).flatMap (fun child =>
      Detail.makeRow child 0 ::
        Detail.walk (apiNodes.map TreeItem.toApiNode) apiNodes.length child.nodeId 1) =
      ((childItems apiNodes 1).flatMap fun child =>
        makeRow child (byId apiNodes 1) 0 :: walk apiNodes apiNodes.length child 1).map
          Row.outline := by
    rw [childrenOf_map, List.map_flatMap, List.flatMap_map]
    refine List.flatMap_congr fun child _ => ?_
    rw [List.map_cons, walk_outline]
    rfl
  rw [Detail.State.hydrateTree]
  simp only [List.length_map, hrows, hydrateTree, List.map_map]
  refine congrArg (Detail.withRefs 0) (List.map_congr_left fun row _ => ?_)
  simp only [Function.comp_apply, byId_map, Row.outline]
  cases byId apiNodes row.nodeId <;> rfl

end outline

/-! ### Where the numbers come from -/

/-- The numbers of a row are those of a node in the response, and its reference is the total of its
parent there, or nothing. -/
def MadeFrom (apiNodes : List TreeItem) (row : Row) : Prop :=
  ∃ api ∈ apiNodes, row.parentNodeId = api.parentNodeId ∧ row.totalWallNs = api.totalWallNs ∧
    (row.parentTotalWallNs = 0 ∨
      ∃ p ∈ apiNodes, row.parentNodeId = some p.nodeId ∧ row.parentTotalWallNs = p.totalWallNs)

section madeFrom

variable {apiNodes : List TreeItem} {child parent : TreeItem} {row : Row} {fuel uiDepth : ℕ}

lemma mem_childItems {nodeId : ℕ} : child ∈ childItems apiNodes nodeId ↔
    child ∈ apiNodes ∧ child.parentNodeId = some nodeId := by
  simp [childItems]

lemma madeFrom_makeRow (hp : parent ∈ apiNodes) (h : child ∈ childItems apiNodes parent.nodeId) :
    MadeFrom apiNodes (makeRow child parent uiDepth) := by
  obtain ⟨hchild, hparent⟩ := mem_childItems.mp h
  exact ⟨child, hchild, rfl, rfl, Or.inr ⟨parent, hp, hparent, rfl⟩⟩

lemma madeFrom_of_mem_walk (hp : parent ∈ apiNodes) (h : row ∈ walk apiNodes fuel parent uiDepth) :
    MadeFrom apiNodes row := by
  induction fuel generalizing parent uiDepth with
  | zero => cases h
  | succ fuel ih =>
    obtain ⟨child, hchild, hrow⟩ := List.mem_flatMap.mp h
    rcases List.mem_cons.mp hrow with rfl | hrow
    · exact madeFrom_makeRow hp hchild
    · exact ih (mem_childItems.mp hchild).1 hrow

lemma madeFrom_of_mem_hydrateTree (h : row ∈ hydrateTree apiNodes) : MadeFrom apiNodes row := by
  obtain ⟨row₀, hrow₀, rfl⟩ := List.mem_map.mp h
  have hmade : MadeFrom apiNodes row₀ := by
    obtain ⟨child, hchild, hrow⟩ := List.mem_flatMap.mp hrow₀
    obtain ⟨hmem, hparent⟩ := mem_childItems.mp hchild
    rcases List.mem_cons.mp hrow with rfl | hrow
    · cases hid : byId apiNodes 1 with
      | none => exact ⟨child, hmem, rfl, rfl, Or.inl rfl⟩
      | some p =>
        have hp : p ∈ apiNodes := List.mem_reverse.mp (List.mem_of_find?_eq_some hid)
        have hone : p.nodeId = 1 := by simpa using List.find?_some hid
        exact ⟨child, hmem, rfl, rfl, Or.inr ⟨p, hp, by rw [hone]; exact hparent, rfl⟩⟩
    · exact madeFrom_of_mem_walk hmem hrow
  cases byId apiNodes row₀.nodeId <;> exact hmade

end madeFrom

end TreeView

/-! ### Shares -/

open TreeView

/-- The total of the nodes right below the root. -/
def topLevelWall (db : TraceDb) : ℤ :=
  ((childrenOf db syntheticRootNodeId).map (·.totalWallNs.value)).sum

/-- The calls folded right below the root. -/
def topLevelCalls (db : TraceDb) (version : UInt32 → Option Call) : List Call :=
  (childrenOf db syntheticRootNodeId).flatMap fun r => mappedCalls db version r.nodeId

/-- The root has the total of the nodes below it, and of that each of their rows has its share. -/
structure TopLevelShares [Php] (db : TraceDb) (depth : ℕ) (sort : SortKey) : Prop where
  root : ∀ item ∈ handleTraceTree db depth sort, item.nodeId = syntheticRootNodeId →
    item.totalWallNs = topLevelWall db
  share : ∀ row ∈ hydrateTree (handleTraceTree db depth sort),
    row.parentNodeId = some syntheticRootNodeId → 0 < row.totalWallNs →
      computePctOfParent row = row.totalWallNs / topLevelWall db * 100 ∧ 0 < computePctOfParent row

lemma phpInt_of_toInt? [Php] {x : NumCell} {n : ℤ} (h : x.toInt? = some n) : phpInt x = n := by
  cases x with
  | integer m => exact Option.some.inj h
  | real x    => cases h

namespace WellFormed

variable {s : Traced} (h : WellFormed s)
include h

/-- A node whose calls took no time has the total 0. -/
lemma totalWall_eq_zero {r : NodeRow} (hr : r ∈ s.db.nodes.rows)
    (hzero : ∀ f ∈ s.log, f.node = r.nodeId → f.call.tOut ≤ f.call.tIn) :
    r.totalWallNs.toInt? = some 0 := by
  have hvalues : ∀ n ∈ Column.totalWall.values s.log r.nodeId, n = 0 := by
    intro n hn
    obtain ⟨f, hf, rfl⟩ := List.mem_map.mp hn
    obtain ⟨hf, hnode⟩ := List.mem_filter.mp hf
    have hle := hzero f hf (of_decide_eq_true hnode)
    rw [Int64.le_iff_toInt_le] at hle
    show f.call.wall.toInt = 0
    rw [Call.toInt_wall]
    omega
  have hsum := List.sum_eq_zero hvalues
  rw [← hsum]
  exact h.sums .totalWall r hr
    (FitsI64.of_nonneg (fun n hn => (hvalues n hn).ge) (by rw [hsum]; decide))

/-- Nothing is ever added to the total of the root. -/
lemma totalWall_root {r : NodeRow} (hr : r ∈ s.db.nodes.rows)
    (hroot : r.nodeId = syntheticRootNodeId) : r.totalWallNs.toInt? = some 0 :=
  h.totalWall_eq_zero hr fun _ hf hnode => absurd (hnode.trans hroot) (h.tree.node_ne_root hf)

lemma forall_topLevelCalls : (∀ c ∈ topLevelCalls s.db s.version, c.tOut ≤ c.tIn) ↔
    ∀ r ∈ childrenOf s.db syntheticRootNodeId, ∀ f ∈ s.log, f.node = r.nodeId →
      f.call.tOut ≤ f.call.tIn := by
  have hcalls : ∀ n, (∀ c ∈ mappedCalls s.db s.version n, c.tOut ≤ c.tIn) ↔
      ∀ f ∈ s.log, f.node = n → f.call.tOut ≤ f.call.tIn := by
    intro n
    have hmap := congrArg (fun l => ∀ x ∈ l, x)
      (h.map_mappedCalls (g := fun c => c.tOut ≤ c.tIn) (fun _ _ => rfl) n)
    simpa only [List.forall_mem_map, List.mem_filter, decide_eq_true_eq, and_imp, eq_iff_iff]
      using hmap
  simp only [topLevelCalls, List.mem_flatMap, forall_exists_index, and_imp]
  constructor
  · exact fun hall r hr => (hcalls r.nodeId).mp fun c hc => hall c r hr hc
  · exact fun hall c r hr hc => (hcalls r.nodeId).mpr (hall r hr) c hc

omit h in
/-- A call that took time right below the root shows in the total there. -/
lemma topLevelWall_pos (hwalls : WallsCounted s.db.nodes s.log) {r : NodeRow}
    (hr : r ∈ childrenOf s.db syntheticRootNodeId) {f : Folded} (hf : f ∈ s.log)
    (hnode : f.node = r.nodeId) (hlt : f.call.tIn < f.call.tOut) : 0 < topLevelWall s.db := by
  have hpos : 0 < f.call.wall.toInt := by
    rw [Int64.lt_iff_toInt_lt] at hlt
    rw [Call.toInt_wall]
    omega
  have hnonneg : ∀ x ∈ (childrenOf s.db syntheticRootNodeId).map (·.totalWallNs.value), 0 ≤ x :=
    List.forall_mem_map.mpr fun r hr => (hwalls r (List.mem_of_mem_filter hr)).1
  calc 0 < r.totalWallNs.value := (hwalls r (List.mem_of_mem_filter hr)).2 f hf hnode hpos
    _ ≤ topLevelWall s.db := List.single_le_sum hnonneg _ (List.mem_map_of_mem hr)

/-- The root has the total of the nodes below it only if no call took time there. -/
theorem topLevelShares_iff [Php] (hwalls : WallsCounted s.db.nodes s.log)
    (hrootFn : RootFn s.db.nodes s.log) (depth : ℕ) (sort : SortKey) :
    TopLevelShares s.db depth sort ↔ ∀ c ∈ topLevelCalls s.db s.version, c.tOut ≤ c.tIn := by
  rw [h.forall_topLevelCalls]
  constructor
  · intro hshares r hr f hf hnode
    by_contra hlt
    obtain ⟨root, hroot, hid, hparent, -⟩ := h.tree.root
    obtain ⟨item, hitem, hitemId, htotal⟩ := exists_root_mem_handleTraceTree depth
      sort hroot hparent (hrootFn root hroot hid ▸ h.rootFn)
    have hsum : topLevelWall s.db = 0 := by
      rw [← hshares.root item hitem (hitemId.trans hid), htotal]
      exact phpInt_of_toInt? (h.totalWall_root hroot hid)
    exact (topLevelWall_pos hwalls hr hf hnode (Int64.not_le.mp hlt)).ne' hsum
  · intro hzero
    have htotal : ∀ r ∈ childrenOf s.db syntheticRootNodeId, r.totalWallNs.toInt? = some 0 :=
      fun r hr => h.totalWall_eq_zero (List.mem_of_mem_filter hr) (hzero r hr)
    have hwall : topLevelWall s.db = 0 := List.sum_eq_zero (List.forall_mem_map.mpr fun r hr =>
      NumCell.value_of_toInt? (htotal r hr))
    constructor
    · intro item hitem hid
      obtain ⟨n, hn, hnid, -, hitemTotal⟩ := exists_of_mem_handleTraceTree hitem
      rw [hitemTotal, hwall]
      exact phpInt_of_toInt? (h.totalWall_root hn (hnid.symm.trans hid))
    · intro row hrow hparent hpos
      obtain ⟨api, hapi, hapiParent, hrowTotal, -⟩ := madeFrom_of_mem_hydrateTree hrow
      obtain ⟨n, hn, -, hnparent, hitemTotal⟩ := exists_of_mem_handleTraceTree hapi
      have hchild : n ∈ childrenOf s.db syntheticRootNodeId :=
        List.mem_filter.mpr ⟨hn, by simp [← hnparent, ← hapiParent, hparent]⟩
      rw [hrowTotal, hitemTotal, phpInt_of_toInt? (htotal n hchild)] at hpos
      exact absurd hpos (lt_irrefl 0)

/-- A row right below the root never has a share. -/
theorem pct_topLevel [Php] {depth : ℕ} {sort : SortKey} {row : Row}
    (hrow : row ∈ hydrateTree (handleTraceTree s.db depth sort))
    (hparent : row.parentNodeId = some syntheticRootNodeId) : computePctOfParent row = 0 := by
  have hzero : row.parentTotalWallNs = 0 := by
    obtain ⟨-, -, -, -, hzero | ⟨p, hp, hid, htotal⟩⟩ := madeFrom_of_mem_hydrateTree hrow
    · exact hzero
    · obtain ⟨n, hn, hnid, -, hpTotal⟩ := exists_of_mem_handleTraceTree hp
      have hroot : n.nodeId = syntheticRootNodeId := by
        rw [← hnid]
        exact Option.some.inj (hid.symm.trans hparent)
      rw [htotal, hpTotal]
      exact phpInt_of_toInt? (h.totalWall_root hn hroot)
  rw [computePctOfParent, if_pos hzero.le]

end WellFormed

/-! ### Every run -/

/-- Whatever is delivered, the rows right below the root have no share. So the total of the root is
the one of the nodes below it, and each of these has its share of it, exactly as long as no call
took time there. -/
theorem topLevelShares_iff_of_run [Engine] [Php] {key : TraceKey} {o : Observed}
    {as : List Attempt} {db : TraceDb} (hrun : Run (Observed.Step key) ⟨.empty, []⟩ as o)
    (hdb : o.storage.traces key = some db) (depth : ℕ) (sort : SortKey) :
    (TopLevelShares db depth sort ↔ ∀ c ∈ topLevelCalls db o.version, c.tOut ≤ c.tIn) ∧
      ∀ row ∈ hydrateTree (handleTraceTree db depth sort),
        row.parentNodeId = some syntheticRootNodeId → computePctOfParent row = 0 := by
  obtain ⟨log, hinv, hkeeps⟩ := (wallsCounted.and rootFn).of_run hrun
  rw [ensureTraceConn_of_traces hdb] at hinv hkeeps
  rcases hinv with ⟨hfresh, -⟩ | ⟨hwf, -⟩
  · obtain rfl : db = .fresh := hfresh
    have hitems : ∀ item, item ∉ handleTraceTree .fresh depth sort := by
      intro item hitem
      obtain ⟨n, hn, -⟩ := exists_of_mem_handleTraceTree hitem
      simp [TraceDb.fresh] at hn
    have hrows : ∀ row, row ∉ hydrateTree (handleTraceTree .fresh depth sort) := by
      intro row hrow
      obtain ⟨api, hapi, -⟩ := madeFrom_of_mem_hydrateTree hrow
      exact hitems api hapi
    refine ⟨iff_of_true ⟨fun item hitem => absurd hitem (hitems item),
      fun row hrow => absurd hrow (hrows row)⟩ ?_, fun row hrow => absurd hrow (hrows row)⟩
    simp [topLevelCalls, childrenOf, TraceDb.fresh]
  · have hne : db ≠ .fresh := by
      rintro rfl
      have hroot := hwf.tree.hasKey_root
      simp [TraceDb.fresh] at hroot
    obtain ⟨hwalls, hrootFn⟩ := hkeeps hne
    exact ⟨hwf.topLevelShares_iff hwalls hrootFn depth sort, fun row => hwf.pct_topLevel⟩

/-- A call without a caller that took no time, and one below it that did. -/
theorem topLevelShares_iff_of_run_instant :
    letI := Engine.stored
    letI : Php := ⟨fun _ => 0⟩
    ∃ as o db, Run (Observed.Step default) ⟨.empty, []⟩ as o ∧
      o.storage.traces default = some db ∧ TopLevelShares db 2 .totalWallDesc ∧
      (topLevelCalls db o.version).length = 1 := by
  let _ := Engine.stored
  let _ : Php := ⟨fun _ => 0⟩
  let op : Op := .record default ⟨{ (default : Meta) with sapi := "cli" },
    [{ (default : DictEntry) with fnId := 7 }],
    [{ (default : Call) with callId := 1, fnId := 7 },
      { (default : Call) with callId := 2, parent := 1, fnId := 7, tOut := 4 }]⟩ 0 .none
  let o : Observed := ⟨(op.exec .empty).1, recordedBy default .empty op⟩
  have hrun : Run (Observed.Step default) ⟨.empty, []⟩ [⟨op, true⟩] o :=
    .single ⟨Attempt.step_exec (by decide +kernel), rfl⟩
  have hcalls : (o.storage.traces default).map (fun db => (topLevelCalls db o.version).map
      fun c => (c.tIn, c.tOut)) = some [(0, 0)] := by
    decide +kernel
  obtain ⟨db, hdb, hcalls⟩ := Option.map_eq_some_iff.mp hcalls
  refine ⟨_, o, db, hrun, hdb, (topLevelShares_iff_of_run hrun hdb 2 _).1.mpr fun c hc => ?_, ?_⟩
  · have hmem := List.mem_map_of_mem (f := fun c : Call => (c.tIn, c.tOut)) hc
    rw [hcalls, List.mem_singleton, Prod.mk.injEq] at hmem
    rw [hmem.1, hmem.2]
    decide
  · simpa using congrArg List.length hcalls

/-- One call without a caller, of 5 ns. The root is served with the total 0 and the row of the call
with the share 0. -/
theorem not_topLevelShares :
    letI := Engine.stored
    letI : Php := ⟨fun _ => 0⟩
    ∃ as s db, Run Attempt.Step .empty as s ∧ s.traces default = some db ∧
      topLevelWall db = 5 ∧
      ((handleTraceTree db 2 .totalWallDesc).map fun item => (item.nodeId, item.totalWallNs)) =
        [(1, 0), (2, 5)] ∧
      ((hydrateTree (handleTraceTree db 2 .totalWallDesc)).map fun row =>
        (row.nodeId, row.totalWallNs, computePctOfParent row)) = [(2, 5, 0)] ∧
      ¬ TopLevelShares db 2 .totalWallDesc := by
  let _ := Engine.stored
  let _ : Php := ⟨fun _ => 0⟩
  let op : Op := .record default ⟨{ (default : Meta) with sapi := "cli" },
    [{ (default : DictEntry) with fnId := 7 }],
    [{ (default : Call) with callId := 1, fnId := 7, tOut := 5 }]⟩ 0 .none
  let s : Storage := (op.exec .empty).1
  have hrun : Run Attempt.Step .empty [⟨op, true⟩] s :=
    .single (Attempt.step_exec (by decide +kernel))
  have hserved : (s.traces default).map (fun db => (topLevelWall db,
      (handleTraceTree db 2 .totalWallDesc).map fun item => (item.nodeId, item.totalWallNs),
      (hydrateTree (handleTraceTree db 2 .totalWallDesc)).map fun row =>
        (row.nodeId, row.totalWallNs, computePctOfParent row))) =
      some (5, [(1, 0), (2, 5)], [(2, 5, 0)]) := by
    decide +kernel
  obtain ⟨db, hdb, heq⟩ := Option.map_eq_some_iff.mp hserved
  obtain ⟨hwall, hitems, hrows⟩ : _ ∧ _ ∧ _ := by simpa only [Prod.mk.injEq] using heq
  refine ⟨_, s, db, hrun, hdb, hwall, hitems, hrows, fun hshares => ?_⟩
  have hmem : (1, (0 : ℤ)) ∈ (handleTraceTree db 2 .totalWallDesc).map
      fun item => (item.nodeId, item.totalWallNs) := by
    rw [hitems]
    decide
  obtain ⟨item, hitem, heq⟩ := List.mem_map.mp hmem
  obtain ⟨hid, htotal⟩ := Prod.mk.inj heq
  have hroot := hshares.root item hitem hid
  rw [htotal, hwall] at hroot
  cases hroot

end PhpTreeViz
