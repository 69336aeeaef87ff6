import Mathlib.Data.List.Sort
import PhpTreeViz.Core.Rounding
import PhpTreeViz.Storage.Schema

/-!
# The tree endpoint

`GET /api/traces/{key}/tree` reads the upper levels of a calling-context tree from the per-trace
database and turns each row into an item for the page.
-/

namespace PhpTreeViz

open Core

/-- What PHP leaves open: `(int)` of a float that is not a 64-bit integer. -/
class Php where
  intOfFloat : WideReal → Int64

/-- `(int)` of a column. -/
def phpInt [Php] : NumCell → ℤ
  | .integer n => n.toInt
  | .real x    => (Php.intOfFloat x).toInt

/-! ### The sort keys -/

/-- A row of `nodes` with what the query joins to it. -/
structure TreeRow where
  node : NodeRow
  dict : DictRow
  anomalyCount : ℕ
  hasChildren : Bool
  deriving DecidableEq

/-- The keys of `PHPTV_SORT_CLAUSES`. -/
inductive SortKey where
  | totalWallDesc
  | selfWallDesc
  | countDesc
  | memDeltaDesc
  | fqnAsc
  deriving DecidableEq

namespace SortKey

/-- The first term of a sort clause. -/
def clause : SortKey → TreeRow → TreeRow → Ordering
  | totalWallDesc, a, b => compare b.node.totalWallNs.value a.node.totalWallNs.value
  | selfWallDesc, a, b  =>
    compare (b.node.totalWallNs.sub b.node.childrenTotalWallNs)
      (a.node.totalWallNs.sub a.node.childrenTotalWallNs)
  | countDesc, a, b     => compare b.node.callCount a.node.callCount
  | memDeltaDesc, a, b  =>
    compare b.node.totalMemDeltaBytes.value a.node.totalMemDeltaBytes.value
  | fqnAsc, a, b        => compare a.dict.fqn b.dict.fqn

/-- A sort clause, with its tie-break. -/
def order (sort : SortKey) (a b : TreeRow) : Ordering :=
  (sort.clause a b).then (compare a.node.nodeId b.node.nodeId)

end SortKey

/-! ### The query -/

/-- The nodes whose distance from the root is `k`. -/
def treeLevel (nodes : List NodeRow) : ℕ → List NodeRow
  | 0     => nodes.filter (·.parentNodeId = none)
  | k + 1 => (treeLevel nodes k).flatMap fun t => nodes.filter (·.parentNodeId = some t.nodeId)

/-- The joins of both queries. -/
def joinRow (db : TraceDb) (n : NodeRow) : Option TreeRow :=
  (db.dict.find? n.fnId).map fun d =>
    { node := n
      dict := d
      anomalyCount := db.anomalies.countP (·.nodeId = some n.nodeId)
      hasChildren := db.nodes.rows.any (·.parentNodeId = some n.nodeId) }

/-- `SQL_TREE_FETCH`: each row comes with its `depth_in_tree`. -/
def sqlTreeFetch (db : TraceDb) (maxDepth : ℕ) (sort : SortKey) : List (TreeRow × ℕ) :=
  ((List.range (maxDepth + 1)).flatMap fun k =>
    (treeLevel db.nodes.rows k).filterMap fun n => (joinRow db n).map (·, k)).insertionSort
    fun a b => ((compare a.2 b.2).then (sort.order a.1 b.1)).isLE

/-! ### The response -/

/-- A node in a response. -/
structure TreeItem where
  nodeId : ℕ
  parentNodeId : Option ℕ
  depth : UInt32
  fqn : String
  file : String
  line : UInt32
  kind : UInt8
  count : ℕ
  totalWallNs : ℤ
  selfWallNs : ℤ
  totalCpuUNs : ℤ
  totalCpuSNs : ℤ
  totalMemDeltaBytes : ℤ
  abnormalExitCount : ℕ
  anomalyCount : ℕ
  hasChildren : Bool
  childrenLoaded : Bool
  deriving DecidableEq

def nodeRowToItem [Php] (row : TreeRow) (childrenLoaded : Bool) : TreeItem :=
  let total := phpInt row.node.totalWallNs
  let childrenTotal := phpInt row.node.childrenTotalWallNs
  { nodeId := row.node.nodeId
    parentNodeId := row.node.parentNodeId
    depth := row.node.depth
    fqn := row.dict.fqn
    file := row.dict.file
    line := row.dict.line
    kind := row.dict.kind
    count := row.node.callCount
    totalWallNs := total
    selfWallNs := max 0 (subI64 total childrenTotal)
    totalCpuUNs := phpInt row.node.totalCpuUNs
    totalCpuSNs := phpInt row.node.totalCpuSNs
    totalMemDeltaBytes := phpInt row.node.totalMemDeltaBytes
    abnormalExitCount := row.node.abnormalExitCount
    anomalyCount := row.anomalyCount
    hasChildren := row.hasChildren
    childrenLoaded := childrenLoaded }

/-- The nodes of the response of `phptv_handle_trace_tree`. -/
def handleTraceTree [Php] (db : TraceDb) (depth : ℕ) (sort : SortKey) : List TreeItem :=
  (sqlTreeFetch db depth sort).map fun (row, depthInTree) =>
    nodeRowToItem row (depthInTree < depth || !row.hasChildren)

/-! ### The rows of a response -/

section handleTraceTree

variable {db : TraceDb} {n : NodeRow} {row : TreeRow} {k depth : ℕ} {sort : SortKey}

lemma mem_of_mem_treeLevel {nodes : List NodeRow} (h : n ∈ treeLevel nodes k) : n ∈ nodes := by
  cases k with
  | zero => exact List.mem_of_mem_filter h
  | succ k =>
    obtain ⟨t, -, hn⟩ := List.mem_flatMap.mp h
    exact List.mem_of_mem_filter hn

lemma mem_sqlTreeFetch : (row, k) ∈ sqlTreeFetch db depth sort ↔
    k ≤ depth ∧ ∃ n ∈ treeLevel db.nodes.rows k, joinRow db n = some row := by
  rw [sqlTreeFetch, List.mem_insertionSort]
  simp only [List.mem_flatMap, List.mem_range, List.mem_filterMap, Option.map_eq_some_iff,
    Prod.mk.injEq]
  constructor
  · rintro ⟨k', hk, n, hn, row', hrow, rfl, rfl⟩
    exact ⟨Nat.le_of_lt_succ hk, n, hn, hrow⟩
  · rintro ⟨hk, n, hn, hrow⟩
    exact ⟨k, Nat.lt_succ_of_le hk, n, hn, row, hrow, rfl, rfl⟩

lemma joinRow_node (h : joinRow db n = some row) : row.node = n := by
  obtain ⟨d, -, rfl⟩ := Option.map_eq_some_iff.mp h
  rfl

variable [Php]

/-- Every item is made from a node of the tree. -/
lemma exists_of_mem_handleTraceTree {item : TreeItem} (h : item ∈ handleTraceTree db depth sort) :
    ∃ n ∈ db.nodes.rows, item.nodeId = n.nodeId ∧ item.parentNodeId = n.parentNodeId ∧
      item.totalWallNs = phpInt n.totalWallNs := by
  obtain ⟨⟨row, k⟩, hrow, rfl⟩ := List.mem_map.mp h
  obtain ⟨-, n, hn, hjoin⟩ := mem_sqlTreeFetch.mp hrow
  obtain rfl := joinRow_node hjoin
  exact ⟨_, mem_of_mem_treeLevel hn, rfl, rfl, rfl⟩

/-- A root whose function is known is always there. -/
lemma exists_root_mem_handleTraceTree (depth : ℕ) (sort : SortKey) (hn : n ∈ db.nodes.rows)
    (hroot : n.parentNodeId = none) (hfn : db.dict.HasKey n.fnId) :
    ∃ item ∈ handleTraceTree db depth sort,
      item.nodeId = n.nodeId ∧ item.totalWallNs = phpInt n.totalWallNs := by
  obtain ⟨d, hd⟩ := Option.isSome_iff_exists.mp (Table.isSome_find?.mpr hfn)
  have hrow : (_, 0) ∈ sqlTreeFetch db depth sort := mem_sqlTreeFetch.mpr
    ⟨Nat.zero_le _, n, List.mem_filter.mpr ⟨hn, by simpa using hroot⟩, by rw [joinRow, hd]; rfl⟩
  exact ⟨_, List.mem_map.mpr ⟨_, hrow, rfl⟩, rfl, rfl⟩

end handleTraceTree

end PhpTreeViz
