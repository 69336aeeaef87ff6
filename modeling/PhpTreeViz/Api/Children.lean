import PhpTreeViz.Api.TreeResponse
import PhpTreeViz.Core.Paging

/-!
# The children endpoint

`GET /api/traces/{key}/tree/{node_id}/children` lists the children of one node, all at once or by
pages. The page mixes them with nodes from the tree endpoint, so both have to agree.
-/

namespace PhpTreeViz

open Core

/-! ### The queries -/

def sqlChildrenFetchNoLimit (db : TraceDb) (nodeId : ℕ) (sort : SortKey) : List TreeRow :=
  ((db.nodes.rows.filter (·.parentNodeId = some nodeId)).filterMap (joinRow db)).insertionSort
    fun a b => (sort.order a b).isLE

def sqlChildrenFetchLimit (db : TraceDb) (nodeId : ℕ) (sort : SortKey) (limit offset : ℕ) :
    List TreeRow :=
  slice (((db.nodes.rows.filter (·.parentNodeId = some nodeId)).filterMap
    (joinRow db)).insertionSort fun a b => (sort.order a b).isLE) limit offset

/-- The nodes of the response of `phptv_handle_trace_children`. -/
def handleTraceChildren [Php] (db : TraceDb) (nodeId : ℕ) (sort : SortKey) (limit : Option ℕ)
    (offset : ℕ) : List TreeItem :=
  let rows := match limit with
    | none       => sqlChildrenFetchNoLimit db nodeId sort
    | some limit => sqlChildrenFetchLimit db nodeId sort limit offset
  rows.map (nodeRowToItem · false)

/-- The request for page `k`. A page that is as long as `limit` says that there may be more. -/
def childrenPage [Php] (db : TraceDb) (nodeId : ℕ) (sort : SortKey) (limit k : ℕ) :
    Option (List TreeItem × Bool) :=
  let items := handleTraceChildren db nodeId sort limit (k * limit)
  some (items, !decide (items.length < limit))

/-! ### The rows of the children query -/

section rows

variable {db : TraceDb} {nodeId depth : ℕ} {sort : SortKey} {row : TreeRow}

lemma mem_sqlChildrenFetchNoLimit_iff : row ∈ sqlChildrenFetchNoLimit db nodeId sort ↔
    IsRow db row ∧ row.node.parentNodeId = some nodeId := by
  simp only [sqlChildrenFetchNoLimit, List.mem_insertionSort, List.mem_filterMap, List.mem_filter,
    decide_eq_true_eq]
  constructor
  · rintro ⟨n, ⟨hn, hparent⟩, hjoin⟩
    obtain rfl := joinRow_node hjoin
    exact ⟨⟨hn, hjoin⟩, hparent⟩
  · rintro ⟨hrow, hparent⟩
    exact ⟨row.node, ⟨hrow.mem, hparent⟩, hrow.join⟩

lemma sorted_sqlChildrenFetchNoLimit (db : TraceDb) (nodeId : ℕ) (sort : SortKey) :
    (sqlChildrenFetchNoLimit db nodeId sort).Pairwise fun a b => (sort.order a b).isLE :=
  pairwise_insertionSort_cmp _ _

lemma nodup_sqlChildrenFetchNoLimit (db : TraceDb) (nodeId : ℕ) (sort : SortKey) :
    (sqlChildrenFetchNoLimit db nodeId sort).Nodup := by
  rw [sqlChildrenFetchNoLimit, (List.perm_insertionSort _ _).nodup_iff]
  refine (db.nodes.nodup_rows.filter _).filterMap fun a b row ha hb => ?_
  rw [← joinRow_node ha, ← joinRow_node hb]

/-- The rows of the tree query that belong to the children of a node. -/
def childRows (db : TraceDb) (depth nodeId : ℕ) (sort : SortKey) : List TreeRow :=
  ((sqlTreeFetch db depth sort).filter (·.1.node.parentNodeId = some nodeId)).map Prod.fst

lemma mem_childRows_iff : row ∈ childRows db depth nodeId sort ↔
    row.node.parentNodeId = some nodeId ∧ IsRow db row ∧
      ∃ k ≤ depth, AtDistance db.nodes.rows row.node k := by
  simp only [childRows, List.mem_map, List.mem_filter, decide_eq_true_eq]
  constructor
  · rintro ⟨⟨row, k⟩, ⟨hmem, hparent⟩, rfl⟩
    obtain ⟨hk, hdist, hrow⟩ := mem_sqlTreeFetch_iff.mp hmem
    exact ⟨hparent, hrow, k, hk, hdist⟩
  · rintro ⟨hparent, hrow, k, hk, hdist⟩
    exact ⟨(row, k), ⟨mem_sqlTreeFetch_iff.mpr ⟨hk, hdist, hrow⟩, hparent⟩, rfl⟩

lemma nodup_childRows (h : IsTree db) : (childRows db depth nodeId sort).Nodup := by
  have hids := nodup_sqlTreeFetch h depth sort
  refine List.Nodup.of_map (fun row : TreeRow => row.node.nodeId) ?_
  rw [childRows, List.map_map]
  exact hids.sublist (List.filter_sublist.map _)

lemma sorted_childRows : (childRows db depth nodeId sort).Pairwise
    fun a b => (sort.order a b).isLE := by
  rw [childRows, List.pairwise_map]
  refine ((sorted_sqlTreeFetch db depth sort).filter _).imp_of_mem ?_
  rintro ⟨row, j⟩ ⟨row', k⟩ hrow hrow' hle
  obtain ⟨hrow, hparent⟩ := List.mem_filter.mp hrow
  obtain ⟨hrow', hparent'⟩ := List.mem_filter.mp hrow'
  obtain rfl := (mem_sqlTreeFetch_iff.mp hrow).2.1.eq_of_siblings
    (mem_sqlTreeFetch_iff.mp hrow').2.1
    ((of_decide_eq_true hparent).trans (of_decide_eq_true hparent').symm)
  have hself : compare j j = .eq := Std.ReflOrd.compare_self
  simpa [hself] using hle

/-- Where all children of a node are in the tree, both queries return the same rows for them. -/
theorem childRows_eq (h : IsTree db) (hall : ∀ c ∈ db.nodes.rows, c.parentNodeId = some nodeId →
    ∃ k ≤ depth, AtDistance db.nodes.rows c k) :
    childRows db depth nodeId sort = sqlChildrenFetchNoLimit db nodeId sort := by
  have hperm : (childRows db depth nodeId sort).Perm (sqlChildrenFetchNoLimit db nodeId sort) := by
    refine (List.perm_ext_iff_of_nodup (nodup_childRows h)
      (nodup_sqlChildrenFetchNoLimit db nodeId sort)).mpr fun row => ?_
    rw [mem_childRows_iff, mem_sqlChildrenFetchNoLimit_iff]
    constructor
    · rintro ⟨hparent, hrow, -⟩
      exact ⟨hrow, hparent⟩
    · rintro ⟨hrow, hparent⟩
      exact ⟨hparent, hrow, hall _ hrow.mem hparent⟩
  refine List.Perm.eq_of_pairwise ?_ sorted_childRows
    (sorted_sqlChildrenFetchNoLimit db nodeId sort) hperm
  intro a b ha hb hab hba
  refine (mem_childRows_iff.mp ha).2.1.eq_of_nodeId (mem_sqlChildrenFetchNoLimit_iff.mp hb).1 ?_
  exact SortKey.nodeId_eq_of_order_eq (Std.OrientedCmp.isLE_antisymm hab hba)

end rows

/-! ### Both endpoints -/

/-- An item as if its children were not loaded. -/
def TreeItem.unloaded (item : TreeItem) : TreeItem := { item with childrenLoaded := false }

/-- The tree response and the children endpoint show the children of a node alike. -/
structure ShowsChildren [Php] (db : TraceDb) (depth nodeId : ℕ) (sort : SortKey) : Prop where
  tree : ((handleTraceTree db depth sort).filter (·.parentNodeId = some nodeId)).map
      TreeItem.unloaded =
    (handleTraceChildren db nodeId sort none 0).map TreeItem.unloaded
  pages : ∀ limit, 0 < limit →
    Fetches (childrenPage db nodeId sort limit) 0 (handleTraceChildren db nodeId sort none 0)

section showsChildren

variable [Php] {db : TraceDb} {nodeId depth : ℕ} {sort : SortKey}

lemma filter_handleTraceTree : ((handleTraceTree db depth sort).filter
    (·.parentNodeId = some nodeId)).map TreeItem.unloaded =
      (childRows db depth nodeId sort).map (nodeRowToItem · false) := by
  rw [handleTraceTree, List.filter_map, List.map_map, childRows, List.map_map]
  rfl

lemma handleTraceChildren_limit (limit offset : ℕ) :
    handleTraceChildren db nodeId sort (some limit) offset =
      slice (handleTraceChildren db nodeId sort none 0) limit offset := by
  simp only [handleTraceChildren, sqlChildrenFetchLimit, sqlChildrenFetchNoLimit, slice,
    List.map_take, List.map_drop]

/-- The pages of a list, the last of which is shorter than `limit`. -/
lemma fetches_childrenPage {limit : ℕ} (hpos : 0 < limit) :
    Fetches (childrenPage db nodeId sort limit) 0 (handleTraceChildren db nodeId sort none 0) := by
  generalize hitems : handleTraceChildren db nodeId sort none 0 = items
  have hpage : ∀ k ≤ items.length / limit, childrenPage db nodeId sort limit k =
      some (slice items limit (k * limit), decide (k < items.length / limit)) := by
    intro k hk
    have hfull : ¬ (slice items limit (k * limit)).length < limit ↔
        k < items.length / limit := by
      rw [length_slice, ← Nat.succ_le_iff (m := k), Nat.le_div_iff_mul_le hpos, Nat.succ_mul]
      omega
    rw [childrenPage, handleTraceChildren_limit, hitems, ← decide_not, decide_eq_decide.mpr hfull]
  have hall := Fetches.of_last_zero hpage
  rw [flatMap_slice, List.take_of_length_le] at hall
  · exact hall
  · rw [Nat.succ_mul]
    exact (Nat.lt_div_mul_add hpos).le

theorem showsChildren (h : IsTree db) (hall : ∀ c ∈ db.nodes.rows, c.parentNodeId = some nodeId →
    c.nodeId ∈ (handleTraceTree db depth sort).map TreeItem.nodeId) :
    ShowsChildren db depth nodeId sort where
  tree := by
    have hdist : ∀ c ∈ db.nodes.rows, c.parentNodeId = some nodeId →
        ∃ k ≤ depth, AtDistance db.nodes.rows c k :=
      fun c hc hparent => (mem_nodeIds_iff h hc).mp (hall c hc hparent)
    rw [filter_handleTraceTree, childRows_eq h hdist, handleTraceChildren, List.map_map]
    rfl
  pages _ := fetches_childrenPage

end showsChildren

theorem showsChildren_twoChildren :
    letI : Php := ⟨fun _ => 0⟩
    ShowsChildren twoChildren 1 1 .fqnAsc ∧
    (handleTraceChildren twoChildren 1 .fqnAsc none 0).map TreeItem.nodeId = [3, 2] :=
  letI : Php := ⟨fun _ => 0⟩
  ⟨showsChildren isTree_twoChildren (by decide +kernel), by decide +kernel⟩

end PhpTreeViz
