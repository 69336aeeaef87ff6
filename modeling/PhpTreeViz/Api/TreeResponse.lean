import PhpTreeViz.Api.Tree
import PhpTreeViz.Storage.Totals

/-!
# What the tree endpoint lists

The rows of `SQL_TREE_FETCH` are the nodes of the upper levels, and one order puts parents before
their children and the children of a node in the chosen order.
-/

namespace PhpTreeViz

open Core

/-! ### The shape of `nodes` -/

/-- The node `n` is `k` steps below a root. -/
inductive AtDistance (nodes : List NodeRow) : NodeRow → ℕ → Prop where
  | root {n : NodeRow} : n ∈ nodes → n.parentNodeId = none → AtDistance nodes n 0
  | child {n p : NodeRow} {k : ℕ} : AtDistance nodes p k → n ∈ nodes →
      n.parentNodeId = some p.nodeId → AtDistance nodes n (k + 1)

/-- The nodes form a tree under one root, and their functions are known. -/
structure IsTree (db : TraceDb) : Prop where
  root : ∃ r ∈ db.nodes.rows, ∀ n ∈ db.nodes.rows, n.parentNodeId = none ↔ n = r
  reachable : ∀ n ∈ db.nodes.rows, ∃ k, AtDistance db.nodes.rows n k
  known : ∀ n ∈ db.nodes.rows, db.dict.HasKey n.fnId

section distance

variable {nodes : List NodeRow} {db : TraceDb} {n p : NodeRow} {j k : ℕ}

lemma AtDistance.mem (h : AtDistance nodes n k) : n ∈ nodes := by
  cases h with
  | root hn _    => exact hn
  | child _ hn _ => exact hn

lemma mem_treeLevel_iff : n ∈ treeLevel nodes k ↔ AtDistance nodes n k := by
  induction k generalizing n with
  | zero =>
    simp only [treeLevel, List.mem_filter, decide_eq_true_eq]
    constructor
    · exact fun h => .root h.1 h.2
    · rintro (⟨hn, hp⟩ | _)
      exact ⟨hn, hp⟩
  | succ k ih =>
    simp only [treeLevel, List.mem_flatMap, List.mem_filter, decide_eq_true_eq, ih]
    constructor
    · rintro ⟨p, hp, hn, hparent⟩
      exact .child hp hn hparent
    · rintro (_ | ⟨hp, hn, hparent⟩)
      exact ⟨_, hp, hn, hparent⟩

/-- A node has one parent, and so one distance from the root. -/
lemma AtDistance.unique (h : AtDistance db.nodes.rows n j) (h' : AtDistance db.nodes.rows n k) :
    j = k := by
  induction h generalizing k with
  | root _ hroot =>
    cases h' with
    | root _ _       => rfl
    | child _ _ hp   => simp [hroot] at hp
  | child hp _ hparent ih =>
    cases h' with
    | root _ hroot => simp [hroot] at hparent
    | child hp' _ hparent' =>
      have hid := Option.some.inj (hparent.symm.trans hparent')
      obtain rfl := db.nodes.eq_of_key hp.mem hp'.mem hid
      rw [ih hp']

/-- The children of a node at distance `k` are those of the next level. -/
lemma AtDistance.child_iff (h : AtDistance db.nodes.rows p j) (hn : n ∈ db.nodes.rows)
    (hparent : n.parentNodeId = some p.nodeId) : AtDistance db.nodes.rows n k ↔ k = j + 1 :=
  ⟨fun h' => h'.unique (.child h hn hparent), fun hk => hk ▸ .child h hn hparent⟩

/-- Nodes with the same parent are at the same distance from the root. -/
lemma AtDistance.eq_of_siblings {a b : NodeRow} (ha : AtDistance db.nodes.rows a j)
    (hb : AtDistance db.nodes.rows b k) (hparent : a.parentNodeId = b.parentNodeId) : j = k := by
  cases ha with
  | root _ hroot =>
    cases hb with
    | root _ _     => rfl
    | child _ _ hp => simp [← hparent, hroot] at hp
  | child hp _ hap => exact ((hp.child_iff hb.mem (hparent.symm.trans hap)).mp hb).symm

lemma nodup_treeLevel (db : TraceDb) (k : ℕ) : (treeLevel db.nodes.rows k).Nodup := by
  induction k with
  | zero => exact db.nodes.nodup_rows.filter _
  | succ k ih =>
    refine List.nodup_flatMap.mpr ⟨fun p _ => db.nodes.nodup_rows.filter _, ?_⟩
    refine ih.imp_of_mem fun {p q} hp hq hne n hnp hnq => ?_
    have hparent := of_decide_eq_true (List.mem_filter.mp hnp).2
    have hparent' := of_decide_eq_true (List.mem_filter.mp hnq).2
    exact hne (db.nodes.eq_of_key (mem_of_mem_treeLevel hp) (mem_of_mem_treeLevel hq)
      (Option.some.inj (hparent.symm.trans hparent')))

/-- The upper levels contain no node twice. -/
lemma nodup_treeLevels (db : TraceDb) (depth : ℕ) :
    ((List.range depth).flatMap (treeLevel db.nodes.rows)).Nodup := by
  refine List.nodup_flatMap.mpr ⟨fun k _ => nodup_treeLevel db k, ?_⟩
  refine List.nodup_range.imp fun {j k} hne n hj hk => ?_
  exact hne ((mem_treeLevel_iff.mp hj).unique (mem_treeLevel_iff.mp hk))

end distance

/-! ### The sort orders -/

namespace SortKey

/-- `a` comes before `b` in the chosen order. -/
def Before (sort : SortKey) (a b : TreeRow) : Prop :=
  sort.clause a b = .lt ∨ (sort.clause a b = .eq ∧ a.node.nodeId < b.node.nodeId)

instance (sort : SortKey) : Std.TransCmp sort.clause := by
  cases sort with
  | totalWallDesc =>
    exact @Std.TransCmp.opposite _ (compareOn fun r : TreeRow => r.node.totalWallNs.value) _
  | selfWallDesc =>
    exact @Std.TransCmp.opposite _ (compareOn fun r : TreeRow =>
      r.node.totalWallNs.sub r.node.childrenTotalWallNs) _
  | countDesc =>
    exact @Std.TransCmp.opposite _ (compareOn fun r : TreeRow => r.node.callCount) _
  | memDeltaDesc =>
    exact @Std.TransCmp.opposite _ (compareOn fun r : TreeRow =>
      r.node.totalMemDeltaBytes.value) _
  | fqnAsc => exact inferInstanceAs (Std.TransCmp (compareOn fun r : TreeRow => r.dict.fqn))

instance (sort : SortKey) : Std.TransCmp sort.order :=
  inferInstanceAs (Std.TransCmp (compareLex sort.clause (compareOn fun r => r.node.nodeId)))

variable {sort : SortKey} {a b : TreeRow}

lemma nodeId_eq_of_order_eq (h : sort.order a b = .eq) : a.node.nodeId = b.node.nodeId := by
  rw [order, Ordering.then_eq_eq] at h
  exact Std.LawfulEqOrd.eq_of_compare h.2

lemma before_of_order (h : (sort.order a b).isLE) (hne : a.node.nodeId ≠ b.node.nodeId) :
    sort.Before a b := by
  rw [order, Ordering.isLE_then_iff_or] at h
  refine h.imp id fun hor => ⟨hor.1, ?_⟩
  have hle : a.node.nodeId ≤ b.node.nodeId := Nat.isLE_compare.mp hor.2
  omega

end SortKey

/-- Sorting by a comparison puts the rows in its order. -/
lemma pairwise_insertionSort_cmp {α : Type*} (cmp : α → α → Ordering) [Std.TransCmp cmp]
    (l : List α) :
    (l.insertionSort fun a b => (cmp a b).isLE).Pairwise fun a b => (cmp a b).isLE := by
  have : Std.Total fun a b : α => ((cmp a b).isLE : Prop) := by
    refine ⟨fun a b => ?_⟩
    rw [← @Std.OrientedCmp.isGE_iff_isLE _ cmp _ a b]
    cases cmp a b <;> simp
  have : IsTrans α fun a b : α => ((cmp a b).isLE : Prop) :=
    ⟨fun _ _ _ hab hbc => Std.TransCmp.isLE_trans hab hbc⟩
  exact List.pairwise_insertionSort _ l

/-- `ORDER BY t.depth_in_tree ASC, <<SORT>>` -/
lemma transCmp_treeOrder (sort : SortKey) : Std.TransCmp fun a b : TreeRow × ℕ =>
    (compare a.2 b.2).then (sort.order a.1 b.1) := by
  have : Std.TransCmp fun a b : TreeRow × ℕ => sort.order a.1 b.1 :=
    { eq_swap := Std.OrientedCmp.eq_swap
      isLE_trans := Std.TransCmp.isLE_trans }
  exact inferInstanceAs (Std.TransCmp (compareLex (compareOn Prod.snd)
    fun a b : TreeRow × ℕ => sort.order a.1 b.1))

/-! ### The rows of the tree query -/

section sqlTreeFetch

variable {db : TraceDb} {depth k : ℕ} {sort : SortKey} {row row' : TreeRow}

/-- `row` is what the joins make of its node. -/
structure IsRow (db : TraceDb) (row : TreeRow) : Prop where
  mem : row.node ∈ db.nodes.rows
  join : joinRow db row.node = some row

lemma IsRow.eq_of_nodeId (h : IsRow db row) (h' : IsRow db row')
    (hid : row.node.nodeId = row'.node.nodeId) : row = row' := by
  have hnode := db.nodes.eq_of_key h.mem h'.mem hid
  exact Option.some.inj (h.join.symm.trans (hnode ▸ h'.join))

lemma IsRow.hasChildren_iff (h : IsRow db row) : row.hasChildren ↔
    ∃ c ∈ db.nodes.rows, c.parentNodeId = some row.node.nodeId := by
  obtain ⟨d, -, hrow⟩ := Option.map_eq_some_iff.mp h.join
  rw [← hrow]
  simp

lemma IsRow.anomalyCount (h : IsRow db row) :
    row.anomalyCount = db.anomalies.countP (·.nodeId = some row.node.nodeId) := by
  obtain ⟨d, -, hrow⟩ := Option.map_eq_some_iff.mp h.join
  rw [← hrow]

lemma exists_isRow (h : IsTree db) {n : NodeRow} (hn : n ∈ db.nodes.rows) :
    ∃ row, IsRow db row ∧ row.node = n := by
  obtain ⟨d, hd⟩ := Option.isSome_iff_exists.mp (Table.isSome_find?.mpr (h.known n hn))
  obtain ⟨row, hjoin⟩ : ∃ row, joinRow db n = some row := ⟨_, by rw [joinRow, hd, Option.map_some]⟩
  have hnode := joinRow_node hjoin
  exact ⟨row, ⟨hnode.symm ▸ hn, hnode.symm ▸ hjoin⟩, hnode⟩

lemma mem_sqlTreeFetch_iff : (row, k) ∈ sqlTreeFetch db depth sort ↔
    k ≤ depth ∧ AtDistance db.nodes.rows row.node k ∧ IsRow db row := by
  rw [mem_sqlTreeFetch]
  refine and_congr_right fun _ => ⟨?_, ?_⟩
  · rintro ⟨n, hn, hjoin⟩
    obtain rfl := joinRow_node hjoin
    exact ⟨mem_treeLevel_iff.mp hn, mem_of_mem_treeLevel hn, hjoin⟩
  · rintro ⟨hk, hrow⟩
    exact ⟨row.node, mem_treeLevel_iff.mpr hk, hrow.join⟩

lemma sorted_sqlTreeFetch (db : TraceDb) (depth : ℕ) (sort : SortKey) :
    (sqlTreeFetch db depth sort).Pairwise fun a b =>
      ((compare a.2 b.2).then (sort.order a.1 b.1)).isLE :=
  letI := transCmp_treeOrder sort
  pairwise_insertionSort_cmp _ _

/-- The query returns each node once. -/
lemma nodup_sqlTreeFetch (h : IsTree db) (depth : ℕ) (sort : SortKey) :
    ((sqlTreeFetch db depth sort).map fun r => r.1.node.nodeId).Nodup := by
  have hnodes : ((sqlTreeFetch db depth sort).map fun r => r.1.node).Perm
      ((List.range (depth + 1)).flatMap (treeLevel db.nodes.rows)) := by
    refine ((List.perm_insertionSort _ _).map _).trans (List.Perm.of_eq ?_)
    rw [List.map_flatMap]
    refine List.flatMap_congr fun k _ => ?_
    rw [List.map_filterMap]
    refine (List.filterMap_congr fun n hn => ?_).trans List.filterMap_some
    obtain ⟨row, hrow, rfl⟩ := exists_isRow h (mem_of_mem_treeLevel hn)
    simp [hrow.join]
  have hnodup := hnodes.nodup_iff.mpr (nodup_treeLevels db (depth + 1))
  rw [← Function.comp_def NodeRow.nodeId, ← List.map_map]
  have hmem : ∀ n ∈ (sqlTreeFetch db depth sort).map fun r => r.1.node, n ∈ db.nodes.rows := by
    intro n hn
    obtain ⟨k, -, hk⟩ := List.mem_flatMap.mp (hnodes.mem_iff.mp hn)
    exact mem_of_mem_treeLevel hk
  exact hnodup.map_on fun a ha b hb => db.nodes.eq_of_key (hmem a ha) (hmem b hb)

end sqlTreeFetch

/-! ### The response -/

/-- `item` is the node `row` as the page sees it. -/
def IsItem [Php] (db : TraceDb) (row : TreeRow) (item : TreeItem) : Prop :=
  IsRow db row ∧ item = nodeRowToItem row item.childrenLoaded

/-- The items are the nodes of the tree down to `depth`. -/
structure ListsTree [Php] (db : TraceDb) (depth : ℕ) (sort : SortKey) (items : List TreeItem) :
    Prop where
  nodup : (items.map TreeItem.nodeId).Nodup
  nodes : ∀ n ∈ db.nodes.rows, n.nodeId ∈ items.map TreeItem.nodeId ↔
    ∃ k ≤ depth, AtDistance db.nodes.rows n k
  isItem : ∀ item ∈ items, ∃ row, IsItem db row item
  parentFirst : ∀ before item after, items = before ++ item :: after →
    ∀ p ∈ item.parentNodeId, p ∈ before.map TreeItem.nodeId
  siblings : items.Pairwise fun a b => a.parentNodeId = b.parentNodeId →
    ∀ ra rb, IsItem db ra a → IsItem db rb b → sort.Before ra rb
  anomalyCount : ∀ item ∈ items,
    item.anomalyCount = db.anomalies.countP (·.nodeId = some item.nodeId)
  childrenLoaded : ∀ item ∈ items, item.childrenLoaded ↔
    ∀ c ∈ db.nodes.rows, c.parentNodeId = some item.nodeId →
      c.nodeId ∈ items.map TreeItem.nodeId

section handleTraceTree

variable [Php] {db : TraceDb} {depth : ℕ} {sort : SortKey}

lemma mem_handleTraceTree_iff {item : TreeItem} : item ∈ handleTraceTree db depth sort ↔
    ∃ row k, k ≤ depth ∧ AtDistance db.nodes.rows row.node k ∧ IsRow db row ∧
      item = nodeRowToItem row (k < depth || !row.hasChildren) := by
  simp only [handleTraceTree, List.mem_map, Prod.exists, mem_sqlTreeFetch_iff]
  constructor
  · rintro ⟨row, k, ⟨hk, hdist, hrow⟩, rfl⟩
    exact ⟨row, k, hk, hdist, hrow, rfl⟩
  · rintro ⟨row, k, hk, hdist, hrow, rfl⟩
    exact ⟨row, k, ⟨hk, hdist, hrow⟩, rfl⟩

lemma map_nodeId_handleTraceTree : (handleTraceTree db depth sort).map TreeItem.nodeId =
    (sqlTreeFetch db depth sort).map fun r => r.1.node.nodeId := by
  rw [handleTraceTree, List.map_map]
  rfl

lemma mem_nodeIds_iff (h : IsTree db) {n : NodeRow} (hn : n ∈ db.nodes.rows) :
    n.nodeId ∈ (handleTraceTree db depth sort).map TreeItem.nodeId ↔
      ∃ k ≤ depth, AtDistance db.nodes.rows n k := by
  simp only [List.mem_map, mem_handleTraceTree_iff]
  constructor
  · rintro ⟨_, ⟨row, k, hk, hdist, -, rfl⟩, hid⟩
    obtain rfl := db.nodes.eq_of_key hdist.mem hn hid
    exact ⟨k, hk, hdist⟩
  · rintro ⟨k, hk, hdist⟩
    obtain ⟨row, hrow, rfl⟩ := exists_isRow h hn
    exact ⟨_, ⟨row, k, hk, hdist, hrow, rfl⟩, rfl⟩

/-- In the order of the query a parent stands before its children. -/
lemma parentFirst_handleTraceTree (h : IsTree db) {before after : List TreeItem} {item : TreeItem}
    (hsplit : handleTraceTree db depth sort = before ++ item :: after) {p : ℕ}
    (hp : item.parentNodeId = some p) : p ∈ before.map TreeItem.nodeId := by
  obtain ⟨rows, rest, hrows, rfl, hrest⟩ := List.map_eq_append_iff.mp hsplit
  obtain ⟨⟨row, k⟩, later, rfl, rfl, rfl⟩ := List.map_eq_cons_iff.mp hrest
  have hmem : (row, k) ∈ sqlTreeFetch db depth sort := by simp [hrows]
  obtain ⟨hk, hdist, -⟩ := mem_sqlTreeFetch_iff.mp hmem
  have hparent : row.node.parentNodeId = some p := hp
  cases hdist with
  | root _ hroot => simp [hroot] at hparent
  | @child _ q j hq hn hqp =>
    obtain rfl := Option.some.inj (hqp.symm.trans hparent)
    obtain ⟨rowq, hrowq, rfl⟩ := exists_isRow h hq.mem
    have hqmem : (rowq, j) ∈ sqlTreeFetch db depth sort :=
      mem_sqlTreeFetch_iff.mpr ⟨by omega, hq, hrowq⟩
    rw [hrows, List.mem_append, List.mem_cons] at hqmem
    rcases hqmem with hbefore | heq | hafter
    · exact List.mem_map.mpr ⟨_, List.mem_map_of_mem hbefore, rfl⟩
    · exact absurd (congrArg Prod.snd heq) (by simp)
    · -- the parent is one level up, so that it does not come later
      have hsorted := sorted_sqlTreeFetch db depth sort
      rw [hrows] at hsorted
      have hle := List.rel_of_pairwise_cons (List.pairwise_append.mp hsorted).2.1 hafter
      have hgt : compare (j + 1) j = .gt := Nat.compare_eq_gt.mpr (Nat.lt_succ_self j)
      simp [hgt] at hle

lemma siblings_handleTraceTree (h : IsTree db) : (handleTraceTree db depth sort).Pairwise
    fun a b => a.parentNodeId = b.parentNodeId →
      ∀ ra rb, IsItem db ra a → IsItem db rb b → sort.Before ra rb := by
  rw [handleTraceTree, List.pairwise_map]
  have hne := List.pairwise_map.mp (nodup_sqlTreeFetch h depth sort)
  refine ((sorted_sqlTreeFetch db depth sort).and hne).imp_of_mem ?_
  rintro ⟨row, j⟩ ⟨row', k⟩ hrow hrow' ⟨hle, hne⟩ hparent ra rb ⟨hra, hia⟩ ⟨hrb, hib⟩
  obtain ⟨-, hdist, hisRow⟩ := mem_sqlTreeFetch_iff.mp hrow
  obtain ⟨-, hdist', hisRow'⟩ := mem_sqlTreeFetch_iff.mp hrow'
  obtain rfl := hra.eq_of_nodeId hisRow (congrArg TreeItem.nodeId hia).symm
  obtain rfl := hrb.eq_of_nodeId hisRow' (congrArg TreeItem.nodeId hib).symm
  obtain rfl := hdist.eq_of_siblings hdist' hparent
  have hself : compare j j = .eq := Std.ReflOrd.compare_self
  exact SortKey.before_of_order (by simpa [hself] using hle) hne

lemma childrenLoaded_handleTraceTree (h : IsTree db) {item : TreeItem}
    (hitem : item ∈ handleTraceTree db depth sort) : item.childrenLoaded ↔
      ∀ c ∈ db.nodes.rows, c.parentNodeId = some item.nodeId →
        c.nodeId ∈ (handleTraceTree db depth sort).map TreeItem.nodeId := by
  obtain ⟨row, k, hk, hdist, hrow, rfl⟩ := mem_handleTraceTree_iff.mp hitem
  have hloaded : (nodeRowToItem row (k < depth || !row.hasChildren)).childrenLoaded ↔
      k < depth ∨ ¬ row.hasChildren := by
    simp [nodeRowToItem]
  rw [hloaded, hrow.hasChildren_iff]
  constructor
  · rintro hor c hc hparent
    have hlt : k < depth := hor.resolve_right fun hnone => hnone ⟨c, hc, hparent⟩
    exact (mem_nodeIds_iff h hc).mpr ⟨k + 1, hlt, .child hdist hc hparent⟩
  · intro hall
    by_contra hor
    obtain ⟨hge, hchildren⟩ := not_or.mp hor
    obtain ⟨c, hc, hparent⟩ := not_not.mp hchildren
    obtain ⟨j, hj, hcdist⟩ := (mem_nodeIds_iff h hc).mp (hall c hc hparent)
    have := (hdist.child_iff hc hparent).mp hcdist
    omega

/-- The endpoint lists the tree down to the depth it is asked for. -/
theorem listsTree_handleTraceTree (h : IsTree db) (depth : ℕ) (sort : SortKey) :
    ListsTree db depth sort (handleTraceTree db depth sort) where
  nodup := map_nodeId_handleTraceTree ▸ nodup_sqlTreeFetch h depth sort
  nodes _ hn := mem_nodeIds_iff h hn
  isItem item hitem := by
    obtain ⟨row, k, -, -, hrow, rfl⟩ := mem_handleTraceTree_iff.mp hitem
    exact ⟨row, hrow, rfl⟩
  parentFirst _ _ _ hsplit _ hp := parentFirst_handleTraceTree h hsplit hp
  siblings := siblings_handleTraceTree h
  anomalyCount item hitem := by
    obtain ⟨row, k, -, -, hrow, rfl⟩ := mem_handleTraceTree_iff.mp hitem
    exact hrow.anomalyCount
  childrenLoaded _ hitem := childrenLoaded_handleTraceTree h hitem

end handleTraceTree

/-! ### Databases of the collector -/

/-- The nodes of a database in a run form a tree of known functions. -/
lemma WellFormed.isTree {s : Traced} (h : WellFormed s) (hroot : RootFn s.db.nodes s.log) :
    IsTree s.db where
  root := by
    obtain ⟨r, hr, hid, -, -⟩ := h.tree.root
    refine ⟨r, hr, fun n hn => ?_⟩
    rw [h.tree.parentNodeId_eq_none hn, ← hid]
    exact ⟨s.db.nodes.eq_of_key hn hr, fun heq => heq ▸ rfl⟩
  reachable := by
    intro n hn
    induction hid : n.nodeId using Nat.strong_induction_on generalizing n with
    | _ id ih =>
      by_cases hne : n.nodeId = syntheticRootNodeId
      · exact ⟨0, .root hn ((h.tree.parentNodeId_eq_none hn).mpr hne)⟩
      · obtain ⟨p, hp, hlt, q, hq, rfl⟩ := h.tree.parent n hn hne
        obtain ⟨k, hk⟩ := ih q.nodeId (hid ▸ hlt) q hq rfl
        exact ⟨k + 1, .child hk hn hp⟩
  known := by
    intro n hn
    by_cases hne : n.nodeId = syntheticRootNodeId
    · exact hroot n hn hne ▸ h.rootFn
    · obtain ⟨f, hf, hnode⟩ := h.tree.used n hn hne
      obtain ⟨r, hr, hrid, -, hfn⟩ := h.tree.placed f hf
      obtain rfl := s.db.nodes.eq_of_key hr hn (hrid.trans hnode)
      exact hfn ▸ h.hasFn f hf

theorem isTree_of_run [Engine] {key : TraceKey} {o : Observed} {as : List Attempt} {db : TraceDb}
    (hrun : Run (Observed.Step key) ⟨.empty, []⟩ as o) (hdb : o.storage.traces key = some db) :
    db = .fresh ∨ IsTree db := by
  obtain ⟨log, hinv, hkeeps⟩ := rootFn.of_run hrun
  rw [ensureTraceConn_of_traces hdb] at hinv hkeeps
  by_cases hfresh : db = .fresh
  · exact Or.inl hfresh
  · rcases hinv with ⟨hdb, -⟩ | ⟨hwf, -⟩
    · exact absurd hdb hfresh
    · exact Or.inr (hwf.isTree (hkeeps hfresh))

/-- A root with two children, of which the second is first by its name. -/
def twoChildren : TraceDb where
  traceMeta := none
  dict := ⟨[⟨0, "main", "", 0, 0⟩, ⟨7, "g", "a.php", 3, 0⟩, ⟨8, "f", "a.php", 9, 0⟩], by decide⟩
  nodes := ⟨[.syntheticRoot, { nodeId := 2, parentNodeId := some 1, fnId := 7, depth := 1 },
    { nodeId := 3, parentNodeId := some 1, fnId := 8, depth := 1 }], by decide⟩
  callToNode := .empty
  pendingCalls := .empty
  anomalies := [⟨some 2, .invertedTime, 1, ""⟩]

lemma isTree_twoChildren : IsTree twoChildren where
  root := ⟨.syntheticRoot, by decide, by decide⟩
  reachable := by
    have hroot : AtDistance twoChildren.nodes.rows .syntheticRoot 0 := .root (by decide) rfl
    intro n hn
    by_cases hn' : n = .syntheticRoot
    · exact ⟨0, hn' ▸ hroot⟩
    · have hall : ∀ n ∈ twoChildren.nodes.rows, n ≠ .syntheticRoot → n.parentNodeId = some 1 := by
        decide
      exact ⟨1, .child hroot hn (hall n hn hn')⟩
  known := by decide

theorem listsTree_handleTraceTree_twoChildren :
    letI : Php := ⟨fun _ => 0⟩
    ListsTree twoChildren 1 .fqnAsc (handleTraceTree twoChildren 1 .fqnAsc) ∧
    ((handleTraceTree twoChildren 1 .fqnAsc).map fun i => (i.nodeId, i.anomalyCount)) =
      [(1, 0), (3, 0), (2, 1)] :=
  letI : Php := ⟨fun _ => 0⟩
  ⟨listsTree_handleTraceTree isTree_twoChildren 1 .fqnAsc, by decide +kernel⟩

end PhpTreeViz
