import Mathlib.Order.Lattice.Nat
import PhpTreeViz.Api.Children
import PhpTreeViz.Core.Forest
import PhpTreeViz.Viz.Hits
import PhpTreeViz.Viz.TopLevel

/-!
# What the server has for the page

The nodes of a database are a forest in each choice of sort orders, and a response lists the part of
it that the page asked for: the tree down to a depth, or the children of one node.
-/

namespace PhpTreeViz

open Core

/-! ### The call tree of a database -/

/-- The nodes form a tree below the synthetic root, or there are none, and their functions are
known. -/
structure IsCallTree (db : TraceDb) : Prop where
  root : ∀ n ∈ db.nodes.rows, n.parentNodeId = none → n.nodeId = syntheticRootNodeId
  reachable : ∀ n ∈ db.nodes.rows, ∃ k, AtDistance db.nodes.rows n k
  known : ∀ n ∈ db.nodes.rows, db.dict.HasKey n.fnId

/-- The number of calls above a node -/
noncomputable def callDepth (db : TraceDb) (nodeId : ℕ) : ℕ :=
  sInf {k | ∃ n, n.nodeId = nodeId ∧ AtDistance db.nodes.rows n k}

/-- The node from which a node was called -/
def callParent (db : TraceDb) (nodeId : ℕ) : Option ℕ :=
  (db.nodes.find? nodeId).bind NodeRow.parentNodeId

/-- The children of a node as the server orders them -/
def childIds (db : TraceDb) (nodeId : ℕ) (sort : SortKey) : List ℕ :=
  (sqlChildrenFetchNoLimit db nodeId sort).map (·.node.nodeId)

section callTree

variable {db : TraceDb} {n p : NodeRow} {k nodeId child : ℕ} {sort : SortKey}

lemma callDepth_eq (h : AtDistance db.nodes.rows n k) : callDepth db n.nodeId = k := by
  have hset : {k | ∃ m : NodeRow, m.nodeId = n.nodeId ∧ AtDistance db.nodes.rows m k} = {k} := by
    refine Set.eq_singleton_iff_unique_mem.mpr ⟨⟨n, rfl, h⟩, ?_⟩
    rintro j ⟨m, hid, hm⟩
    obtain rfl := db.nodes.eq_of_key hm.mem h.mem hid
    exact hm.unique h
  rw [callDepth, hset, csInf_singleton]

lemma callParent_eq_some_iff : callParent db child = some nodeId ↔
    ∃ n ∈ db.nodes.rows, n.nodeId = child ∧ n.parentNodeId = some nodeId := by
  simp only [callParent, Option.bind_eq_some_iff, Table.find?_eq_some_iff, and_assoc]

lemma callParent_of_mem (hn : n ∈ db.nodes.rows) : callParent db n.nodeId = n.parentNodeId := by
  rw [callParent, Table.find?_of_mem hn, Option.bind_some]

namespace IsCallTree

/-- A node is right below its parent. -/
lemma exists_parent (h : IsCallTree db) (hn : n ∈ db.nodes.rows)
    (hparent : n.parentNodeId = some nodeId) :
    ∃ p k, p.nodeId = nodeId ∧ AtDistance db.nodes.rows p k ∧
      AtDistance db.nodes.rows n (k + 1) := by
  obtain ⟨k, hk⟩ := h.reachable n hn
  cases hk with
  | root _ hroot =>
    rw [hroot] at hparent
    cases hparent
  | @child _ p k hp _ hn' =>
    exact ⟨p, k, Option.some.inj (hn'.symm.trans hparent), hp, .child hp hn hn'⟩

lemma callDepth_child (h : IsCallTree db) (hparent : callParent db child = some nodeId) :
    callDepth db child = callDepth db nodeId + 1 := by
  obtain ⟨n, hn, rfl, hn'⟩ := callParent_eq_some_iff.mp hparent
  obtain ⟨p, k, rfl, hp, hnk⟩ := h.exists_parent hn hn'
  rw [callDepth_eq hp, callDepth_eq hnk]

/-- Where there is a node there is the root. -/
lemma exists_root (h : IsCallTree db) (hn : n ∈ db.nodes.rows) :
    ∃ r, r.nodeId = syntheticRootNodeId ∧ AtDistance db.nodes.rows r 0 := by
  obtain ⟨k, hk⟩ := h.reachable n hn
  clear hn
  induction hk with
  | @root r hr hroot => exact ⟨r, h.root r hr hroot, .root hr hroot⟩
  | child _ _ _ ih => exact ih

lemma isTree (h : IsCallTree db) (hn : n ∈ db.nodes.rows) : IsTree db where
  root := by
    obtain ⟨r, hid, hr⟩ := h.exists_root hn
    refine ⟨r, hr.mem, fun m hm => ⟨fun hroot => ?_, ?_⟩⟩
    · exact db.nodes.eq_of_key hm hr.mem ((h.root m hm hroot).trans hid.symm)
    · rintro rfl
      cases hr with
      | root _ hroot => exact hroot
  reachable := h.reachable
  known := h.known

lemma callDepth_root (h : IsCallTree db) : callDepth db syntheticRootNodeId = 0 := by
  by_cases hnone : ∃ n, n ∈ db.nodes.rows
  · obtain ⟨n, hn⟩ := hnone
    obtain ⟨r, hid, hr⟩ := h.exists_root hn
    rw [← hid, callDepth_eq hr]
  · have hset : {k | ∃ n : NodeRow, n.nodeId = syntheticRootNodeId ∧
        AtDistance db.nodes.rows n k} = ∅ :=
      Set.eq_empty_of_forall_notMem fun k ⟨n, _, hn⟩ => hnone ⟨n, hn.mem⟩
    rw [callDepth, hset, Nat.sInf_empty]

end IsCallTree

/-- The collector keeps the nodes a call tree. -/
lemma isCallTree_of_run [Engine] {key : TraceKey} {o : Observed} {as : List Attempt} {db : TraceDb}
    (hrun : Run (Observed.Step key) ⟨.empty, []⟩ as o) (hdb : o.storage.traces key = some db) :
    IsCallTree db := by
  obtain ⟨log, hinv, hkeeps⟩ := rootFn.of_run hrun
  rw [ensureTraceConn_of_traces hdb] at hinv hkeeps
  by_cases hfresh : db = .fresh
  · have hnone : ∀ n, n ∉ db.nodes.rows := by simp [hfresh, TraceDb.fresh]
    exact ⟨fun n hn => absurd hn (hnone n), fun n hn => absurd hn (hnone n),
      fun n hn => absurd hn (hnone n)⟩
  · rcases hinv with ⟨hdb, -⟩ | ⟨hwf, -⟩
    · exact absurd hdb hfresh
    · have htree := hwf.isTree (hkeeps hfresh)
      exact ⟨fun n hn => (hwf.tree.parentNodeId_eq_none hn).mp, htree.reachable, htree.known⟩

/-- What the page knows of the tree, which it never holds as a whole -/
noncomputable def callTree (h : IsCallTree db) : Detail.CallTree where
  parent := callParent db
  depth := callDepth db
  depth_root := h.callDepth_root
  depth_child _ _ := h.callDepth_child

lemma mem_childIds_iff (h : IsCallTree db) :
    child ∈ childIds db nodeId sort ↔ callParent db child = some nodeId := by
  simp only [childIds, List.mem_map, mem_sqlChildrenFetchNoLimit_iff, callParent_eq_some_iff]
  constructor
  · rintro ⟨row, ⟨hrow, hparent⟩, rfl⟩
    exact ⟨row.node, hrow.mem, rfl, hparent⟩
  · rintro ⟨n, hn, rfl, hparent⟩
    obtain ⟨row, hrow, rfl⟩ := exists_isRow (h.isTree hn) hn
    exact ⟨row, ⟨hrow, hparent⟩, rfl⟩

lemma nodup_childIds (db : TraceDb) (nodeId : ℕ) (sort : SortKey) :
    (childIds db nodeId sort).Nodup := by
  refine (nodup_sqlChildrenFetchNoLimit db nodeId sort).map_on fun a ha b hb hid => ?_
  exact (mem_sqlChildrenFetchNoLimit_iff.mp ha).1.eq_of_nodeId
    (mem_sqlChildrenFetchNoLimit_iff.mp hb).1 hid

/-- All nodes, with their places in the tree and nothing else -/
def allNodes (db : TraceDb) : List Detail.ApiNode :=
  db.nodes.rows.map fun n => ⟨n.nodeId, n.parentNodeId, false, false, default⟩

lemma part_allNodes (h : IsCallTree db) : (callTree h).Part (allNodes db) where
  nodup := by
    rw [allNodes, List.map_map]
    exact db.nodes.nodup
  parent node hnode := by
    obtain ⟨n, hn, rfl⟩ := List.mem_map.mp hnode
    exact (callParent_of_mem hn).symm

/-- The children of each node in an order of their own -/
noncomputable def callForest (h : IsCallTree db) (order : ℕ → SortKey) : Forest ℕ where
  kids nodeId := childIds db nodeId (order nodeId)
  nodup nodeId := nodup_childIds db nodeId (order nodeId)
  unique hj hk := Option.some.inj
    (((mem_childIds_iff h).mp hj).symm.trans ((mem_childIds_iff h).mp hk))
  height nodeId := (allNodes db).countP (callDepth db nodeId < callDepth db ·.nodeId)
  height_lt {nodeId child} hchild := by
    obtain ⟨n, hn, rfl, hparent⟩ := callParent_eq_some_iff.mp ((mem_childIds_iff h).mp hchild)
    have hmem : ⟨n.nodeId, n.parentNodeId, false, false, default⟩ ∈
        Detail.childrenOf (allNodes db) nodeId :=
      Detail.mem_childrenOf.mpr ⟨List.mem_map.mpr ⟨n, hn, rfl⟩, hparent⟩
    exact Detail.countP_deeper_lt (part_allNodes h) hmem

/-- Down to a depth, the nodes whose children are no deeper either -/
def loadedTo (db : TraceDb) (depth : ℕ) : Set ℕ :=
  {n | db.nodes.HasKey n ∧ callDepth db n ≤ depth ∧
    ∀ c, callParent db c = some n → callDepth db c ≤ depth}

lemma mem_loadedTo_of_lt (h : IsCallTree db) (hn : db.nodes.HasKey nodeId) {depth : ℕ}
    (hdepth : callDepth db nodeId < depth) : nodeId ∈ loadedTo db depth := by
  refine ⟨hn, hdepth.le, fun c hc => ?_⟩
  rw [h.callDepth_child hc]
  exact hdepth

/-- On the last level only leaves are loaded. -/
lemma childIds_eq_nil (h : IsCallTree db) {depth : ℕ} (hloaded : nodeId ∈ loadedTo db depth)
    (hdepth : depth ≤ callDepth db nodeId) (sort : SortKey) : childIds db nodeId sort = [] := by
  refine List.eq_nil_iff_forall_not_mem.mpr fun c hc => ?_
  have hparent := (mem_childIds_iff h).mp hc
  have hle := hloaded.2.2 c hparent
  rw [h.callDepth_child hparent] at hle
  omega

end callTree

/-! ### The responses -/

section responses

variable [Php]

/-- The tree down to `depth`, as the page reads it -/
def treeNodes (db : TraceDb) (depth : ℕ) (sort : SortKey) : List Detail.ApiNode :=
  (handleTraceTree db depth sort).map TreeItem.toApiNode

/-- The children of a node, as the page reads them -/
def childNodes (db : TraceDb) (nodeId : ℕ) (sort : SortKey) : List Detail.ApiNode :=
  (handleTraceChildren db nodeId sort none 0).map TreeItem.toApiNode

/-- What both responses tell about a node -/
def nodeData (db : TraceDb) (nodeId : ℕ) : Option Detail.NodeData :=
  ((db.nodes.find? nodeId).bind (joinRow db)).map fun row =>
    (nodeRowToItem row false).toApiNode.data

variable {db : TraceDb} {nodeId depth : ℕ} {sort : SortKey} {node : Detail.ApiNode}

lemma nodeData_eq {row : TreeRow} (h : IsRow db row) (loaded : Bool) :
    nodeData db row.node.nodeId = some (nodeRowToItem row loaded).toApiNode.data := by
  rw [nodeData, Table.find?_of_mem h.mem, Option.bind_some, h.join, Option.map_some]
  rfl

lemma map_nodeId_childNodes :
    (childNodes db nodeId sort).map Detail.ApiNode.nodeId = childIds db nodeId sort := by
  rw [childNodes, handleTraceChildren, List.map_map, List.map_map]
  rfl

lemma hasChildren_toApiNode {row : TreeRow} (hrow : IsRow db row)
    (loaded : Bool) : (nodeRowToItem row loaded).toApiNode.hasChildren ↔
      ∃ c, callParent db c = some row.node.nodeId := by
  have hchildren : (nodeRowToItem row loaded).toApiNode.hasChildren = row.hasChildren := rfl
  rw [hchildren, hrow.hasChildren_iff]
  constructor
  · rintro ⟨c, hc, hparent⟩
    exact ⟨c.nodeId, (callParent_of_mem hc).trans hparent⟩
  · rintro ⟨c, hc⟩
    obtain ⟨n, hn, -, hparent⟩ := callParent_eq_some_iff.mp hc
    exact ⟨n, hn, hparent⟩

lemma children_childNodes (h : IsCallTree db) (nodeId : ℕ) (sort : SortKey) :
    (callTree h).Children nodeId (childNodes db nodeId sort) where
  nodup := by
    rw [map_nodeId_childNodes]
    exact nodup_childIds db nodeId sort
  parent node hnode := by
    obtain ⟨item, hitem, rfl⟩ := List.mem_map.mp hnode
    obtain ⟨row, hrow, rfl⟩ := List.mem_map.mp hitem
    exact (callParent_of_mem (mem_sqlChildrenFetchNoLimit_iff.mp hrow).1.mem).symm
  mem_iff n := by
    rw [map_nodeId_childNodes]
    exact mem_childIds_iff h

lemma hasChildren_of_mem_childNodes (hnode : node ∈ childNodes db nodeId sort) :
    node.hasChildren ↔ ∃ c, callParent db c = some node.nodeId := by
  obtain ⟨item, hitem, rfl⟩ := List.mem_map.mp hnode
  obtain ⟨row, hrow, rfl⟩ := List.mem_map.mp hitem
  exact hasChildren_toApiNode (mem_sqlChildrenFetchNoLimit_iff.mp hrow).1 false

lemma nodeData_of_mem_childNodes (hnode : node ∈ childNodes db nodeId sort) :
    nodeData db node.nodeId = some node.data := by
  obtain ⟨item, hitem, rfl⟩ := List.mem_map.mp hnode
  obtain ⟨row, hrow, rfl⟩ := List.mem_map.mp hitem
  exact nodeData_eq (mem_sqlChildrenFetchNoLimit_iff.mp hrow).1 false

lemma exists_of_mem_treeNodes (hnode : node ∈ treeNodes db depth sort) :
    ∃ row k, k ≤ depth ∧ AtDistance db.nodes.rows row.node k ∧ IsRow db row ∧
      node = (nodeRowToItem row (k < depth || !row.hasChildren)).toApiNode := by
  obtain ⟨item, hitem, rfl⟩ := List.mem_map.mp hnode
  obtain ⟨row, k, hk, hdist, hrow, rfl⟩ := mem_handleTraceTree_iff.mp hitem
  exact ⟨row, k, hk, hdist, hrow, rfl⟩

lemma hasChildren_of_mem_treeNodes (hnode : node ∈ treeNodes db depth sort) :
    node.hasChildren ↔ ∃ c, callParent db c = some node.nodeId := by
  obtain ⟨row, k, -, -, hrow, rfl⟩ := exists_of_mem_treeNodes hnode
  exact hasChildren_toApiNode hrow _

lemma nodeData_of_mem_treeNodes (hnode : node ∈ treeNodes db depth sort) :
    nodeData db node.nodeId = some node.data := by
  obtain ⟨row, k, -, -, hrow, rfl⟩ := exists_of_mem_treeNodes hnode
  exact nodeData_eq hrow _

/-- The response says of a node whether all of its children are in it. -/
lemma childrenLoaded_of_mem_treeNodes (h : IsCallTree db) (hnode : node ∈ treeNodes db depth sort) :
    node.childrenLoaded ↔ node.nodeId ∈ loadedTo db depth := by
  obtain ⟨row, k, hk, hdist, hrow, rfl⟩ := exists_of_mem_treeNodes hnode
  have hdepth := callDepth_eq hdist
  have hchildren : row.hasChildren ↔ ∃ c, callParent db c = some row.node.nodeId :=
    hasChildren_toApiNode hrow (k < depth || !row.hasChildren)
  have hbelow : ∀ c, callParent db c = some row.node.nodeId → callDepth db c = k + 1 :=
    fun c hc => by rw [h.callDepth_child hc, hdepth]
  have hloaded : (nodeRowToItem row (k < depth || !row.hasChildren)).toApiNode.childrenLoaded ↔
      (row.hasChildren → k < depth) := by
    cases hrow : row.hasChildren <;> simp [nodeRowToItem, TreeItem.toApiNode]
  rw [hloaded]
  constructor
  · intro hlt
    refine ⟨Table.hasKey_of_mem hrow.mem, hdepth.le.trans hk, fun c hc => ?_⟩
    rw [hbelow c hc]
    exact hlt (hchildren.mpr ⟨c, hc⟩)
  · rintro ⟨-, -, hall⟩ hhas
    obtain ⟨c, hc⟩ := hchildren.mp hhas
    have hle := hall c hc
    rwa [hbelow c hc] at hle

lemma part_treeNodes (h : IsCallTree db) (depth : ℕ) (sort : SortKey) :
    (callTree h).Part (treeNodes db depth sort) where
  nodup := by
    have hids : (treeNodes db depth sort).map Detail.ApiNode.nodeId =
        (sqlTreeFetch db depth sort).map fun r => r.1.node.nodeId := by
      rw [treeNodes, handleTraceTree, List.map_map, List.map_map]
      rfl
    rw [hids]
    cases hrows : sqlTreeFetch db depth sort with
    | nil => exact List.nodup_nil
    | cons r rest =>
      have hr : r ∈ sqlTreeFetch db depth sort := hrows ▸ List.mem_cons_self
      rw [← hrows]
      exact nodup_sqlTreeFetch (h.isTree (mem_sqlTreeFetch_iff.mp hr).2.2.mem) depth sort
  parent node hnode := by
    obtain ⟨row, k, -, -, hrow, rfl⟩ := exists_of_mem_treeNodes hnode
    exact (callParent_of_mem hrow.mem).symm

lemma map_nodeId_childrenOf :
    (Detail.childrenOf (treeNodes db depth sort) nodeId).map Detail.ApiNode.nodeId =
      (childRows db depth nodeId sort).map (·.node.nodeId) := by
  have hrows := congrArg (List.map TreeItem.nodeId)
    (@filter_handleTraceTree _ db nodeId depth sort)
  rw [List.map_map, List.map_map] at hrows
  rw [treeNodes, TreeView.childrenOf_map, List.map_map]
  exact hrows

/-- Above the last level that was asked for, the children of a node are there in their order. -/
lemma childrenOf_treeNodes (h : IsCallTree db) (hdepth : callDepth db nodeId < depth) :
    (Detail.childrenOf (treeNodes db depth sort) nodeId).map Detail.ApiNode.nodeId =
      childIds db nodeId sort := by
  rw [map_nodeId_childrenOf, childIds]
  by_cases hnone : ∃ n, n ∈ db.nodes.rows
  · obtain ⟨n, hn⟩ := hnone
    rw [childRows_eq (h.isTree hn)]
    intro c hc hparent
    obtain ⟨k, hk⟩ := h.reachable c hc
    refine ⟨k, ?_, hk⟩
    rw [← callDepth_eq hk, h.callDepth_child ((callParent_of_mem hc).trans hparent)]
    exact hdepth
  · have hrows : childRows db depth nodeId sort = [] := by
      refine List.eq_nil_iff_forall_not_mem.mpr fun row hrow => hnone ⟨row.node, ?_⟩
      exact (mem_childRows_iff.mp hrow).2.1.mem
    have hfetch : sqlChildrenFetchNoLimit db nodeId sort = [] := by
      refine List.eq_nil_iff_forall_not_mem.mpr fun row hrow => hnone ⟨row.node, ?_⟩
      exact (mem_sqlChildrenFetchNoLimit_iff.mp hrow).1.mem
    rw [hrows, hfetch]

lemma childrenOf_treeNodes_eq_nil (h : IsCallTree db) (hdepth : depth ≤ callDepth db nodeId) :
    Detail.childrenOf (treeNodes db depth sort) nodeId = [] := by
  rw [← List.map_eq_nil_iff (f := Detail.ApiNode.nodeId), map_nodeId_childrenOf,
    List.map_eq_nil_iff]
  refine List.eq_nil_iff_forall_not_mem.mpr fun row hrow => ?_
  obtain ⟨hparent, hrow, k, hk, hdist⟩ := mem_childRows_iff.mp hrow
  have hchild := h.callDepth_child ((callParent_of_mem hrow.mem).trans hparent)
  rw [callDepth_eq hdist] at hchild
  omega

/-! ### Hydration -/

namespace Detail

/-- The node of each row, and its indent -/
def State.outlineRows (s : State) : List (ℕ × ℕ) :=
  s.rows.map fun row => (row.nodeId, row.indentDepthForUi)

/-- The walk below a node shows what has been loaded of the nodes below it. -/
lemma map_walk_treeNodes (h : IsCallTree db) (hdepth : callDepth db nodeId < depth) (d : ℕ) :
    (walk (treeNodes db depth sort) (treeNodes db depth sort).length nodeId d).map
        (fun row => (row.nodeId, row.indentDepthForUi)) =
      (callForest h fun _ => sort).rows (loadedTo db depth) nodeId d := by
  induction hn : (callForest h fun _ => sort).height nodeId using Nat.strong_induction_on
    generalizing nodeId d with
  | _ n ih =>
    have hkids : (callForest h fun _ => sort).kids nodeId =
        (childrenOf (treeNodes db depth sort) nodeId).map ApiNode.nodeId :=
      (childrenOf_treeNodes h hdepth).symm
    rw [walk_eq (part_treeNodes h depth sort), List.map_flatMap, Forest.rows_eq, hkids,
      List.flatMap_map]
    refine List.flatMap_congr fun child hchild => ?_
    have hmem : child.nodeId ∈ (callForest h fun _ => sort).kids nodeId :=
      hkids ▸ List.mem_map_of_mem hchild
    have hlevel := h.callDepth_child ((mem_childIds_iff h).mp hmem)
    obtain ⟨m, hm, hid, -⟩ := callParent_eq_some_iff.mp ((mem_childIds_iff h).mp hmem)
    rw [List.map_cons]
    by_cases hlast : callDepth db child.nodeId < depth
    · have hloaded := mem_loadedTo_of_lt h ⟨m, hm, hid⟩ hlast
      rw [Forest.subtree_of_mem hloaded,
        ih _ (hn ▸ (callForest h fun _ => sort).height_lt hmem) hlast (d + 1) rfl]
      rfl
    · have hnone : childrenOf (treeNodes db depth sort) child.nodeId = [] :=
        childrenOf_treeNodes_eq_nil h (not_lt.mp hlast)
      rw [walk_eq (part_treeNodes h depth sort), hnone, List.flatMap_nil, List.map_nil]
      by_cases hloaded : child.nodeId ∈ loadedTo db depth
      · have hleaf : (callForest h fun _ => sort).kids child.nodeId = [] :=
          childIds_eq_nil h hloaded (not_lt.mp hlast) sort
        rw [Forest.subtree_of_mem hloaded, Forest.rows_eq, hleaf, List.flatMap_nil]
        rfl
      · rw [Forest.subtree_of_notMem hloaded]
        rfl

lemma outlineRows_hydrateTree (h : IsCallTree db) (s : State) (hdepth : 0 < depth) :
    (s.hydrateTree (treeNodes db depth sort)).outlineRows =
      (callForest h fun _ => sort).rows (loadedTo db depth) syntheticRootNodeId 0 := by
  have hplaces := @places_hydrateTree (treeNodes db depth sort) s
  have hroot : callDepth db syntheticRootNodeId < depth := h.callDepth_root.trans_lt hdepth
  rw [walk_succ (part_treeNodes h depth sort) List.countP_le_length] at hplaces
  rw [← map_walk_treeNodes h hroot, State.outlineRows]
  have hmap := congrArg (List.map fun p : Place => (p.nodeId, p.indentDepthForUi)) hplaces
  rw [State.places, List.map_map, List.map_map] at hmap
  exact hmap

end Detail

end responses

end PhpTreeViz
