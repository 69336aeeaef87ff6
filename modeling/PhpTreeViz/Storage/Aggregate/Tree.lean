import PhpTreeViz.Storage.Aggregate.Basic
import Mathlib.Tactic.Set

/-!
# The tree under one fold

A fold makes sure that the bucket of the call exists and then touches two rows: it accumulates the
call in its bucket and bumps the children's total of the parent. `TreeInv` relates the `nodes`
table to the list of all folds made so far.
-/

namespace PhpTreeViz

open Core

/-- One fold: the call as it was folded, the node of its parent and its own. -/
structure Folded where
  call : Call
  parentNode : ℕ
  node : ℕ
  deriving DecidableEq

/-- The `call_to_node` row that the fold writes. -/
def Folded.row (f : Folded) : CallToNodeRow := ⟨f.call.callId, f.node⟩

/-! ### Rows -/

/-- A bucket before its first call is accumulated. -/
def NodeRow.blank (nodeId parentNodeId : ℕ) (c : Call) : NodeRow where
  nodeId := nodeId
  parentNodeId := some parentNodeId
  fnId := c.fnId
  depth := c.depth

lemma NodeRow.nodeId_blank (nodeId parentNodeId : ℕ) (c : Call) :
    (NodeRow.blank nodeId parentNodeId c).nodeId = nodeId := rfl

lemma NodeRow.accumulate_blank (nodeId parentNodeId : ℕ) (c : Call) :
    (NodeRow.blank nodeId parentNodeId c).accumulate c = .ofCall nodeId parentNodeId c := by
  simp [NodeRow.accumulate, NodeRow.blank, NodeRow.ofCall, NumCell.zero_add_integer]

/-- What the fold `f` does to a row. -/
def NodeRow.touch (f : Folded) (r : NodeRow) : NodeRow :=
  let r := if r.nodeId = f.node then r.accumulate f.call else r
  if r.nodeId = f.parentNode then r.bumpChildren f.call.wall else r

section touch

variable (f : Folded) (r : NodeRow)

@[simp] lemma NodeRow.nodeId_touch : (r.touch f).nodeId = r.nodeId := by
  simp only [touch]
  split_ifs <;> rfl

@[simp] lemma NodeRow.parentNodeId_touch : (r.touch f).parentNodeId = r.parentNodeId := by
  simp only [touch]
  split_ifs <;> rfl

@[simp] lemma NodeRow.fnId_touch : (r.touch f).fnId = r.fnId := by
  simp only [touch]
  split_ifs <;> rfl

@[simp] lemma NodeRow.depth_touch : (r.touch f).depth = r.depth := by
  simp only [touch]
  split_ifs <;> rfl

lemma NodeRow.callCount_touch :
    (r.touch f).callCount = r.callCount + if f.node = r.nodeId then 1 else 0 := by
  simp only [touch, eq_comm (a := f.node)]
  split_ifs <;> rfl

lemma NodeRow.abnormalExitCount_touch : (r.touch f).abnormalExitCount =
    r.abnormalExitCount + if f.node = r.nodeId ∧ f.call.abnormalExit then 1 else 0 := by
  simp only [touch, eq_comm (a := f.node)]
  by_cases h : r.nodeId = f.node <;> by_cases ha : f.call.abnormalExit <;>
    simp only [h, ha, if_true, if_false, and_true, and_false,
      Bool.false_eq_true] <;> split_ifs <;> simp [accumulate, bumpChildren, ha]

end touch

/-! ### The node table -/

lemma lt_nextNodeId {nodes : Table NodeRow.nodeId} {k : ℕ} (h : nodes.HasKey k) :
    k < nextNodeId nodes := by
  obtain ⟨r, hr, rfl⟩ := h
  have hle : ∀ l : List ℕ, ∀ n ∈ l, n ≤ l.foldr max 0 := by
    intro l
    induction l with
    | nil => simp
    | cons a l ih =>
      intro n hn
      rcases List.mem_cons.mp hn with rfl | hn
      · exact le_max_left _ _
      · exact (ih n hn).trans (le_max_right _ _)
  exact Nat.lt_succ_of_le (hle _ _ (List.mem_map_of_mem hr))

lemma not_hasKey_nextNodeId (nodes : Table NodeRow.nodeId) : ¬ nodes.HasKey (nextNodeId nodes) :=
  fun h => (lt_nextNodeId h).ne rfl

lemma findNode_eq_some {nodes : Table NodeRow.nodeId} {p : ℕ} {fn : UInt32} {n : NodeRow}
    (h : findNode nodes p fn = some n) :
    n ∈ nodes.rows ∧ n.parentNodeId = some p ∧ n.fnId = fn := by
  have := List.find?_some h
  simp only [decide_eq_true_eq] at this
  exact ⟨List.mem_of_find?_eq_some h, this⟩

lemma findNode_eq_none {nodes : Table NodeRow.nodeId} {p : ℕ} {fn : UInt32}
    (h : findNode nodes p fn = none) {n : NodeRow} (hn : n ∈ nodes.rows)
    (hp : n.parentNodeId = some p) : n.fnId ≠ fn := by
  have := List.find?_eq_none.mp h n hn
  simpa [hp] using this

/-- The node a fold of `fn` under `p` lands in. -/
def foldTarget (nodes : Table NodeRow.nodeId) (p : ℕ) (fn : UInt32) : ℕ :=
  (findNode nodes p fn).elim (nextNodeId nodes) NodeRow.nodeId

/-- The fold of `c` under `p`. -/
def foldOf (nodes : Table NodeRow.nodeId) (p : ℕ) (c : Call) : Folded where
  call := c
  parentNode := p
  node := foldTarget nodes p c.fnId

/-- The table with the bucket of the call. -/
def ensureNode (nodes : Table NodeRow.nodeId) (p : ℕ) (c : Call) : Table NodeRow.nodeId :=
  match findNode nodes p c.fnId with
  | some _ => nodes
  | none   => nodes.insertOrIgnore (.blank (nextNodeId nodes) p c)

lemma mem_ensureNode {nodes : Table NodeRow.nodeId} {p : ℕ} {c : Call} {r : NodeRow} :
    r ∈ (ensureNode nodes p c).rows ↔
      r ∈ nodes.rows ∨ (findNode nodes p c.fnId = none ∧ r = .blank (nextNodeId nodes) p c) := by
  cases hf : findNode nodes p c.fnId with
  | some n => simp [ensureNode, hf]
  | none =>
    have := not_hasKey_nextNodeId nodes
    simp only [ensureNode, hf, Table.mem_insertOrIgnore, true_and]
    simp [NodeRow.blank, this]

/-- The bucket of the call is there, under its parent and with its function. -/
lemma exists_foldTarget (nodes : Table NodeRow.nodeId) (p : ℕ) (c : Call) :
    ∃ r ∈ (ensureNode nodes p c).rows, r.nodeId = foldTarget nodes p c.fnId ∧
      r.parentNodeId = some p ∧ r.fnId = c.fnId := by
  cases hf : findNode nodes p c.fnId with
  | some n =>
    obtain ⟨hn, hp, hfn⟩ := findNode_eq_some hf
    exact ⟨n, mem_ensureNode.mpr (Or.inl hn), by simp [foldTarget, hf], hp, hfn⟩
  | none =>
    exact ⟨_, mem_ensureNode.mpr (Or.inr ⟨hf, rfl⟩), by simp [foldTarget, hf, NodeRow.blank],
      rfl, rfl⟩

/-- The `nodes` table after a fold. -/
def foldNodes (nodes : Table NodeRow.nodeId) (p : ℕ) (c : Call) : Table NodeRow.nodeId :=
  bumpParent ((ensureNode nodes p c).modify (foldTarget nodes p c.fnId) (.accumulate c)
    (NodeRow.nodeId_accumulate c)) p c.wall

lemma mem_foldNodes {nodes : Table NodeRow.nodeId} {p : ℕ} {c : Call} {r : NodeRow} :
    r ∈ (foldNodes nodes p c).rows ↔
      ∃ r₀ ∈ (ensureNode nodes p c).rows, r = r₀.touch (foldOf nodes p c) := by
  simp only [foldNodes, bumpParent, Table.rows_modify, List.mem_map, NodeRow.touch, foldOf]
  constructor
  · rintro ⟨_, ⟨r₀, hr₀, rfl⟩, rfl⟩
    exact ⟨r₀, hr₀, rfl⟩
  · rintro ⟨r₀, hr₀, rfl⟩
    exact ⟨_, ⟨r₀, hr₀, rfl⟩, rfl⟩

lemma hasKey_foldNodes_of {nodes : Table NodeRow.nodeId} {p k : ℕ} {c : Call}
    (h : nodes.HasKey k) : (foldNodes nodes p c).HasKey k := by
  obtain ⟨r, hr, rfl⟩ := h
  exact ⟨_, mem_foldNodes.mpr ⟨r, mem_ensureNode.mpr (Or.inl hr), rfl⟩, by simp⟩

/-- The bucket is only inserted when no row has its parent and function. -/
lemma unique_foldNodes {nodes : Table NodeRow.nodeId}
    (h : ∀ r ∈ nodes.rows, ∀ r' ∈ nodes.rows,
      r.parentNodeId = r'.parentNodeId → r.fnId = r'.fnId → r = r') (p : ℕ) (c : Call) :
    ∀ r ∈ (foldNodes nodes p c).rows, ∀ r' ∈ (foldNodes nodes p c).rows,
      r.parentNodeId = r'.parentNodeId → r.fnId = r'.fnId → r = r' := by
  intro r hr r' hr' hpar hfn
  obtain ⟨r₀, hr₀, rfl⟩ := mem_foldNodes.mp hr
  obtain ⟨r₁, hr₁, rfl⟩ := mem_foldNodes.mp hr'
  simp only [NodeRow.parentNodeId_touch, NodeRow.fnId_touch] at hpar hfn
  rcases mem_ensureNode.mp hr₀ with hr₀ | ⟨hnone, rfl⟩ <;>
    rcases mem_ensureNode.mp hr₁ with hr₁ | ⟨hnone', rfl⟩
  · rw [h r₀ hr₀ r₁ hr₁ hpar hfn]
  · exact absurd hfn (findNode_eq_none hnone' hr₀ hpar)
  · exact absurd hfn.symm (findNode_eq_none hnone hr₁ hpar.symm)
  · rfl

/-- The upsert inserts or updates, in both cases leaving the bucket with the call accumulated. -/
lemma upsertNode_eq {db : TraceDb} {p : ℕ} {c : Call} (hp : db.nodes.HasKey p)
    (hfn : db.dict.HasKey c.fnId) :
    upsertNode db p c = .ok (foldTarget db.nodes p c.fnId,
      (ensureNode db.nodes p c).modify (foldTarget db.nodes p c.fnId) (.accumulate c)
        (NodeRow.nodeId_accumulate c)) := by
  cases hf : findNode db.nodes p c.fnId with
  | some n => simp [upsertNode, ensureNode, foldTarget, hf]
  | none =>
    have hnew := not_hasKey_nextNodeId db.nodes
    have hne : ∀ r ∈ db.nodes.rows, r.nodeId ≠ nextNodeId db.nodes :=
      fun r hr => (lt_nextNodeId (Table.hasKey_of_mem hr)).ne
    have hmap : db.nodes.rows.map
        (fun r => if r.nodeId = nextNodeId db.nodes then r.accumulate c else r)
        = db.nodes.rows := by
      conv_rhs => rw [← List.map_id db.nodes.rows]
      exact List.map_congr_left fun r hr => if_neg (hne r hr)
    simp only [upsertNode, ensureNode, foldTarget, hf, hp, hfn, and_self, if_true,
      Option.elim_none, Except.ok.injEq, Prod.mk.injEq, true_and]
    ext1
    rw [Table.rows_insertOrIgnore (by simpa [NodeRow.ofCall] using hnew), Table.rows_modify,
      Table.rows_insertOrIgnore (by simpa [NodeRow.blank] using hnew), List.map_append, hmap,
      List.map_singleton, if_pos (NodeRow.nodeId_blank _ _ _), NodeRow.accumulate_blank]

/-! ### The tree invariant -/

/-- The `nodes` table is the tree of the folds in `log`. -/
structure TreeInv (nodes : Table NodeRow.nodeId) (log : List Folded) : Prop where
  root : ∃ r ∈ nodes.rows, r.nodeId = syntheticRootNodeId ∧ r.parentNodeId = none ∧ r.depth = 0
  parent : ∀ r ∈ nodes.rows, r.nodeId ≠ syntheticRootNodeId →
    ∃ p, r.parentNodeId = some p ∧ p < r.nodeId ∧ nodes.HasKey p
  unique : ∀ r ∈ nodes.rows, ∀ r' ∈ nodes.rows,
    r.parentNodeId = r'.parentNodeId → r.fnId = r'.fnId → r = r'
  placed : ∀ f ∈ log, ∃ r ∈ nodes.rows,
    r.nodeId = f.node ∧ r.parentNodeId = some f.parentNode ∧ r.fnId = f.call.fnId
  used : ∀ r ∈ nodes.rows, r.nodeId ≠ syntheticRootNodeId → ∃ f ∈ log, f.node = r.nodeId
  callCount : ∀ r ∈ nodes.rows, r.callCount = log.countP fun f => f.node = r.nodeId
  abnormalExitCount : ∀ r ∈ nodes.rows,
    r.abnormalExitCount = log.countP fun f => f.node = r.nodeId ∧ f.call.abnormalExit

namespace TreeInv

variable {nodes : Table NodeRow.nodeId} {log : List Folded}

lemma hasKey_root (h : TreeInv nodes log) : nodes.HasKey syntheticRootNodeId := by
  obtain ⟨r, hr, hid, -⟩ := h.root
  exact ⟨r, hr, hid⟩

lemma hasKey_node (h : TreeInv nodes log) {f : Folded} (hf : f ∈ log) : nodes.HasKey f.node := by
  obtain ⟨r, hr, hid, -⟩ := h.placed f hf
  exact ⟨r, hr, hid⟩

/-- Only the synthetic root has no parent. -/
lemma parentNodeId_eq_none (h : TreeInv nodes log) {r : NodeRow} (hr : r ∈ nodes.rows) :
    r.parentNodeId = none ↔ r.nodeId = syntheticRootNodeId := by
  constructor
  · intro hp
    by_contra hne
    obtain ⟨p, hp', -⟩ := h.parent r hr hne
    simp [hp] at hp'
  · intro hid
    obtain ⟨r₀, hr₀, hid₀, hp₀, -⟩ := h.root
    rw [nodes.eq_of_key hr hr₀ (hid.trans hid₀.symm), hp₀]

/-- Calls fold into nodes below the root. -/
lemma node_ne_root (h : TreeInv nodes log) {f : Folded} (hf : f ∈ log) :
    f.node ≠ syntheticRootNodeId := by
  intro hid
  obtain ⟨r, hr, hid', hp, -⟩ := h.placed f hf
  have := (h.parentNodeId_eq_none hr).mpr (hid'.trans hid)
  simp [this] at hp

/-- No fold so far landed in the node that will be created next. -/
lemma node_ne_next (h : TreeInv nodes log) {f : Folded} (hf : f ∈ log) :
    f.node ≠ nextNodeId nodes :=
  (lt_nextNodeId (h.hasKey_node hf)).ne

/-- A parent node exists and is older than its children. -/
lemma parentNode_lt (h : TreeInv nodes log) {f : Folded} (hf : f ∈ log) :
    f.parentNode < f.node ∧ nodes.HasKey f.parentNode := by
  obtain ⟨r, hr, hid, hp, -⟩ := h.placed f hf
  obtain ⟨p, hp', hlt, hkey⟩ := h.parent r hr (hid ▸ h.node_ne_root hf)
  obtain rfl : p = f.parentNode := Option.some.inj (hp'.symm.trans hp)
  exact ⟨hid ▸ hlt, hkey⟩

lemma parentNode_ne_next (h : TreeInv nodes log) {f : Folded} (hf : f ∈ log) :
    f.parentNode ≠ nextNodeId nodes :=
  (lt_nextNodeId (h.parentNode_lt hf).2).ne

/-- The tree of a database to which only the schema and the root rows were written. -/
lemma seeded : TreeInv (Table.empty.insertOrIgnore .syntheticRoot) [] := by
  have hrows : ((Table.empty : Table NodeRow.nodeId).insertOrIgnore .syntheticRoot).rows
      = [.syntheticRoot] := by
    rw [Table.rows_insertOrIgnore (Table.not_hasKey_empty _)]
    rfl
  constructor
  · exact ⟨.syntheticRoot, by simp [hrows], rfl, rfl, rfl⟩
  · intro r hr hne
    simp only [hrows, List.mem_singleton] at hr
    exact absurd (by simp [hr, NodeRow.syntheticRoot]) hne
  · intro r hr r' hr' _ _
    simp only [hrows, List.mem_singleton] at hr hr'
    rw [hr, hr']
  · simp
  · intro r hr hne
    simp only [hrows, List.mem_singleton] at hr
    exact absurd (by simp [hr, NodeRow.syntheticRoot]) hne
  · intro r hr
    simp only [hrows, List.mem_singleton] at hr
    simp [hr, NodeRow.syntheticRoot]
  · intro r hr
    simp only [hrows, List.mem_singleton] at hr
    simp [hr, NodeRow.syntheticRoot]

/-- Folding a call under an existing node extends the tree by that fold. -/
theorem fold (h : TreeInv nodes log) {p : ℕ} (hp : nodes.HasKey p) (c : Call) :
    TreeInv (foldNodes nodes p c) (log ++ [foldOf nodes p c]) := by
  have hnew : findNode nodes p c.fnId = none → (foldOf nodes p c).node = nextNodeId nodes := by
    intro hnone
    simp [foldOf, foldTarget, hnone]
  constructor
  · obtain ⟨r, hr, hid, hpar, hdep⟩ := h.root
    exact ⟨r.touch _, mem_foldNodes.mpr ⟨r, mem_ensureNode.mpr (Or.inl hr), rfl⟩,
      by simp [hid], by simp [hpar], by simp [hdep]⟩
  · intro r hr hne
    obtain ⟨r₀, hr₀, rfl⟩ := mem_foldNodes.mp hr
    simp only [NodeRow.nodeId_touch, NodeRow.parentNodeId_touch] at hne ⊢
    rcases mem_ensureNode.mp hr₀ with hr₀ | ⟨_, rfl⟩
    · obtain ⟨q, hq, hlt, hkey⟩ := h.parent r₀ hr₀ hne
      exact ⟨q, hq, hlt, hasKey_foldNodes_of hkey⟩
    · exact ⟨p, rfl, lt_nextNodeId hp, hasKey_foldNodes_of hp⟩
  · exact unique_foldNodes h.unique p c
  · intro g hg
    rcases List.mem_append.mp hg with hg | hg
    · obtain ⟨r, hr, hid, hpar, hfn⟩ := h.placed g hg
      exact ⟨r.touch _, mem_foldNodes.mpr ⟨r, mem_ensureNode.mpr (Or.inl hr), rfl⟩,
        by simp [hid], by simp [hpar], by simp [hfn]⟩
    · rw [List.mem_singleton.mp hg]
      obtain ⟨r, hr, hid, hpar, hfn⟩ := exists_foldTarget nodes p c
      exact ⟨r.touch _, mem_foldNodes.mpr ⟨r, hr, rfl⟩,
        by simp [hid, foldOf], by simp [hpar, foldOf], by simp [hfn, foldOf]⟩
  · intro r hr hne
    obtain ⟨r₀, hr₀, rfl⟩ := mem_foldNodes.mp hr
    simp only [NodeRow.nodeId_touch] at hne ⊢
    rcases mem_ensureNode.mp hr₀ with hr₀ | ⟨hnone, rfl⟩
    · obtain ⟨g, hg, hid⟩ := h.used r₀ hr₀ hne
      exact ⟨g, List.mem_append_left _ hg, hid⟩
    · exact ⟨foldOf nodes p c, by simp, hnew hnone⟩
  · intro r hr
    obtain ⟨r₀, hr₀, rfl⟩ := mem_foldNodes.mp hr
    rw [NodeRow.callCount_touch, NodeRow.nodeId_touch, List.countP_append, List.countP_singleton]
    rcases mem_ensureNode.mp hr₀ with hr₀ | ⟨hnone, rfl⟩
    · simp only [h.callCount r₀ hr₀, decide_eq_true_eq]
    · have hzero : log.countP (fun g => g.node = nextNodeId nodes) = 0 :=
        List.countP_eq_zero.mpr fun g hg => by simpa using h.node_ne_next hg
      rw [NodeRow.nodeId_blank, hzero]
      simp [NodeRow.blank]
  · intro r hr
    obtain ⟨r₀, hr₀, rfl⟩ := mem_foldNodes.mp hr
    rw [NodeRow.abnormalExitCount_touch, NodeRow.nodeId_touch, List.countP_append,
      List.countP_singleton]
    rcases mem_ensureNode.mp hr₀ with hr₀ | ⟨hnone, rfl⟩
    · simp only [h.abnormalExitCount r₀ hr₀, decide_eq_true_eq]
    · have hzero : log.countP (fun g => g.node = nextNodeId nodes ∧ g.call.abnormalExit) = 0 :=
        List.countP_eq_zero.mpr fun g hg => by simp [h.node_ne_next hg]
      rw [NodeRow.nodeId_blank, hzero]
      simp [NodeRow.blank]

end TreeInv

end PhpTreeViz
