import PhpTreeViz.Storage.Paths

/-!
# Trees below the synthetic root

What `nodes` is without the history of the database: every node hangs below the synthetic root, one
level deeper than its parent, and no two nodes have the same parent and the same function. Paths
identify the nodes of such a tree, and a fold keeps them where they are.
-/

namespace PhpTreeViz

open Core

/-- `π` are the functions from the synthetic root down to a node. -/
def TraceDb.HasPath (db : TraceDb) (n : ℕ) (π : List UInt32) : Prop :=
  PathFrom db.up syntheticRootNodeId n π

/-- `nodes` is a tree below the synthetic root. -/
structure Rooted (db : TraceDb) : Prop where
  root : ∃ r ∈ db.nodes.rows, r.nodeId = syntheticRootNodeId ∧ r.parentNodeId = none
  path : ∀ r ∈ db.nodes.rows, ∃ π, db.HasPath r.nodeId π
  depth : ∀ r ∈ db.nodes.rows, ∀ p ∈ db.nodes.rows,
    r.parentNodeId = some p.nodeId → r.depth = p.depth + 1
  unique : ∀ r ∈ db.nodes.rows, ∀ r' ∈ db.nodes.rows,
    r.parentNodeId = r'.parentNodeId → r.fnId = r'.fnId → r = r'

namespace Rooted

variable {db : TraceDb} {n m : ℕ} {π π' : List UInt32}

lemma hasKey_root (h : Rooted db) : db.nodes.HasKey syntheticRootNodeId := by
  obtain ⟨r, hr, hid, -⟩ := h.root
  exact ⟨r, hr, hid⟩

lemma up_root (h : Rooted db) : db.up syntheticRootNodeId = none := by
  obtain ⟨r, hr, hid, hp⟩ := h.root
  rw [← hid, up_of_mem hr, hp, Option.map_none]

lemma hasKey (h : Rooted db) (hn : db.HasPath n π) : db.nodes.HasKey n := by
  cases hn with
  | root => exact h.hasKey_root
  | child hup _ =>
    obtain ⟨r, hr, hid, -⟩ := exists_of_up_eq_some hup
    exact ⟨r, hr, hid⟩

lemma exists_path (h : Rooted db) (hn : db.nodes.HasKey n) : ∃ π, db.HasPath n π := by
  obtain ⟨r, hr, rfl⟩ := hn
  exact h.path r hr

/-- The parent of a node is there. -/
lemma hasKey_parent (h : Rooted db) {r : NodeRow} {p : ℕ} (hr : r ∈ db.nodes.rows)
    (hp : r.parentNodeId = some p) : db.nodes.HasKey p := by
  have hup : db.up r.nodeId = some (p, r.fnId) := by rw [up_of_mem hr, hp, Option.map_some]
  obtain ⟨π, hπ⟩ := h.path r hr
  generalize r.nodeId = n at hπ hup
  cases hπ with
  | root => simp [h.up_root] at hup
  | child hup' hp' =>
    obtain ⟨rfl, -⟩ := Prod.mk.inj (Option.some.inj (hup'.symm.trans hup))
    exact h.hasKey hp'

lemma path_unique (h : Rooted db) (hn : db.HasPath n π) (hn' : db.HasPath n π') : π = π' :=
  PathFrom.unique h.up_root hn hn'

lemma eq_of_path (h : Rooted db) (hn : db.HasPath n π) (hm : db.HasPath m π) : n = m := by
  refine PathFrom.eq_of_path (fun n m e hn hm => ?_) hn hm
  obtain ⟨p, fn⟩ := e
  obtain ⟨r, hr, rfl, hp, hfn⟩ := exists_of_up_eq_some hn
  obtain ⟨r', hr', rfl, hp', hfn'⟩ := exists_of_up_eq_some hm
  rw [h.unique r hr r' hr' (hp.trans hp'.symm) (hfn.trans hfn'.symm)]

end Rooted

/-! ### Nodes stay where they are -/

/-- Every node of `db` is in `db'`, at the same place. -/
def NodesKept (db db' : TraceDb) : Prop :=
  ∀ r ∈ db.nodes.rows, ∃ r' ∈ db'.nodes.rows, r'.nodeId = r.nodeId ∧
    r'.parentNodeId = r.parentNodeId ∧ r'.fnId = r.fnId ∧ r'.depth = r.depth

namespace NodesKept

variable {db db' db'' : TraceDb} {n : ℕ} {π : List UInt32}

lemma refl (db : TraceDb) : NodesKept db db := fun r hr => ⟨r, hr, rfl, rfl, rfl, rfl⟩

lemma trans (h : NodesKept db db') (h' : NodesKept db' db'') : NodesKept db db'' := by
  intro r hr
  obtain ⟨r', hr', hid, hp, hfn, hd⟩ := h r hr
  obtain ⟨r'', hr'', hid', hp', hfn', hd'⟩ := h' r' hr'
  exact ⟨r'', hr'', hid'.trans hid, hp'.trans hp, hfn'.trans hfn, hd'.trans hd⟩

lemma fold (db : TraceDb) (p : ℕ) (c : Call) : NodesKept db (db.fold p c) := fun r hr =>
  ⟨_, mem_foldNodes.mpr ⟨r, mem_ensureNode.mpr (Or.inl hr), rfl⟩, by simp, by simp, by simp,
    by simp⟩

lemma hasKey (h : NodesKept db db') (hn : db.nodes.HasKey n) : db'.nodes.HasKey n := by
  obtain ⟨r, hr, rfl⟩ := hn
  obtain ⟨r', hr', hid, -⟩ := h r hr
  exact ⟨r', hr', hid⟩

lemma hasPath (h : NodesKept db db') (hn : db.HasPath n π) : db'.HasPath n π := by
  refine PathFrom.mono (fun n e hup => ?_) hn
  obtain ⟨p, fn⟩ := e
  obtain ⟨r, hr, rfl, hp, hfn⟩ := exists_of_up_eq_some hup
  obtain ⟨r', hr', hid, hp', hfn', -⟩ := h r hr
  rw [← hid, up_of_mem hr', hp', hfn', hp, hfn, Option.map_some]

/-- The old nodes have their old paths only. -/
lemma hasPath_iff (h : NodesKept db db') (hdb : Rooted db) (hdb' : Rooted db')
    (hn : db.nodes.HasKey n) : db'.HasPath n π ↔ db.HasPath n π := by
  refine ⟨fun hπ => ?_, h.hasPath⟩
  obtain ⟨π₀, hπ₀⟩ := hdb.exists_path hn
  rwa [hdb'.path_unique hπ (h.hasPath hπ₀)]

end NodesKept

/-- In two trees whose roots have the same depth, nodes with the same path do. -/
lemma Rooted.depth_eq {db db' : TraceDb} (h : Rooted db) (h' : Rooted db')
    (hroot : ∀ r ∈ db.nodes.rows, ∀ r' ∈ db'.nodes.rows, r.nodeId = syntheticRootNodeId →
      r'.nodeId = syntheticRootNodeId → r.depth = r'.depth) {π : List UInt32} {r r' : NodeRow}
    (hr : r ∈ db.nodes.rows) (hr' : r' ∈ db'.nodes.rows) (hπ : db.HasPath r.nodeId π)
    (hπ' : db'.HasPath r'.nodeId π) : r.depth = r'.depth := by
  generalize hn : r.nodeId = n at hπ
  induction hπ generalizing r r' with
  | root => exact hroot r hr r' hr' hn (PathFrom.nil_iff.mp hπ')
  | child hup hp ih =>
    obtain ⟨r₀, hr₀, hid, hpar, -⟩ := exists_of_up_eq_some hup
    obtain rfl := db.nodes.eq_of_key hr hr₀ (hn.trans hid.symm)
    obtain ⟨q', hup', hq'⟩ := PathFrom.exists_of_concat hπ'
    obtain ⟨r₀', hr₀', hid', hpar', -⟩ := exists_of_up_eq_some hup'
    obtain rfl := db'.nodes.eq_of_key hr' hr₀' hid'.symm
    obtain ⟨q, hq, rfl⟩ := h.hasKey_parent hr hpar
    obtain ⟨t, ht, rfl⟩ := h'.hasKey_parent hr' hpar'
    rw [h.depth r hr q hq hpar, h'.depth r' hr' t ht hpar', ih hq ht hq' rfl]

/-! ### One fold -/

/-- A fold one level below an existing node keeps the tree. -/
theorem Rooted.fold {db : TraceDb} (h : Rooted db) {p : NodeRow} (hp : p ∈ db.nodes.rows)
    {c : Call} (hc : c.depth = p.depth + 1) : Rooted (db.fold p.nodeId c) := by
  have hkept := NodesKept.fold db p.nodeId c
  constructor
  · obtain ⟨r, hr, hid, hpar⟩ := h.root
    obtain ⟨r', hr', hid', hpar', -⟩ := hkept r hr
    exact ⟨r', hr', hid'.trans hid, hpar'.trans hpar⟩
  · intro r hr
    obtain ⟨r₀, hr₀, rfl⟩ := mem_foldNodes.mp hr
    rcases mem_ensureNode.mp hr₀ with hr₀ | ⟨-, rfl⟩
    · obtain ⟨π, hπ⟩ := h.path r₀ hr₀
      exact ⟨π, by rw [NodeRow.nodeId_touch]; exact hkept.hasPath hπ⟩
    · obtain ⟨π, hπ⟩ := h.path p hp
      exact ⟨_, .child (by rw [up_of_mem hr]; simp [NodeRow.blank]; rfl) (hkept.hasPath hπ)⟩
  · intro r hr q hq hpar
    obtain ⟨r₀, hr₀, rfl⟩ := mem_foldNodes.mp hr
    obtain ⟨q₀, hq₀, rfl⟩ := mem_foldNodes.mp hq
    simp only [NodeRow.parentNodeId_touch, NodeRow.nodeId_touch, NodeRow.depth_touch] at hpar ⊢
    -- the new bucket is nobody's parent, and its own parent is `p`
    have hold : db.nodes.HasKey q₀.nodeId → q₀ ∈ db.nodes.rows := by
      rcases mem_ensureNode.mp hq₀ with hq₀ | ⟨-, rfl⟩
      · exact fun _ => hq₀
      · exact fun hk => absurd hk (not_hasKey_nextNodeId _)
    rcases mem_ensureNode.mp hr₀ with hr₀ | ⟨-, rfl⟩
    · exact h.depth r₀ hr₀ q₀ (hold (h.hasKey_parent hr₀ hpar)) hpar
    · have hid : p.nodeId = q₀.nodeId := Option.some.inj hpar
      obtain rfl := db.nodes.eq_of_key hp (hold (hid ▸ Table.hasKey_of_mem hp)) hid
      exact hc
  · exact unique_foldNodes h.unique p.nodeId c

/-- The bucket of a fold is one level below its parent. -/
lemma Rooted.exists_bucket {db : TraceDb} (h : Rooted db) {p : NodeRow} (hp : p ∈ db.nodes.rows)
    {c : Call} (hc : c.depth = p.depth + 1) :
    ∃ r ∈ (db.fold p.nodeId c).nodes.rows, r.nodeId = (foldOf db.nodes p.nodeId c).node ∧
      r.parentNodeId = some p.nodeId ∧ r.fnId = c.fnId ∧ r.depth = c.depth := by
  obtain ⟨r, hr, hid, hpar, hfn⟩ := exists_foldTarget db.nodes p.nodeId c
  have hr' : r.touch (foldOf db.nodes p.nodeId c) ∈ (db.fold p.nodeId c).nodes.rows :=
    mem_foldNodes.mpr ⟨r, hr, rfl⟩
  obtain ⟨q, hq, hqid, -, -, hqdepth⟩ := NodesKept.fold db p.nodeId c p hp
  have hdepth := (h.fold hp hc).depth _ hr' q hq (by rw [NodeRow.parentNodeId_touch, hpar, hqid])
  exact ⟨_, hr', by simpa [foldOf] using hid, by simpa using hpar, by simpa using hfn,
    by rw [hdepth, hqdepth, hc]⟩

end PhpTreeViz
