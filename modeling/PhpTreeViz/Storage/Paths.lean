import PhpTreeViz.Core.Paths
import PhpTreeViz.Storage.ContextTree

/-!
# Paths of the calling-context tree

Node ids depend on the order in which the nodes were made. What does not depend on it is the path
of a node: the functions on the way down to it from the synthetic root. The path of a mapped call
is its calling context, which its recorded version and those of its callers determine.
-/

namespace PhpTreeViz

open Core

/-- The parent of a node and the function of the node. -/
def TraceDb.up (db : TraceDb) (n : ℕ) : Option (ℕ × UInt32) :=
  (db.nodes.find? n).bind fun r => r.parentNodeId.map (·, r.fnId)

/-- The functions from the synthetic root down to a node. -/
def TraceDb.path (db : TraceDb) (n : ℕ) : List UInt32 := pathOf db.up n

lemma up_of_mem {db : TraceDb} {r : NodeRow} (hr : r ∈ db.nodes.rows) :
    db.up r.nodeId = r.parentNodeId.map (·, r.fnId) := by
  rw [TraceDb.up, Table.find?_of_mem hr, Option.bind_some]

lemma exists_of_up_eq_some {db : TraceDb} {n p : ℕ} {fn : UInt32} (h : db.up n = some (p, fn)) :
    ∃ r ∈ db.nodes.rows, r.nodeId = n ∧ r.parentNodeId = some p ∧ r.fnId = fn := by
  obtain ⟨r, hr, hup⟩ := Option.bind_eq_some_iff.mp h
  obtain ⟨hmem, hid⟩ := Table.find?_eq_some_iff.mp hr
  obtain ⟨q, hq, hpair⟩ := Option.map_eq_some_iff.mp hup
  obtain ⟨rfl, rfl⟩ := Prod.mk.inj hpair
  exact ⟨r, hmem, hid, hq, rfl⟩

namespace WellFormed

variable {s : Traced}

/-- A row with a parent is not the root, so its parent is an older row. -/
lemma parent_of_up (h : WellFormed s) {n p : ℕ} {fn : UInt32} (hup : s.db.up n = some (p, fn)) :
    p < n ∧ s.db.nodes.HasKey p := by
  obtain ⟨r, hr, rfl, hp, -⟩ := exists_of_up_eq_some hup
  have hne : r.nodeId ≠ syntheticRootNodeId := fun hid => by
    rw [(h.tree.parentNodeId_eq_none hr).mpr hid] at hp
    cases hp
  obtain ⟨q, hq, hlt, hkey⟩ := h.tree.parent r hr hne
  obtain rfl : q = p := Option.some.inj (hq.symm.trans hp)
  exact ⟨hlt, hkey⟩

lemma descending (h : WellFormed s) : Descending s.db.up := fun _ _ _ hup => (h.parent_of_up hup).1

/-- Nodes are identified by their paths. -/
theorem path_injOn (h : WellFormed s) : Set.InjOn s.db.path {n | s.db.nodes.HasKey n} := by
  apply pathOf_injOn h.descending (fun n _ p fn hup => (h.parent_of_up hup).2)
  rintro _ ⟨r, hr, rfl⟩ _ ⟨r', hr', rfl⟩ heq
  rw [up_of_mem hr, up_of_mem hr'] at heq
  cases hp : r.parentNodeId with
  | none =>
    rw [hp, Option.map_none, eq_comm, Option.map_eq_none_iff] at heq
    rw [(h.tree.parentNodeId_eq_none hr).mp hp, (h.tree.parentNodeId_eq_none hr').mp heq]
  | some p =>
    rw [hp, Option.map_some, eq_comm, Option.map_eq_some_iff] at heq
    obtain ⟨q, hq, hpair⟩ := heq
    obtain ⟨rfl, hfn⟩ := Prod.mk.inj hpair
    rw [h.tree.unique r hr r' hr' (hp.trans hq.symm) hfn.symm]

lemma path_root (h : WellFormed s) : s.db.path syntheticRootNodeId = [] := by
  obtain ⟨r, hr, hid, hp, -⟩ := h.tree.root
  apply pathOf_of_none
  rw [← hid, up_of_mem hr, hp, Option.map_none]

/-- The path of a call extends the path of its parent node by its function. -/
lemma path_node (h : WellFormed s) {f : Folded} (hf : f ∈ s.log) :
    s.db.path f.node = s.db.path f.parentNode ++ [f.call.fnId] := by
  obtain ⟨r, hr, hid, hp, hfn⟩ := h.tree.placed f hf
  apply pathOf_of_some h.descending
  rw [← hid, up_of_mem hr, hp, hfn, Option.map_some]

lemma path_parentNode (h : WellFormed s) {f : Folded} (hf : f ∈ s.log) :
    s.db.path f.parentNode = (s.db.path f.node).dropLast := by
  rw [h.path_node hf, List.dropLast_concat]

end WellFormed

/-! ### Calling contexts -/

/-- The functions of a call and its callers, the outermost first. -/
inductive CallContext (version : UInt32 → Option Call) : UInt32 → List UInt32 → Prop where
  | top {id : UInt32} {c : Call} :
      version id = some c → c.parent = 0 → CallContext version id [c.fnId]
  | nested {id : UInt32} {c : Call} {path : List UInt32} :
      version id = some c → c.parent ≠ 0 → CallContext version c.parent path →
      CallContext version id (path ++ [c.fnId])

/-- A call has at most one calling context. -/
lemma CallContext.unique {version : UInt32 → Option Call} {id : UInt32} {path path' : List UInt32}
    (h : CallContext version id path) (h' : CallContext version id path') : path = path' := by
  induction h generalizing path' with
  | @top id c hc h0 =>
    cases h' with
    | top hc' _ =>
      obtain rfl := Option.some.inj (hc.symm.trans hc')
      rfl
    | nested hc' hne _ =>
      obtain rfl := Option.some.inj (hc.symm.trans hc')
      exact absurd h0 hne
  | @nested id c path hc hne _ ih =>
    cases h' with
    | top hc' h0 =>
      obtain rfl := Option.some.inj (hc.symm.trans hc')
      exact absurd h0 hne
    | nested hc' _ hpath =>
      obtain rfl := Option.some.inj (hc.symm.trans hc')
      rw [ih hpath]

/-- The path of a mapped call is its calling context. -/
theorem WellFormed.callContext {s : Traced} (h : WellFormed s)
    (h0 : ∀ f ∈ s.log, f.call.callId ≠ 0) {f : Folded} (hf : f ∈ s.log) :
    CallContext s.version f.call.callId (s.db.path f.node) := by
  induction hn : f.node using Nat.strong_induction_on generalizing f with
  | _ n ih =>
    obtain ⟨c, hc, hpc⟩ := Option.map_eq_some_iff.mp (h.logVersion f hf)
    have hparent : c.parent = f.call.parent := congrArg PendingCall.parentCallId hpc
    have hfn : c.fnId = f.call.fnId := congrArg PendingCall.fnId hpc
    rw [← hn, h.path_node hf, ← hfn]
    rcases h.parentAt_iff.mp (h.parentAt f hf) with ⟨hzero, hroot⟩ | ⟨g, hg, hid, hnode⟩
    · rw [hroot, h.path_root]
      exact .top hc (hparent.trans hzero)
    · have hlt := (h.tree.parentNode_lt hf).1
      rw [← hnode]
      refine .nested hc (hparent.trans hid.symm ▸ h0 g hg) ?_
      rw [hparent, ← hid]
      exact ih g.node (by omega) hg rfl

end PhpTreeViz
