import PhpTreeViz.Storage.Paths
import PhpTreeViz.Storage.Delivery
import Mathlib.Data.List.Nodup
import Mathlib.Data.Finset.Card

/-!
# The depth of a node

A call that is folded at once brings the depth of a new node along, a call from `pending_calls` gets
it from the node of its caller. The loop does not check what the wire says, so the levels of the
tree are right as long as every call for which it makes a node is one level below the node of its
caller. The drain then never leaves 32 bits, because there are not enough call ids for so deep a
tree.
-/

namespace PhpTreeViz

open Core

/-- Every node but the root is one level below its parent. -/
def Leveled (db : TraceDb) : Prop :=
  ∀ r ∈ db.nodes.rows, r.nodeId ≠ syntheticRootNodeId →
    ∃ p ∈ db.nodes.rows, r.parentNodeId = some p.nodeId ∧ r.depth.toNat = p.depth.toNat + 1

/-- A fold of `c` below `n` makes no node, or its wire depth is one more than the depth of `n`. -/
def FitsNode (nodes : Table NodeRow.nodeId) (n : ℕ) (c : Call) : Prop :=
  findNode nodes n c.fnId = none →
    ∀ q ∈ nodes.rows, q.nodeId = n → c.depth.toNat = q.depth.toNat + 1

/-- If the loop folds the call, it makes no node or one at the right depth. -/
def FitsCall (known : List UInt32) (db : TraceDb) (c : Call) : Prop :=
  ¬ CallIdAlreadyKnown db c.callId → c.fnId ∈ known →
    ∀ n, resolveParent db c.parent = some n → FitsNode db.nodes n c

/-- The same for each call when its turn comes in the loop. -/
def FitsLoop (known : List UInt32) : List Call → TraceDb → AggregateOutcome → Prop
  | [], _, _                => True
  | c :: calls, db, outcome => FitsCall known db c ∧
    ∀ db' outcome', aggregateCall known c db outcome = .ok (db', outcome') →
      FitsLoop known calls db' outcome'

/-- The loop makes every node of the batch at the right depth. -/
def FitsBatch (key : TraceKey) (db : TraceDb) (batch : Batch) : Prop :=
  let db := prepareTrace key db batch
  FitsLoop (knownFnIds db) batch.calls.reverse db {}

/-! ### Levels of a table -/

/-- Each row is one level below the row of its parent. -/
def Below (nodes : Table NodeRow.nodeId) : Prop :=
  ∀ r ∈ nodes.rows, ∀ p ∈ nodes.rows, r.parentNodeId = some p.nodeId →
    r.depth.toNat = p.depth.toNat + 1

section tables

variable {nodes : Table NodeRow.nodeId} {log : List Folded} {p : ℕ} {c : Call}

lemma TreeInv.leveled_iff {db : TraceDb} (h : TreeInv db.nodes log) :
    Leveled db ↔ Below db.nodes := by
  constructor
  · intro hlev r hr p hp hpar
    have hne : r.nodeId ≠ syntheticRootNodeId := fun hroot => by
      rw [(h.parentNodeId_eq_none hr).mpr hroot] at hpar
      cases hpar
    obtain ⟨p', hp', hpar', hdepth⟩ := hlev r hr hne
    rwa [db.nodes.eq_of_key hp hp' (Option.some.inj (hpar.symm.trans hpar'))]
  · intro hbelow r hr hne
    obtain ⟨_, hpar, -, p, hp, rfl⟩ := h.parent r hr hne
    exact ⟨p, hp, hpar, hbelow r hr p hp hpar⟩

/-- Parents and depths never change. -/
lemma below_of_foldNodes (h : Below (foldNodes nodes p c)) : Below nodes := by
  intro r hr q hq hpar
  have htouch : ∀ a ∈ nodes.rows, a.touch (foldOf nodes p c) ∈ (foldNodes nodes p c).rows :=
    fun a ha => mem_foldNodes.mpr ⟨a, mem_ensureNode.mpr (Or.inl ha), rfl⟩
  simpa using h _ (htouch r hr) _ (htouch q hq) (by simpa using hpar)

lemma below_foldNodes_iff (h : TreeInv nodes log) (hbelow : Below nodes) (hp : nodes.HasKey p) :
    Below (foldNodes nodes p c) ↔ FitsNode nodes p c := by
  constructor
  · intro hfold hnone q hq hid
    have hnew := mem_foldNodes.mpr ⟨_, mem_ensureNode.mpr (Or.inr ⟨hnone, rfl⟩), rfl⟩
    have hold := mem_foldNodes (p := p) (c := c).mpr ⟨q, mem_ensureNode.mpr (Or.inl hq), rfl⟩
    simpa [NodeRow.blank] using hfold _ hnew _ hold (by simp [NodeRow.blank, hid])
  · intro hfits r hr q hq hpar
    obtain ⟨r₀, hr₀, rfl⟩ := mem_foldNodes.mp hr
    obtain ⟨q₀, hq₀, rfl⟩ := mem_foldNodes.mp hq
    simp only [NodeRow.parentNodeId_touch, NodeRow.nodeId_touch, NodeRow.depth_touch] at hpar ⊢
    rcases mem_ensureNode.mp hr₀ with hr₀ | ⟨hnone, rfl⟩ <;>
      rcases mem_ensureNode.mp hq₀ with hq₀ | ⟨-, rfl⟩
    · exact hbelow r₀ hr₀ q₀ hq₀ hpar
    · -- the new node is nobody's parent yet
      have hne : r₀.nodeId ≠ syntheticRootNodeId := fun hroot => by
        rw [(h.parentNodeId_eq_none hr₀).mpr hroot] at hpar
        cases hpar
      obtain ⟨k, hk, -, hkey⟩ := h.parent r₀ hr₀ hne
      obtain rfl : k = nextNodeId nodes := Option.some.inj (hk.symm.trans hpar)
      exact absurd hkey (not_hasKey_nextNodeId nodes)
    · exact hfits hnone q₀ hq₀ (Option.some.inj hpar).symm
    · obtain rfl : p = nextNodeId nodes := Option.some.inj hpar
      exact absurd hp (not_hasKey_nextNodeId nodes)

end tables

/-! ### Levels of a trace -/

/-- The levels are right, also those of the folded calls, and no call has the id of "no parent". -/
structure Leveling (s : Traced) : Prop where
  below : Below s.db.nodes
  depth : ∀ f ∈ s.log, ∀ r ∈ s.db.nodes.rows, r.nodeId = f.node → r.depth = f.call.depth
  logIds : ∀ f ∈ s.log, f.call.callId ≠ 0
  pendingIds : ∀ p ∈ s.db.pendingCalls.rows, p.callId ≠ 0

namespace Leveling

variable {s t : Traced} {c : Call} {n : ℕ}

lemma fold (h : Leveling s) (hwf : WellFormed s) (hn : s.db.nodes.HasKey n) (hid : c.callId ≠ 0)
    (hdepth : ∀ q ∈ s.db.nodes.rows, q.nodeId = n → c.depth.toNat = q.depth.toNat + 1) :
    Leveling (s.fold n c) where
  below := (below_foldNodes_iff hwf.tree h.below hn).mpr fun _ => hdepth
  depth := by
    intro f hf r hr hnode
    obtain ⟨r₀, hr₀, rfl⟩ := mem_foldNodes.mp hr
    rw [NodeRow.depth_touch]
    rw [NodeRow.nodeId_touch] at hnode
    rcases List.mem_append.mp hf with hf | hf
    · rcases mem_ensureNode.mp hr₀ with hr₀ | ⟨-, rfl⟩
      · exact h.depth f hf r₀ hr₀ hnode
      · exact absurd hnode.symm (hwf.tree.node_ne_next hf)
    · obtain rfl := List.mem_singleton.mp hf
      -- the row is the bucket of the call, below the row of the caller
      obtain ⟨r₁, hr₁, hid₁, hpar, -⟩ := exists_foldTarget s.db.nodes n c
      obtain rfl := (ensureNode s.db.nodes n c).eq_of_key hr₀ hr₁ (hnode.trans hid₁.symm)
      rcases mem_ensureNode.mp hr₀ with hr₀ | ⟨-, rfl⟩
      · obtain ⟨q, hq, hqid⟩ := hn
        apply UInt32.toNat_inj.mp
        exact (h.below r₀ hr₀ q hq (by rw [hpar, hqid])).trans (hdepth q hq hqid).symm
      · rfl
  logIds := Traced.forall_mem_log_fold h.logIds hid
  pendingIds := h.pendingIds

lemma push (h : Leveling s) (c : Call) : Leveling (s.push c) := { h with }

lemma park (h : Leveling s) (hid : c.callId ≠ 0) : Leveling (s.park c) where
  below := h.below
  depth := h.depth
  logIds := h.logIds
  pendingIds := by
    intro q hq
    rcases Table.mem_insertOrIgnore.mp hq with hq | ⟨rfl, -⟩
    · exact h.pendingIds q hq
    · exact hid

lemma unpark (h : Leveling s) (p : PendingCall) : Leveling (s.unpark p) where
  below := h.below
  depth := h.depth
  logIds := h.logIds
  pendingIds q hq := h.pendingIds q (Table.mem_erase.mp hq).1

/-! ### The number of levels -/

/-- The nodes on the way from the root down to a row are as many as its depth, and calls were folded
into each of them. -/
lemma exists_nodes (h : Leveling s) (hwf : WellFormed s) {r : NodeRow}
    (hr : r ∈ s.db.nodes.rows) : ∃ ids : List ℕ, ids.Nodup ∧ ids.length = r.depth.toNat ∧
      ∀ id ∈ ids, id ≤ r.nodeId ∧ id ∈ s.log.map Folded.node := by
  induction hk : r.nodeId using Nat.strong_induction_on generalizing r with
  | _ k ih =>
    by_cases hroot : r.nodeId = syntheticRootNodeId
    · obtain ⟨r₀, hr₀, hid₀, -, hdepth⟩ := hwf.tree.root
      rw [s.db.nodes.eq_of_key hr hr₀ (hroot.trans hid₀.symm), hdepth]
      exact ⟨[], by simp⟩
    · obtain ⟨_, hpar, hlt, q, hq, rfl⟩ := hwf.tree.parent r hr hroot
      obtain ⟨f, hf, hnode⟩ := hwf.tree.used r hr hroot
      obtain ⟨ids, hnodup, hlen, hids⟩ := ih q.nodeId (by omega) hq rfl
      refine ⟨r.nodeId :: ids, ?_, ?_, ?_⟩
      · refine List.nodup_cons.mpr ⟨fun hmem => ?_, hnodup⟩
        have := (hids _ hmem).1
        omega
      · rw [List.length_cons, hlen, h.below r hr q hq hpar]
      · intro id hid
        rcases List.mem_cons.mp hid with rfl | hid
        · exact ⟨hk.le, List.mem_map.mpr ⟨f, hf, hnode⟩⟩
        · exact ⟨by have := (hids id hid).1; omega, (hids id hid).2⟩

lemma depth_le (h : Leveling s) (hwf : WellFormed s) {r : NodeRow} (hr : r ∈ s.db.nodes.rows) :
    r.depth.toNat ≤ s.log.length := by
  obtain ⟨ids, hnodup, hlen, hids⟩ := h.exists_nodes hwf hr
  rw [← hlen, ← List.length_map Folded.node]
  exact (List.subperm_of_subset hnodup fun id hid => (hids id hid).2).length_le

end Leveling

/-- Distinct ids are at most as many as 32 bits can tell apart. -/
lemma length_le_of_nodup {ids : List UInt32} (h : ids.Nodup) : ids.length ≤ 2 ^ 32 := by
  have hnodup : (ids.map UInt32.toNat).Nodup :=
    h.map fun a b hab => UInt32.toNat_inj.mp hab
  have hsub : ids.map UInt32.toNat ⊆ List.range (2 ^ 32) := by
    intro k hk
    obtain ⟨id, -, rfl⟩ := List.mem_map.mp hk
    exact List.mem_range.mpr id.toNat_lt
  have hle := (List.subperm_of_subset hnodup hsub).length_le
  rwa [List.length_map, List.length_range] at hle

namespace Leveling

variable {s t : Traced} {c : Call} {n : ℕ}

/-- A pending call leaves room for one more level. -/
lemma depth_lt (h : Leveling s) (hwf : WellFormed s) {p : PendingCall}
    (hp : p ∈ s.db.pendingCalls.rows) {r : NodeRow} (hr : r ∈ s.db.nodes.rows) :
    r.depth.toNat + 1 < 2 ^ 32 := by
  have hnodup : (0 :: p.callId :: s.log.map fun f => f.call.callId).Nodup := by
    simp only [List.nodup_cons, List.mem_cons, List.mem_map, not_or, not_exists, not_and]
    refine ⟨⟨(h.pendingIds p hp).symm, h.logIds⟩, fun f hf hid => ?_, hwf.nodup_log⟩
    exact hwf.disjoint p hp (hwf.hasKey_iff.mpr ⟨f, hf, hid⟩)
  have hlen := length_le_of_nodup hnodup
  have hdepth := h.depth_le hwf hr
  simp only [List.length_cons, List.length_map] at hlen
  omega

/-- The depth that the drain computes is that of the level below. -/
lemma depth_of_depthBelow (h : Leveling s) {parent : UInt32} {d : UInt32}
    (hd : s.DepthBelow parent n d) {q : NodeRow} (hq : q ∈ s.db.nodes.rows) (hid : q.nodeId = n) :
    d = q.depth + 1 := by
  rcases hd with ⟨r, hr, hrid, rfl⟩ | ⟨f, hf, -, hnode, rfl⟩
  · rw [s.db.nodes.eq_of_key hr hq (hrid.trans hid.symm)]
  · rw [h.depth f hf q hq (hid.trans hnode.symm)]

/-- The drain keeps the levels right. -/
lemma resolve (h : Leveling s) (hwf : WellFormed s) {es : List Event} (hrun : Run Step s es t)
    (hes : ∀ e ∈ es, e.IsResolve) : Leveling t := by
  induction hrun with
  | nil => exact h
  | @cons s u t e es hstep _ ih =>
    simp only [List.mem_cons, forall_eq_or_imp] at hes
    refine ih ?_ (hstep.wellFormed hwf) hes.2
    cases hstep with
    | @resolve p d n hp hfn hpar hd =>
      refine (h.unpark p).fold (hwf.unpark p) (hwf.hasKey_parent hpar) (h.pendingIds p hp) ?_
      intro q hq hid
      have hlt := h.depth_lt hwf hp hq
      show d.toNat = _
      rw [h.depth_of_depthBelow hd hq hid, UInt32.toNat_add, UInt32.toNat_one,
        Nat.mod_eq_of_lt hlt]
    | skip _ | fold _ _ _ | park _ _ _ => exact hes.1.elim

end Leveling

/-! ### The loop -/

/-- A wrong level stays wrong. -/
lemma below_of_run {s t : Traced} {es : List Event} (hrun : Run Step s es t)
    (h : Below t.db.nodes) : Below s.db.nodes := by
  induction hrun with
  | nil => exact h
  | cons hstep _ ih =>
    have hbelow := ih h
    cases hstep with
    | skip _ | park _ _ _ => exact hbelow
    | fold _ _ _ | resolve _ _ _ _ => exact below_of_foldNodes hbelow

/-- The call with the depth of the node it is folded into, if that node is there already. -/
def Call.settle (nodes : Table NodeRow.nodeId) (n : ℕ) (c : Call) : Call :=
  { c with depth := (findNode nodes n c.fnId).elim c.depth NodeRow.depth }

section loop

variable {known : List UInt32} {s : Traced} {c : Call} {n : ℕ}

/-- The depth of a call only matters for a new node. -/
lemma fold_settle (db : TraceDb) (n : ℕ) (c : Call) :
    db.fold n (c.settle db.nodes n) = db.fold n c := by
  have hnodes : foldNodes db.nodes n (c.settle db.nodes n) = foldNodes db.nodes n c := by
    cases hf : findNode db.nodes n c.fnId with
    | none => rw [show c.settle db.nodes n = c by simp [Call.settle, hf]]
    | some r =>
      have hensure : ensureNode db.nodes n (c.settle db.nodes n) = ensureNode db.nodes n c := by
        simp only [ensureNode, Call.settle, hf]
      simp only [foldNodes, hensure]
      rfl
  simp only [TraceDb.fold, hnodes]
  rfl

lemma aggregateCall_of_resolveParent {db : TraceDb} (hnew : ¬ CallIdAlreadyKnown db c.callId)
    (hfn : c.fnId ∈ known) (hpar : resolveParent db c.parent = some n) (hn : db.nodes.HasKey n)
    (hdict : db.dict.HasKey c.fnId) (o : AggregateOutcome) :
    aggregateCall known c db o = .ok (db.fold n c, o.record (.fold c n)) := by
  simp only [aggregateCall, if_neg hnew, hfn, not_true_eq_false, if_false, hpar,
    foldCallIntoNodes_eq hn hdict]
  rfl

lemma Leveling.resolveParent_eq (h : Leveling s) (hwf : WellFormed s) {parent : UInt32}
    (hpar : ParentAt s.db parent n) : resolveParent s.db parent = some n := by
  rw [resolveParent]
  rcases hpar with ⟨rfl, rfl⟩ | hrow
  · rfl
  · have hne : parent ≠ 0 := by
      rintro rfl
      obtain ⟨f, hf, hid⟩ := hwf.hasKey_iff.mp ⟨_, hrow, rfl⟩
      exact h.logIds f hf hid
    have hfind : s.db.callToNode.find? parent = some _ := Table.find?_of_mem hrow
    rw [if_neg hne, hfind]
    rfl

/-- The settled call is one level below the node of its caller. -/
lemma Leveling.depth_settle (h : Leveling s) (hfits : FitsNode s.db.nodes n c) {q : NodeRow}
    (hq : q ∈ s.db.nodes.rows) (hid : q.nodeId = n) :
    (c.settle s.db.nodes n).depth.toNat = q.depth.toNat + 1 := by
  cases hf : findNode s.db.nodes n c.fnId with
  | some r =>
    obtain ⟨hr, hpar, -⟩ := findNode_eq_some hf
    simpa [Call.settle, hf] using h.below r hr q hq (by rw [hpar, hid])
  | none => simpa [Call.settle, hf] using hfits hf q hq hid

variable (hwf : WellFormed s) (hknown : ∀ fn, fn ∈ known ↔ s.db.dict.HasKey fn)
include hwf hknown

/-- A call that fits keeps the levels right. -/
lemma leveling_aggregateCall (h : Leveling s) (hid : c.callId ≠ 0) (hfits : FitsCall known s.db c)
    (o : AggregateOutcome) :
    ∃ e t o', aggregateCall known c s.db o = .ok (t.db, o') ∧ Step s e t ∧ Leveling t := by
  obtain ⟨e, t, heq, hstep, hc⟩ := aggregateCall_spec hwf hknown c o
  cases hstep with
  | skip hk => exact ⟨_, _, _, heq, .skip hk, h⟩
  | @park c' b hnew hfn hpar =>
    obtain rfl : c' = c := hc
    exact ⟨_, _, _, heq, .park hnew hfn hpar, (h.push c').park hid⟩
  | resolve _ _ _ _ => exact hc.elim
  | @fold c' n hnew hfn hpar =>
    obtain rfl : c' = c := hc
    have hfn' := (hknown _).mpr hfn
    have hnode := hfits hnew hfn' n (h.resolveParent_eq hwf hpar)
    refine ⟨.fold (c'.settle s.db.nodes n) n, (s.push _).fold n _, o.record (.fold c' n), ?_,
      .fold hnew hfn hpar, ?_⟩
    · rw [heq]
      show Except.ok (s.db.fold n c', _) = .ok (s.db.fold n (c'.settle s.db.nodes n), _)
      rw [fold_settle]
    · exact (h.push _).fold (hwf.push hnew) (hwf.hasKey_parent hpar) hid
        fun q hq hqid => h.depth_settle hnode hq hqid

/-- A call that leaves the levels right fits. -/
lemma fitsCall_of_below (hbelow : Below s.db.nodes) {o o' : AggregateOutcome} {db : TraceDb}
    (heq : aggregateCall known c s.db o = .ok (db, o')) (h : Below db.nodes) :
    FitsCall known s.db c := by
  intro hnew hfn n hpar
  have hn := hwf.hasKey_parent (resolveParent_eq_some hpar)
  rw [aggregateCall_of_resolveParent hnew hfn hpar hn ((hknown _).mp hfn)] at heq
  obtain rfl : s.db.fold n c = db := congrArg Prod.fst (Except.ok.inj heq)
  exact (below_foldNodes_iff hwf.tree hbelow hn).mp h

end loop

section batch

variable {known : List UInt32} {s : Traced}

/-- Calls that fit keep the levels right. -/
lemma leveling_aggregateLoop {calls : List Call} (hwf : WellFormed s)
    (hknown : ∀ fn, fn ∈ known ↔ s.db.dict.HasKey fn) (h : Leveling s)
    (hids : ∀ c ∈ calls, c.callId ≠ 0) {o : AggregateOutcome}
    (hfits : FitsLoop known calls s.db o) :
    ∃ es t o', aggregateLoop known calls s.db o = .ok (t.db, o') ∧ Run Step s es t ∧
      Leveling t := by
  induction calls generalizing s o with
  | nil => exact ⟨[], s, o, rfl, .nil s, h⟩
  | cons c calls ih =>
    simp only [List.mem_cons, forall_eq_or_imp] at hids
    obtain ⟨hc, hrest⟩ := hfits
    obtain ⟨e, t, o', heq, hstep, hlev⟩ := leveling_aggregateCall hwf hknown h hids.1 hc o
    obtain ⟨es, u, o'', heq', hrun, hlev'⟩ := ih (hstep.wellFormed hwf)
      (fun fn => by rw [hknown, hstep.dict]) hlev hids.2 (hrest _ _ heq)
    refine ⟨e :: es, u, o'', ?_, .cons hstep hrun, hlev'⟩
    rw [aggregateLoop, heq]
    exact heq'

/-- Calls after which the levels are right fit. -/
lemma fitsLoop_of_below {calls : List Call} (hwf : WellFormed s)
    (hknown : ∀ fn, fn ∈ known ↔ s.db.dict.HasKey fn) {o o' : AggregateOutcome} {db : TraceDb}
    (heq : aggregateLoop known calls s.db o = .ok (db, o')) (h : Below db.nodes) :
    FitsLoop known calls s.db o ∧ Below s.db.nodes := by
  induction calls generalizing s o with
  | nil =>
    obtain rfl : s.db = db := congrArg Prod.fst (Except.ok.inj heq)
    exact ⟨trivial, h⟩
  | cons c calls ih =>
    obtain ⟨e, t, heq₁, hstep, -⟩ := aggregateCall_spec hwf hknown c o
    rw [aggregateLoop, heq₁] at heq
    obtain ⟨hrest, hbelow⟩ := ih (hstep.wellFormed hwf) (fun fn => by rw [hknown, hstep.dict]) heq
    have hs := below_of_run (.single hstep) hbelow
    refine ⟨⟨fitsCall_of_below hwf hknown hs heq₁ hbelow, fun db' o' heq' => ?_⟩, hs⟩
    obtain ⟨rfl, rfl⟩ := Prod.mk.inj (Except.ok.inj (heq₁.symm.trans heq'))
    exact hrest

/-! ### The batch -/

/-- Aggregating a batch keeps the levels right exactly when its calls fit. -/
lemma leveling_aggregateCalls [Engine] {batch : Batch} (hwf : WellFormed s) (h : Leveling s)
    (hids : ∀ c ∈ batch.calls, c.callId ≠ 0) {db : TraceDb} {o : AggregateOutcome}
    (heq : aggregateCalls s.db batch = .ok (db, o))
    (hfits : FitsLoop (knownFnIds s.db) batch.calls.reverse s.db {}) :
    ∃ es t, db = t.db ∧ Run Step s es t ∧ Leveling t := by
  obtain ⟨es, t, o₁, heq₁, hrun, hlev⟩ := leveling_aggregateLoop hwf (fun _ => mem_knownFnIds) h
    (fun c hc => hids c (List.mem_reverse.mp hc)) hfits
  have hwf₁ := wellFormed_of_run hrun hwf
  rw [aggregateCalls] at heq
  simp only [bind, Except.bind, heq₁] at heq
  split_ifs at heq with hgate
  · obtain ⟨es₂, items, u, heq₂, hres, -⟩ := drainPending_spec (knownFnIds s.db) o₁ hwf₁
      (fun fn => by rw [mem_knownFnIds, ← (grows_of_run hrun).dict])
    simp only [heq₂, pure, Except.pure, Except.ok.injEq, Prod.mk.injEq] at heq
    exact ⟨es ++ es₂, u, heq.1.symm, hrun.append hres.run,
      hlev.resolve hwf₁ hres.run hres.isResolve⟩
  · simp only [pure, Except.pure, Except.ok.injEq, Prod.mk.injEq] at heq
    exact ⟨es, t, heq.1.symm, hrun, hlev⟩

lemma fitsLoop_of_aggregateCalls [Engine] {batch : Batch} (hwf : WellFormed s) {db : TraceDb}
    {o : AggregateOutcome} (heq : aggregateCalls s.db batch = .ok (db, o))
    (h : Below db.nodes) : FitsLoop (knownFnIds s.db) batch.calls.reverse s.db {} := by
  obtain ⟨es, t, heq₁, hrun, -⟩ := aggregateLoop_spec (knownFnIds s.db) batch.calls {} hwf
    (fun _ => mem_knownFnIds)
  have hwf₁ := wellFormed_of_run hrun hwf
  have hbelow : Below t.db.nodes := by
    rw [aggregateCalls] at heq
    simp only [bind, Except.bind, heq₁] at heq
    split_ifs at heq with hgate
    · obtain ⟨es₂, items, u, heq₂, hres, -⟩ := drainPending_spec (knownFnIds s.db)
        (es.foldl AggregateOutcome.record {}) hwf₁
        (fun fn => by rw [mem_knownFnIds, ← (grows_of_run hrun).dict])
      simp only [heq₂, pure, Except.pure, Except.ok.injEq, Prod.mk.injEq] at heq
      rw [← heq.1] at h
      exact below_of_run hres.run h
    · simp only [pure, Except.pure, Except.ok.injEq, Prod.mk.injEq] at heq
      rwa [← heq.1] at h
  exact (fitsLoop_of_below hwf (fun _ => mem_knownFnIds) heq₁ hbelow).1

end batch

section recordTrace

variable {key : TraceKey} {db : TraceDb} {log : List Folded} {versions : List Call}
  {batch : Batch}

lemma Leveling.prepareTrace (h : Leveling ⟨db, log, versions⟩)
    (hinv : TraceInv ⟨db, log, versions⟩) :
    Leveling ⟨PhpTreeViz.prepareTrace key db batch, log, versions⟩ := by
  rcases hinv with ⟨hdb, hlog⟩ | ⟨hwf, -⟩
  · obtain rfl : db = .fresh := hdb
    obtain rfl : log = [] := hlog
    have hrows : (PhpTreeViz.prepareTrace key .fresh batch).nodes.rows = [.syntheticRoot] := rfl
    refine ⟨fun r hr p _ hpar => ?_, by simp, by simp, by simp [TraceDb.fresh]⟩
    rw [hrows, List.mem_singleton] at hr
    subst hr
    cases hpar
  · rw [hwf.prepareTrace_eq key batch]
    exact ⟨h.below, h.depth, h.logIds, h.pendingIds⟩

variable [Engine] (hinv : TraceInv ⟨db, log, versions⟩) {db' : TraceDb} {o : AggregateOutcome}
  (heq : recordTrace key db batch = .ok (db', o))
include hinv heq

/-- A batch that fits keeps the levels right. -/
lemma leveling_recordTrace (h : Leveling ⟨db, log, versions⟩)
    (hids : ∀ c ∈ batch.calls, c.callId ≠ 0) (hfits : FitsBatch key db batch) :
    ∃ log' versions', TraceInv ⟨db', log', versions'⟩ ∧ Leveling ⟨db', log', versions'⟩ := by
  have hwf := hinv.wellFormed_prepareTrace key batch
  obtain ⟨es, t, rfl, hrun, hlev⟩ :=
    leveling_aggregateCalls hwf (h.prepareTrace hinv) hids heq hfits
  obtain ⟨_, _, u, heq', htr⟩ := recordTrace_spec hinv key batch
  have hdb : u.db = t.db := congrArg Prod.fst (Except.ok.inj (heq'.symm.trans heq))
  exact ⟨t.log, t.versions, Or.inr ⟨wellFormed_of_run hrun hwf, hdb ▸ htr.saturated⟩, hlev⟩

/-- A batch after which the levels are right fits. -/
lemma fitsBatch_of_leveled (h : Leveled db') : FitsBatch key db batch := by
  obtain ⟨_, _, u, heq', htr⟩ := recordTrace_spec hinv key batch
  have hdb : u.db = db' := congrArg Prod.fst (Except.ok.inj (heq'.symm.trans heq))
  rw [← hdb, htr.wellFormed.tree.leveled_iff, hdb] at h
  exact fitsLoop_of_aggregateCalls (hinv.wellFormed_prepareTrace key batch) heq h

end recordTrace

/-! ### Runs -/

/-- If the attempt commits a batch to the trace `key`, the batch fits. -/
def Attempt.Fits (key : TraceKey) (s : Storage) (a : Attempt) : Prop :=
  ∀ batch now fault, a.op = .record key batch now fault → fault.CommitsTrace →
    FitsBatch key (s.ensureTraceConn key) batch

/-- An attempt whose batch fits. -/
def FittingStep [Engine] (key : TraceKey) (s : Storage) (a : Attempt) (t : Storage) : Prop :=
  Attempt.Step s a t ∧ a.Fits key s

/-- The levels of the trace `key` are right. -/
def LevelInv (key : TraceKey) (s : Storage) : Prop :=
  ∃ log versions, TraceInv ⟨s.ensureTraceConn key, log, versions⟩ ∧
    Leveling ⟨s.ensureTraceConn key, log, versions⟩

section runs

variable {key : TraceKey} {s t : Storage} {a : Attempt} {as : List Attempt} {db : TraceDb}

lemma leveling_fresh (versions : List Call) : Leveling ⟨.fresh, [], versions⟩ :=
  ⟨by simp [Below, TraceDb.fresh], by simp, by simp, by simp [TraceDb.fresh]⟩

lemma LevelInv.leveled (h : LevelInv key s) : Leveled (s.ensureTraceConn key) := by
  obtain ⟨log, versions, hinv, hlev⟩ := h
  rcases hinv with ⟨hdb, -⟩ | ⟨hwf, -⟩
  · intro r hr
    obtain hdb : s.ensureTraceConn key = .fresh := hdb
    simp [hdb, TraceDb.fresh] at hr
  · exact hwf.tree.leveled_iff.mpr hlev.below

lemma LevelInv.of_none (h : t.traces key = none) : LevelInv key t := by
  rw [LevelInv, ensureTraceConn_of_none h]
  exact ⟨[], [], TraceInv.fresh [], leveling_fresh []⟩

lemma LevelInv.congr (h : LevelInv key s)
    (hconn : t.ensureTraceConn key = s.ensureTraceConn key) : LevelInv key t := by
  rwa [LevelInv, hconn]

/-- Where the levels are right, the depth of a node is the length of its path. -/
lemma depth_eq_length_path {log : List Folded} {versions : List Call}
    (hinv : TraceInv ⟨db, log, versions⟩) (h : Leveled db) {r : NodeRow}
    (hr : r ∈ db.nodes.rows) : r.depth.toNat = (db.path r.nodeId).length := by
  rcases hinv with ⟨hdb, -⟩ | ⟨hwf, -⟩
  · obtain rfl : db = .fresh := hdb
    simp [TraceDb.fresh] at hr
  induction hk : r.nodeId using Nat.strong_induction_on generalizing r with
  | _ k ih =>
    by_cases hroot : r.nodeId = syntheticRootNodeId
    · obtain ⟨r₀, hr₀, hid₀, -, hdepth⟩ := hwf.tree.root
      rw [← hk, hroot, hwf.path_root,
        show r = r₀ from db.nodes.eq_of_key hr hr₀ (hroot.trans hid₀.symm), hdepth]
      rfl
    · obtain ⟨p, hp, hpar, hdepth⟩ := h r hr hroot
      have hup : db.up r.nodeId = some (p.nodeId, r.fnId) := by
        rw [up_of_mem hr, hpar, Option.map_some]
      have hlt : p.nodeId < k := hk ▸ hwf.descending _ _ _ hup
      rw [hdepth, ih p.nodeId hlt hp rfl, ← hk, TraceDb.path, TraceDb.path,
        pathOf_of_some hwf.descending hup, List.length_append, List.length_singleton]

variable [Engine]

lemma traces_recordBatch {batch : Batch} {now : Int64} {fault : CommitFault}
    {o : AggregateOutcome} (heq : recordTrace key (s.ensureTraceConn key) batch = .ok (db, o))
    (hf : fault.CommitsTrace) : (recordBatch s key batch now fault).1.traces key = some db := by
  rw [recordBatch_eq heq]
  cases fault with
  | «open» | trace => exact hf.elim
  | index => exact traces_setTrace _
  | none | raw keeps =>
    split_ifs <;> exact traces_setTrace _

/-- The levels stay right exactly if the batch of the attempt fits. -/
lemma levelInv_step (hstep : Attempt.Step s a t)
    (hids : ∀ b ∈ a.batch key, ∀ c ∈ b.calls, c.callId ≠ 0) (h : LevelInv key s) :
    (a.Fits key s → LevelInv key t) ∧ (Leveled (t.ensureTraceConn key) → a.Fits key s) := by
  have hother : (∀ batch now fault, a.op = .record key batch now fault →
      ¬ fault.CommitsTrace) → LevelInv key t →
      (a.Fits key s → LevelInv key t) ∧ (Leveled (t.ensureTraceConn key) → a.Fits key s) :=
    fun hno ht => ⟨fun _ => ht, fun _ batch now fault hop hf =>
      absurd hf (hno batch now fault hop)⟩
  obtain ⟨log, versions, hinv, hlev⟩ := h
  cases hstep.effect hinv with
  | other hk hsame =>
    refine hother (fun _ _ _ hop => absurd (congrArg Op.key hop) hk) ?_
    exact LevelInv.congr ⟨log, versions, hinv, hlev⟩ hsame.ensureTraceConn
  | commit htraces _ =>
    refine hother (fun _ _ _ hop => by cases hop) ?_
    exact LevelInv.congr ⟨log, versions, hinv, hlev⟩
      (by rw [Storage.ensureTraceConn, htraces, Storage.ensureTraceConn])
  | recordLost hf hconn _ =>
    refine hother (fun _ _ _ hop => ?_) (LevelInv.congr ⟨log, versions, hinv, hlev⟩ hconn)
    cases hop
    exact hf
  | @recordTrace batch now fault _ _ _ _ hf _ _ _ | @record batch now fault _ _ _ _ hf _ _ _ _ =>
    have hbatch : batch ∈ Attempt.batch key ⟨.record key batch now fault, true⟩ := by
      simp [Attempt.batch]
    obtain ⟨_, _, u, heq, -⟩ := recordTrace_spec hinv key batch
    have htraces : t.traces key = some u.db := by
      rw [← show (recordBatch s key batch now fault).1 = t from congrArg Prod.fst hstep]
      exact traces_recordBatch heq hf
    rw [LevelInv, ensureTraceConn_of_traces htraces]
    refine ⟨fun hfits => ?_, fun hlev' batch' now' fault' hop _ => ?_⟩
    · exact leveling_recordTrace hinv heq hlev (hids batch hbatch) (hfits batch now fault rfl hf)
    · cases hop
      exact fitsBatch_of_leveled hinv heq hlev'
  | finalizeLost hconn _ =>
    refine hother (fun _ _ _ hop => by cases hop) ?_
    exact LevelInv.congr ⟨log, versions, hinv, hlev⟩ hconn
  | @finalizeTrace _ _ _ _ db _ hfin htraces _ | @finalize _ _ _ _ _ db _ hfin htraces _ =>
    refine hother (fun _ _ _ hop => by cases hop) ?_
    rw [LevelInv, ensureTraceConn_of_traces htraces]
    refine ⟨log, versions, hfin.inv hinv, ?_, ?_, hlev.logIds, ?_⟩
    · rw [hfin.nodes]
      exact hlev.below
    · rw [hfin.nodes]
      exact hlev.depth
    · simp [hfin.pendingCalls]
  | deleteLost =>
    exact hother (fun _ _ _ hop => by cases hop) ⟨log, versions, hinv, hlev⟩
  | deleteFiles htraces _ | delete htraces _ =>
    exact hother (fun _ _ _ hop => by cases hop) (LevelInv.of_none htraces)

/-- Whatever is recorded, finalized and deleted, and in whatever order, the levels of a trace are
right in every state exactly when each batch fits. The depth of a node is then the length of its
path. -/
theorem leveled_iff_of_run (hrun : Run Attempt.Step .empty as s)
    (hids : ∀ b ∈ deliveries key as, ∀ c ∈ b.calls, c.callId ≠ 0) :
    ((∀ as' u, as' <+: as → Run Attempt.Step .empty as' u → Leveled (u.ensureTraceConn key)) ↔
      Run (FittingStep key) .empty as s) ∧
    (Leveled (s.ensureTraceConn key) → ∀ r ∈ (s.ensureTraceConn key).nodes.rows,
      r.depth.toNat = ((s.ensureTraceConn key).path r.nodeId).length) := by
  constructor
  · refine hrun.all_reached_iff (P := fun s => Leveled (s.ensureTraceConn key))
      (I := fun s => Leveled (s.ensureTraceConn key) → LevelInv key s)
      (Q := fun a : Attempt => ∀ b ∈ a.batch key, ∀ c ∈ b.calls, c.callId ≠ 0)
      (G := fun s a => a.Fits key s)
      (fun s a t t' h h' => congrArg Prod.fst (h.symm.trans h')) ?_ ?_
      (fun _ => LevelInv.of_none rfl) (LevelInv.of_none rfl).leveled
    · intro s a t ha hI hP hstep
      obtain ⟨hof, hto⟩ := levelInv_step hstep ha (hI hP)
      exact ⟨fun ht => hof (hto ht), hto, fun hfits => (hof hfits).leveled⟩
    · exact fun a ha b hb => hids b (List.mem_flatMap.mpr ⟨a, ha, hb⟩)
  · intro h r hr
    obtain ⟨log, versions, hinv⟩ := traceInv_of_run hrun key
    exact depth_eq_length_path hinv h hr

end runs

/-- A call whose caller comes later is drained one level below it, whatever its wire depth was. -/
theorem leveled_iff_of_run_drained :
    letI := Engine.stored
    ∃ as s, Run Attempt.Step .empty as s ∧ Run (FittingStep default) .empty as s ∧
      ((s.ensureTraceConn default).nodes.rows.map NodeRow.depth = [0, 1, 2]) ∧
      Leveled (s.ensureTraceConn default) := by
  let _ := Engine.stored
  let m : Meta := { (default : Meta) with sapi := "cli" }
  let child : Op := .record default
    ⟨m, [], [{ (default : Call) with callId := 2, parent := 1, depth := 9 }]⟩ 0 .none
  let caller : Op := .record default
    ⟨m, [], [{ (default : Call) with callId := 1, depth := 1 }]⟩ 0 .none
  let s₁ : Storage := (child.exec .empty).1
  let s : Storage := (caller.exec s₁).1
  have hrun : Run Attempt.Step .empty [⟨child, true⟩, ⟨caller, true⟩] s :=
    .cons (t := s₁) rfl (.single (Attempt.step_exec (by decide +kernel)))
  have hfits : Run (FittingStep default) .empty [⟨child, true⟩, ⟨caller, true⟩] s := by
    refine .cons (t := s₁) ⟨rfl, ?_⟩ (.single ⟨Attempt.step_exec (by decide +kernel), ?_⟩)
    · rintro batch now fault ⟨⟩ -
      refine ⟨fun _ _ n hn => ?_, fun _ _ _ => trivial⟩
      cases hn
    · rintro batch now fault ⟨⟩ -
      refine ⟨fun _ _ n hn _ q hq _ => ?_, fun _ _ _ => trivial⟩
      obtain rfl : q = .syntheticRoot := List.mem_singleton.mp hq
      rfl
  have hids : ∀ b ∈ deliveries default [⟨child, true⟩, ⟨caller, true⟩], ∀ c ∈ b.calls,
      c.callId ≠ 0 := by decide
  exact ⟨_, s, hrun, hfits, by decide +kernel,
    (leveled_iff_of_run hrun hids).1.mpr hfits _ s (List.prefix_refl _) hrun⟩

/-- A top-level call with the wire depth of the script body is on the level of the root. -/
theorem not_leveled :
    letI := Engine.stored
    ¬ ∀ key as s, Run Attempt.Step .empty as s → Leveled (s.ensureTraceConn key) := by
  let _ := Engine.stored
  intro h
  let record : Op := .record default
    { metaBlock := { (default : Meta) with schemaVersion := 1, sapi := "cli" }
      dict := [{ (default : DictEntry) with fnId := 7 }]
      calls := [{ (default : Call) with callId := 1, fnId := 7, depth := 0 }] } 0 .none
  have hrun : Run Attempt.Step .empty [⟨record, true⟩] (record.exec .empty).1 := .single rfl
  have hlev := h default _ _ hrun
  obtain ⟨p, hp, -, hdepth⟩ := hlev _ (List.mem_cons_of_mem _ List.mem_cons_self) (by decide)
  cases hdepth

end PhpTreeViz
