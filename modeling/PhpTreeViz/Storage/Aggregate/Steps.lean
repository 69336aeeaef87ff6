import PhpTreeViz.Core.Run
import PhpTreeViz.Storage.Aggregate.Columns

/-!
# Aggregation as a transition system

Whatever path a call takes through a batch, it takes it in one of four steps: it is skipped as a
redelivery, folded, parked, or resolved from `pending_calls`. `Step` is one such step on a database
together with its history, and `WellFormed` is the invariant that ties the tables to that history.
-/

namespace PhpTreeViz

open Core

/-- What the aggregation does with one call. -/
inductive Event where
  | skip (c : Call)
  | fold (c : Call) (parentNode : ℕ)
  | park (c : Call) (fnKnown : Bool)
  | resolve (p : PendingCall) (depth : UInt32) (parentNode : ℕ)
  deriving DecidableEq

/-! ### Counters -/

namespace AggregateOutcome

def countNew (o : AggregateOutcome) (c : Call) : AggregateOutcome :=
  { o with
    callCountDelta := o.callCountDelta + 1
    totalWallNsDelta := o.totalWallNsDelta + c.wall }

def countInverted (o : AggregateOutcome) (c : Call) : AggregateOutcome :=
  if c.Inverted then
    { o with dq3Inverted := o.dq3Inverted + 1, anomaliesAdded := o.anomaliesAdded + 1 }
  else o

section countInverted

variable (o : AggregateOutcome) (c : Call)

@[simp] lemma nodesTouched_countInverted : (o.countInverted c).nodesTouched = o.nodesTouched := by
  rw [countInverted]
  split_ifs <;> rfl

@[simp] lemma callCountDelta_countInverted :
    (o.countInverted c).callCountDelta = o.callCountDelta := by
  rw [countInverted]
  split_ifs <;> rfl

@[simp] lemma totalWallNsDelta_countInverted :
    (o.countInverted c).totalWallNsDelta = o.totalWallNsDelta := by
  rw [countInverted]
  split_ifs <;> rfl

lemma anomaliesAdded_countInverted :
    (o.countInverted c).anomaliesAdded = o.anomaliesAdded + if c.Inverted then 1 else 0 := by
  rw [countInverted]
  split_ifs <;> rfl

end countInverted

/-- The counters after one more event. -/
def record (o : AggregateOutcome) : Event → AggregateOutcome
  | .skip _ => { o with redeliveredSkipped := o.redeliveredSkipped + 1 }
  | .fold c _ =>
    let o := (o.countNew c).countInverted c
    { o with nodesTouched := o.nodesTouched + 1 }
  | .park c fnKnown =>
    let o := o.countNew c
    { o with
      pendingAdded := o.pendingAdded + 1
      dictPendingAdded := o.dictPendingAdded + if fnKnown then 0 else 1 }
  | .resolve p depth _ =>
    let o := o.countInverted (p.toCall depth)
    { o with
      pendingResolved := o.pendingResolved + 1, nodesTouched := o.nodesTouched + 1 }

end AggregateOutcome

/-! ### One fold -/

/-- The node that stands for a parent: the root for a call without one, else the parent's node. -/
def ParentAt (db : TraceDb) (parentCallId : UInt32) (n : ℕ) : Prop :=
  (parentCallId = 0 ∧ n = syntheticRootNodeId) ∨ ⟨parentCallId, n⟩ ∈ db.callToNode.rows

def TraceDb.fold (db : TraceDb) (p : ℕ) (c : Call) : TraceDb :=
  { db with
    nodes := foldNodes db.nodes p c
    callToNode := db.callToNode.insertOrIgnore (foldOf db.nodes p c).row
    anomalies := db.anomalies ++
      if c.Inverted then [.invertedTime (foldTarget db.nodes p c.fnId) c] else [] }

lemma foldCallIntoNodes_eq {db : TraceDb} {p : ℕ} {c : Call} (hp : db.nodes.HasKey p)
    (hfn : db.dict.HasKey c.fnId) (o : AggregateOutcome) :
    foldCallIntoNodes db p c o =
      .ok (foldTarget db.nodes p c.fnId, db.fold p c, o.countInverted c) := by
  rw [foldCallIntoNodes, upsertNode_eq hp hfn]
  by_cases h : c.Inverted
  · simp [bind, Except.bind, pure, Except.pure, h, AggregateOutcome.countInverted, TraceDb.fold,
      foldNodes, Folded.row, foldOf]
  · simp [bind, Except.bind, pure, Except.pure, h, AggregateOutcome.countInverted, TraceDb.fold,
      foldNodes, Folded.row, foldOf]

/-! ### Steps -/

/-- A database with its history: the folds made so far, and the calls recorded so far, the latest
first. -/
structure Traced where
  db : TraceDb
  log : List Folded
  versions : List Call

namespace Traced

/-- The version of a call that was recorded last. -/
def version (s : Traced) (callId : UInt32) : Option Call :=
  s.versions.find? (·.callId = callId)

def push (s : Traced) (c : Call) : Traced := { s with versions := c :: s.versions }

def fold (s : Traced) (p : ℕ) (c : Call) : Traced :=
  { s with db := s.db.fold p c, log := s.log ++ [foldOf s.db.nodes p c] }

def park (s : Traced) (c : Call) : Traced := { s with db := insertPendingCall s.db c }

def unpark (s : Traced) (p : PendingCall) : Traced :=
  { s with db := { s.db with pendingCalls := s.db.pendingCalls.erase p.callId } }

/-- The depth of a call folded under `n` for the parent `parentCallId`. -/
def DepthBelow (s : Traced) (parentCallId : UInt32) (n : ℕ) (depth : UInt32) : Prop :=
  (∃ r ∈ s.db.nodes.rows, r.nodeId = n ∧ depth = r.depth + 1) ∨
    ∃ f ∈ s.log, f.call.callId = parentCallId ∧ f.node = n ∧ depth = f.call.depth + 1

/-- What holds of the folds so far and of the new one. -/
lemma forall_mem_log_fold {s : Traced} {P : Folded → Prop} {p : ℕ} {c : Call}
    (hold : ∀ f ∈ s.log, P f) (hlast : P (foldOf s.db.nodes p c)) :
    ∀ f ∈ (s.fold p c).log, P f := by
  intro f hf
  rcases List.mem_append.mp hf with hf | hf
  · exact hold f hf
  · rw [List.mem_singleton.mp hf]
    exact hlast

end Traced

/-- One step of the aggregation. -/
inductive Step : Traced → Event → Traced → Prop where
  | skip {s : Traced} {c : Call} :
      CallIdAlreadyKnown s.db c.callId → Step s (.skip c) s
  | fold {s : Traced} {c : Call} {n : ℕ} :
      ¬ CallIdAlreadyKnown s.db c.callId → s.db.dict.HasKey c.fnId → ParentAt s.db c.parent n →
      Step s (.fold c n) ((s.push c).fold n c)
  | park {s : Traced} {c : Call} {fnKnown : Bool} :
      ¬ CallIdAlreadyKnown s.db c.callId → (fnKnown ↔ s.db.dict.HasKey c.fnId) →
      (fnKnown → c.parent ≠ 0 ∧ ¬ s.db.callToNode.HasKey c.parent) →
      Step s (.park c fnKnown) ((s.push c).park c)
  | resolve {s : Traced} {p : PendingCall} {depth : UInt32} {n : ℕ} :
      p ∈ s.db.pendingCalls.rows → s.db.dict.HasKey p.fnId → ParentAt s.db p.parentCallId n →
      s.DepthBelow p.parentCallId n depth →
      Step s (.resolve p depth n) ((s.unpark p).fold n (p.toCall depth))

/-! ### The invariant -/

/-- The tables of a seeded database agree with its history. -/
structure WellFormed (s : Traced) : Prop where
  tree : TreeInv s.db.nodes s.log
  sums : ∀ col : Column, col.Inv s.db.nodes s.log
  mapped : s.db.callToNode.rows = s.log.map Folded.row
  parentAt : ∀ f ∈ s.log, ParentAt s.db f.call.parent f.parentNode
  hasFn : ∀ f ∈ s.log, s.db.dict.HasKey f.call.fnId
  rootFn : s.db.dict.HasKey 0
  disjoint : ∀ p ∈ s.db.pendingCalls.rows, ¬ s.db.callToNode.HasKey p.callId
  logVersion : ∀ f ∈ s.log,
    (s.version f.call.callId).map PendingCall.ofCall = some (.ofCall f.call)
  pendingVersion : ∀ p ∈ s.db.pendingCalls.rows,
    (s.version p.callId).map PendingCall.ofCall = some p
  inverted : s.db.anomalies.filter (·.kind = .invertedTime) =
    (s.log.filter (·.call.Inverted)).map fun f => .invertedTime f.node f.call

namespace WellFormed

variable {s : Traced}

lemma hasKey_iff (h : WellFormed s) {id : UInt32} :
    s.db.callToNode.HasKey id ↔ ∃ f ∈ s.log, f.call.callId = id := by
  simp [Table.HasKey, h.mapped, Folded.row]

/-- The calls of the log are distinct. -/
lemma nodup_log (h : WellFormed s) : (s.log.map fun f => f.call.callId).Nodup := by
  have := s.db.callToNode.nodup
  rw [h.mapped, List.map_map] at this
  exact this

/-- The node of a parent is the root or the node of a folded call. -/
lemma parentAt_iff (h : WellFormed s) {parent : UInt32} {n : ℕ} : ParentAt s.db parent n ↔
    (parent = 0 ∧ n = syntheticRootNodeId) ∨
      ∃ g ∈ s.log, g.call.callId = parent ∧ g.node = n := by
  simp [ParentAt, h.mapped, Folded.row]

lemma hasKey_parent (h : WellFormed s) {parent : UInt32} {n : ℕ} (hp : ParentAt s.db parent n) :
    s.db.nodes.HasKey n := by
  rcases h.parentAt_iff.mp hp with ⟨-, rfl⟩ | ⟨g, hg, -, rfl⟩
  · exact h.tree.hasKey_root
  · exact h.tree.hasKey_node hg

lemma version_push_of_ne {c : Call} {id : UInt32} (hne : id ≠ c.callId) :
    (s.push c).version id = s.version id := by
  simp [Traced.version, Traced.push, hne.symm]

@[simp] lemma version_push_self (c : Call) : (s.push c).version c.callId = some c := by
  simp [Traced.version, Traced.push]

/-- Recording a new version of a call that is in no table changes nothing else. -/
lemma push (h : WellFormed s) {c : Call} (hnew : ¬ CallIdAlreadyKnown s.db c.callId) :
    WellFormed (s.push c) := by
  have hmap : ∀ f ∈ s.log, f.call.callId ≠ c.callId := fun f hf he =>
    hnew (Or.inl (h.hasKey_iff.mpr ⟨f, hf, he⟩))
  have hpend : ∀ p ∈ s.db.pendingCalls.rows, p.callId ≠ c.callId := fun p hp he =>
    hnew (Or.inr ⟨p, hp, he⟩)
  exact
    { h with
      logVersion := fun f hf => by rw [version_push_of_ne (hmap f hf)]; exact h.logVersion f hf
      pendingVersion := fun p hp => by
        rw [version_push_of_ne (hpend p hp)]; exact h.pendingVersion p hp }

lemma unpark (h : WellFormed s) (p : PendingCall) : WellFormed (s.unpark p) :=
  { h with
    disjoint := fun q hq => h.disjoint q (Table.mem_erase.mp hq).1
    pendingVersion := fun q hq => h.pendingVersion q (Table.mem_erase.mp hq).1 }

lemma park (h : WellFormed s) {c : Call} (hnew : ¬ s.db.callToNode.HasKey c.callId)
    (hv : s.version c.callId = some c) : WellFormed (s.park c) := by
  have hmem : ∀ q ∈ (s.park c).db.pendingCalls.rows,
      q ∈ s.db.pendingCalls.rows ∨ q = .ofCall c := fun q hq =>
    (Table.mem_insertOrIgnore.mp hq).imp_right And.left
  refine { h with disjoint := fun q hq => ?_, pendingVersion := fun q hq => ?_ }
  · rcases hmem q hq with hq | rfl
    · exact h.disjoint q hq
    · exact hnew
  · rcases hmem q hq with hq | rfl
    · exact h.pendingVersion q hq
    · show (s.version c.callId).map _ = _
      rw [hv, Option.map_some]

lemma parentAt_fold {parent : UInt32} {n p : ℕ} {c : Call} (h : ParentAt s.db parent n) :
    ParentAt (s.fold p c).db parent n :=
  h.imp_right fun hmem => Table.mem_insertOrIgnore.mpr (Or.inl hmem)

/-- Folding a recorded call that is in no table, below the node of its parent. -/
theorem fold (h : WellFormed s) {p : ℕ} {c : Call} (hnew : ¬ CallIdAlreadyKnown s.db c.callId)
    (hfn : s.db.dict.HasKey c.fnId) (hp : ParentAt s.db c.parent p)
    (hv : (s.version c.callId).map PendingCall.ofCall = some (.ofCall c)) :
    WellFormed (s.fold p c) := by
  have hkey : ¬ s.db.callToNode.HasKey (foldOf s.db.nodes p c).row.callId := fun hk =>
    hnew (Or.inl hk)
  constructor
  · exact h.tree.fold (h.hasKey_parent hp) c
  · exact fun col => col.inv_fold h.tree (h.sums col) p c
  · show (s.db.callToNode.insertOrIgnore _).rows = (s.log ++ [_]).map _
    rw [Table.rows_insertOrIgnore hkey, h.mapped, List.map_append, List.map_singleton]
  · exact Traced.forall_mem_log_fold (fun f hf => parentAt_fold (h.parentAt f hf))
      (parentAt_fold hp)
  · exact Traced.forall_mem_log_fold h.hasFn hfn
  · exact h.rootFn
  · intro q hq hk
    rcases Table.hasKey_insertOrIgnore.mp hk with hk | hk
    · exact h.disjoint q hq hk
    · exact hnew (Or.inr ⟨q, hq, hk⟩)
  · exact Traced.forall_mem_log_fold h.logVersion hv
  · exact h.pendingVersion
  · show (s.db.anomalies ++ _).filter _ = ((s.log ++ [_]).filter _).map _
    rw [List.filter_append, List.filter_append, List.map_append, h.inverted]
    by_cases hinv : c.Inverted
    · simp [hinv, foldOf, AnomalyRow.invertedTime]
    · simp [hinv, foldOf]

end WellFormed

/-- Every step of the aggregation keeps the tables in agreement with the history. -/
theorem Step.wellFormed {s t : Traced} {e : Event} (hstep : Step s e t) (h : WellFormed s) :
    WellFormed t := by
  cases hstep with
  | skip _ => exact h
  | @fold c n hnew hfn hp =>
    exact (h.push hnew).fold hnew hfn hp (by simp)
  | @park c fnKnown hnew _ _ =>
    exact (h.push hnew).park (fun hk => hnew (Or.inl hk)) (by simp)
  | @resolve p depth n hmem hfn hp _ =>
    refine (h.unpark p).fold ?_ hfn hp (h.pendingVersion p hmem)
    rintro (hk | ⟨q, hq, hid⟩)
    · exact h.disjoint p hmem hk
    · exact (Table.mem_erase.mp hq).2 hid

lemma Step.dict {s t : Traced} {e : Event} (hstep : Step s e t) : t.db.dict = s.db.dict := by
  cases hstep <;> rfl

lemma Step.traceMeta {s t : Traced} {e : Event} (hstep : Step s e t) :
    t.db.traceMeta = s.db.traceMeta := by
  cases hstep <;> rfl

end PhpTreeViz
