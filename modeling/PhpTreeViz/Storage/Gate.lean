import PhpTreeViz.Storage.ContextTree

/-!
# When the drain runs and what it asks for

A batch that brings no `dict` entry and folds no call skips the drain. Nothing is lost by that,
since nothing could be resolved before the batch and the parked calls cannot be resolved either.

The seed query of the drain and the in-batch loop place a call in two ways. They disagree on
top-level calls once a call with the id 0 is mapped, because only the loop takes the parent 0 to
mean "no parent" first.
-/

namespace PhpTreeViz

open Core

/-! ### The gate -/

/-- `aggregateCalls` without its gate: the drain always runs. -/
def aggregateCallsUngated [Engine] (db : TraceDb) (batch : Batch) :
    Except StorageError (TraceDb × AggregateOutcome) := do
  let known := knownFnIds db
  let (db, outcome) ← aggregateLoop known batch.calls.reverse db {}
  let (db, outcome) ← drainPending known db outcome
  return (db, { outcome with pendingTotal := db.pendingCalls.rows.length })

/-- The drain of a saturated database does nothing. -/
lemma drainPending_of_saturated [Engine] {known : List UInt32} {s : Traced} (h : WellFormed s)
    (hknown : ∀ fn, fn ∈ known ↔ s.db.dict.HasKey fn) (hsat : Saturated s.db)
    (o : AggregateOutcome) : drainPending known s.db o = .ok (s.db, o) := by
  obtain ⟨es, items, t, heq, hres, -⟩ := drainPending_spec known o h hknown
  obtain rfl := eq_nil_of_saturated hres.run hres.isResolve hsat
  obtain rfl := Run.nil_iff.mp hres.run
  exact heq

/-- The gate only skips drains of saturated databases. -/
theorem TraceInv.aggregateCalls_eq_ungated [Engine] {s : Traced} (h : TraceInv s) (key : TraceKey)
    (batch : Batch) : aggregateCalls (prepareTrace key s.db batch) batch =
      aggregateCallsUngated (prepareTrace key s.db batch) batch := by
  have hwf : WellFormed ⟨prepareTrace key s.db batch, s.log, s.versions⟩ :=
    h.wellFormed_prepareTrace key batch
  obtain ⟨es, t, heq, hrun, -⟩ := aggregateLoop_spec
    (knownFnIds (prepareTrace key s.db batch)) batch.calls {} hwf (fun _ => mem_knownFnIds)
  rw [aggregateCalls, aggregateCallsUngated]
  simp only [bind, Except.bind, heq]
  split_ifs with hgate
  · rfl
  · simp only [not_or, not_not, not_lt, Nat.le_zero] at hgate
    have hbefore : Saturated (prepareTrace key s.db batch) :=
      h.saturated_prepareTrace key batch (by simp [hgate.1, Defines])
    have hafter : Saturated t.db := saturated_of_not_touched {} hrun rfl hgate.2 hbefore
    rw [drainPending_of_saturated (wellFormed_of_run hrun hwf)
      (fun fn => by rw [mem_knownFnIds, ← (grows_of_run hrun).dict]) hafter]

/-- In every reachable state, a batch ends in the same tables and counters with and without the
gate. -/
theorem aggregateCalls_eq_ungated_of_run [Engine] {as : List Attempt} {s : Storage}
    (hrun : Run Attempt.Step .empty as s) (key : TraceKey) (batch : Batch) :
    aggregateCalls (prepareTrace key (s.ensureTraceConn key) batch) batch =
      aggregateCallsUngated (prepareTrace key (s.ensureTraceConn key) batch) batch := by
  obtain ⟨log, versions, hinv⟩ := traceInv_of_run hrun key
  exact hinv.aggregateCalls_eq_ungated key batch

/-- A second pure-park batch of a trace with a parked call. -/
theorem aggregateCalls_eq_ungated_of_run_parked :
    letI := Engine.stored
    ∃ as s, Run Attempt.Step .empty as s ∧
      (s.ensureTraceConn default).pendingCalls.rows.length = 1 ∧
      let batch : Batch := ⟨default, [], [{ (default : Call) with callId := 2, parent := 1 }]⟩
      aggregateCalls (prepareTrace default (s.ensureTraceConn default) batch) batch =
        aggregateCallsUngated (prepareTrace default (s.ensureTraceConn default) batch) batch := by
  let _ := Engine.stored
  let op : Op := .record default
    ⟨{ (default : Meta) with sapi := "cli" }, [],
      [{ (default : Call) with callId := 1, fnId := 7 }]⟩ 0 .none
  have hrun : Run Attempt.Step .empty [⟨op, true⟩] (op.exec .empty).1 := .single rfl
  exact ⟨_, _, hrun, rfl, aggregateCalls_eq_ungated_of_run hrun default _⟩

/-! ### Placement by the seed query -/

/-- Every row of the seed query comes with the node that the in-batch loop would give it. -/
def SeedsAgree [Engine] (db : TraceDb) : Prop :=
  ∀ row ∈ drainResolvable db, resolveParent db row.parentCallId = some row.parentNodeId

/-- No top-level call is pending while the call id 0 is mapped. -/
def ZeroUnambiguous (db : TraceDb) : Prop :=
  ¬ db.callToNode.HasKey 0 ∨ ∀ p ∈ db.pendingCalls.rows, p.parentCallId ≠ 0

lemma drainParent_eq_resolveParent {db : TraceDb} {parent : UInt32}
    (h : parent ≠ 0 ∨ ¬ db.callToNode.HasKey 0) :
    drainParent db parent = resolveParent db parent := by
  rw [drainParent, resolveParent]
  by_cases h0 : parent = 0
  · subst h0
    rw [Table.find?_eq_none_iff.mpr (h.resolve_left (not_not.mpr rfl))]
    rfl
  · rw [if_neg h0]
    cases db.callToNode.find? parent <;> simp [h0]

/-- The two placements agree as long as the parent 0 is unambiguous. -/
theorem WellFormed.seedsAgree_iff [Engine] {s : Traced} (h : WellFormed s) :
    SeedsAgree s.db ↔ ZeroUnambiguous s.db := by
  constructor
  · intro hagree
    by_contra hzero
    simp only [ZeroUnambiguous, not_or, not_not, not_forall] at hzero
    obtain ⟨⟨m, hm, hid⟩, p, hp, hparent⟩ := hzero
    have hseed : drainParent s.db p.parentCallId = some m.nodeId := by
      rw [drainParent, hparent, ← hid, Table.find?_of_mem hm]
    have hroot := hagree ⟨p, m.nodeId⟩ (mem_drainResolvable.mpr ⟨hp, hseed⟩)
    simp only [hparent, resolveParent, if_true, Option.some.injEq] at hroot
    -- no call is mapped to the root
    rw [h.mapped] at hm
    obtain ⟨f, hf, rfl⟩ := List.mem_map.mp hm
    exact h.tree.node_ne_root hf hroot.symm
  · intro hzero row hrow
    obtain ⟨hp, hseed⟩ := mem_drainResolvable.mp hrow
    rw [← drainParent_eq_resolveParent (hzero.symm.imp_left fun hne => hne _ hp), hseed]

/-- Wherever a batch stands when it runs the seed query, the query places calls as the loop does if
and only if no top-level call is pending while the call id 0 is mapped. So it always does in a trace
without the call id 0. -/
theorem seedsAgree_iff_of_run [Engine] {as : List Attempt} {s : Storage}
    (hrun : Run Attempt.Step .empty as s) (key : TraceKey) (batch : Batch) (calls : List Call) :
    ∃ db o, aggregateLoop (knownFnIds (prepareTrace key (s.ensureTraceConn key) batch)) calls
        (prepareTrace key (s.ensureTraceConn key) batch) {} = .ok (db, o) ∧
      (SeedsAgree db ↔ ZeroUnambiguous db) ∧
      (CallIdsPositive key as → (∀ c ∈ calls, c.callId ≠ 0) → SeedsAgree db) := by
  obtain ⟨recorded, hobs⟩ := Observed.exists_run hrun key []
  obtain ⟨log, hinv⟩ := Observed.traceInv_of_run hobs ⟨[], by
    rw [ensureTraceConn_of_none rfl]
    exact TraceInv.fresh _⟩
  have hwf := hinv.wellFormed_prepareTrace key batch
  obtain ⟨es, t, heq, hloop, -, hversions, -⟩ := aggregateLoop_spec
    (knownFnIds (prepareTrace key (s.ensureTraceConn key) batch)) calls.reverse {} hwf
    (fun _ => mem_knownFnIds)
  rw [List.reverse_reverse] at heq
  have hwf' := wellFormed_of_run hloop hwf
  refine ⟨t.db, _, heq, hwf'.seedsAgree_iff, fun hids hcalls => hwf'.seedsAgree_iff.mpr ?_⟩
  have hrecorded : ∀ c ∈ recorded, c.callId ≠ 0 := recorded_ne_zero hobs hids (by simp)
  refine Or.inl (fun hk => ?_)
  obtain ⟨f, hf, hid⟩ := hwf'.hasKey_iff.mp hk
  obtain ⟨d, hmem⟩ := hwf'.exists_mem_versions hf
  rw [hversions] at hmem
  rcases List.mem_append.mp hmem with hmem | hmem
  · exact hcalls _ (List.mem_reverse.mp (newCalls_sublist.subset hmem)) hid
  · exact hrecorded _ hmem hid

/-- A top-level call that waits for its function when its caller's id is not 0. -/
theorem seedsAgree_iff_of_run_parked :
    letI := Engine.stored
    ∃ as s batch db o, Run Attempt.Step .empty as s ∧
      aggregateLoop (knownFnIds (prepareTrace default (s.ensureTraceConn default) batch))
        batch.calls.reverse (prepareTrace default (s.ensureTraceConn default) batch) {} =
          .ok (db, o) ∧
      drainResolvable db ≠ [] ∧ SeedsAgree db := by
  let _ := Engine.stored
  let op : Op := .record default ⟨{ (default : Meta) with sapi := "cli" }, [],
    [{ (default : Call) with callId := 1, fnId := 7 }]⟩ 0 .none
  let batch : Batch := ⟨default, [{ (default : DictEntry) with fnId := 7 }], []⟩
  have hrun : Run Attempt.Step .empty [⟨op, true⟩] (op.exec .empty).1 := .single rfl
  obtain ⟨db, o, heq, -, hagree⟩ := seedsAgree_iff_of_run hrun default batch batch.calls.reverse
  have hseed : drainResolvable db ≠ [] := by
    obtain ⟨rfl, -⟩ := Prod.mk.inj (Except.ok.inj heq)
    decide
  refine ⟨_, _, batch, db, o, hrun, heq, hseed, hagree ?_ (by simp [batch])⟩
  rintro a ha b now fault hop c hc
  obtain rfl : a = ⟨op, true⟩ := by simpa using ha
  cases hop
  revert c
  decide

/-- A call with the id 0 is folded while a top-level call waits for its function. The drain puts
the top-level call below the call 0. -/
theorem not_seedsAgree :
    letI := Engine.stored
    ∃ as s batch db o, Run Attempt.Step .empty as s ∧
      aggregateLoop (knownFnIds (prepareTrace default (s.ensureTraceConn default) batch))
        batch.calls.reverse (prepareTrace default (s.ensureTraceConn default) batch) {} =
          .ok (db, o) ∧
      (∃ row ∈ drainResolvable db, row.callId = 5 ∧ row.parentCallId = 0 ∧ row.parentNodeId = 2) ∧
      resolveParent db 0 = some syntheticRootNodeId ∧ ¬ SeedsAgree db := by
  let _ := Engine.stored
  let op : Op := .record default ⟨{ (default : Meta) with sapi := "cli" },
    [{ (default : DictEntry) with fnId := 7 }],
    [{ (default : Call) with callId := 5, fnId := 9 }]⟩ 0 .none
  let batch : Batch := ⟨default, [{ (default : DictEntry) with fnId := 9 }],
    [{ (default : Call) with callId := 0, fnId := 7 }]⟩
  have hrun : Run Attempt.Step .empty [⟨op, true⟩] (op.exec .empty).1 := .single rfl
  refine ⟨_, _, batch, _, _, hrun, rfl, ?_, rfl, ?_⟩
  · decide
  · rw [SeedsAgree]
    decide

end PhpTreeViz
