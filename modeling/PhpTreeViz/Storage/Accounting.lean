import PhpTreeViz.Core.Rounding
import PhpTreeViz.Storage.Consistent
import PhpTreeViz.Storage.Gate

/-!
# The counters of a batch

Four functions bump the counters of one batch: the in-batch loop, the fold, the drain and its
resolution of one row. `Ledger` is what the counters say about the tables after any number of
steps, and each step keeps it. The wall times are added without a bound check, so their total is
right as long as it is a 64-bit integer.
-/

namespace PhpTreeViz

open Core

/-! ### The ledger -/

/-- The counters `o` explain how the tables came from `before` to `after`, when the loop has handled
`handled` calls. -/
structure Ledger (before after : TraceDb) (handled : ℕ) (o : AggregateOutcome) : Prop where
  calls : o.callCountDelta + o.redeliveredSkipped = handled
  folds : o.callCountDelta + o.pendingResolved = o.nodesTouched + o.pendingAdded
  callToNode : after.callToNode.rows.length = before.callToNode.rows.length + o.nodesTouched
  pendingCalls : after.pendingCalls.rows.length + o.pendingResolved =
    before.pendingCalls.rows.length + o.pendingAdded
  anomalies : after.anomalies.length = before.anomalies.length + o.anomaliesAdded
  dq3Inverted : o.dq3Inverted = o.anomaliesAdded
  dictPendingAdded : o.dictPendingAdded ≤ o.pendingAdded

/-- The calls of the batch that an event handles. -/
def Event.handled : Event → ℕ
  | .resolve _ _ _ => 0
  | _              => 1

lemma length_callToNode_fold {db : TraceDb} {c : Call} (hnew : ¬ db.callToNode.HasKey c.callId)
    (p : ℕ) : (db.fold p c).callToNode.rows.length = db.callToNode.rows.length + 1 := by
  have hrows : (db.fold p c).callToNode.rows = db.callToNode.rows ++ [(foldOf db.nodes p c).row] :=
    Table.rows_insertOrIgnore hnew
  rw [hrows, List.length_append, List.length_singleton]

lemma length_anomalies_fold (db : TraceDb) (p : ℕ) (c : Call) :
    (db.fold p c).anomalies.length = db.anomalies.length + if c.Inverted then 1 else 0 := by
  rw [TraceDb.fold, List.length_append]
  split_ifs <;> rfl

lemma pendingCalls_fold (db : TraceDb) (p : ℕ) (c : Call) :
    (db.fold p c).pendingCalls = db.pendingCalls := rfl

lemma length_insertPendingCall {db : TraceDb} {c : Call}
    (hnew : ¬ db.pendingCalls.HasKey c.callId) :
    (insertPendingCall db c).pendingCalls.rows.length = db.pendingCalls.rows.length + 1 := by
  have hrows : (insertPendingCall db c).pendingCalls.rows =
      db.pendingCalls.rows ++ [.ofCall c] := Table.rows_insertOrIgnore hnew
  rw [hrows, List.length_append, List.length_singleton]

namespace Ledger

variable {before : TraceDb} {s t : Traced} {n : ℕ} {o : AggregateOutcome} {e : Event}

lemma start (db : TraceDb) : Ledger db db 0 {} := by
  constructor <;> simp

/-- Every step books what it does. -/
theorem step (h : Ledger before s.db n o) (hstep : Step s e t) (hwf : WellFormed s) :
    Ledger before t.db (n + e.handled) (o.record e) := by
  obtain ⟨hcalls, hfolds, hmap, hpend, hanom, hdq3, hdict⟩ := h
  cases hstep with
  | skip _ =>
    exact ⟨by simp only [AggregateOutcome.record, Event.handled]; omega, hfolds, hmap, hpend, hanom,
      hdq3, hdict⟩
  | @fold c p hnew _ _ =>
    have hlen := length_callToNode_fold (fun hk => hnew (Or.inl hk)) p
    have hlen' := length_anomalies_fold s.db p c
    by_cases hinv : c.Inverted <;> constructor <;>
      simp only [AggregateOutcome.record, AggregateOutcome.countNew, AggregateOutcome.countInverted,
        hinv, if_true, if_false, Event.handled, Traced.fold, Traced.push, hlen, hlen',
        pendingCalls_fold] <;> omega
  | @park c fnKnown hnew _ _ =>
    have hlen := length_insertPendingCall fun hk => hnew (Or.inr hk)
    constructor <;>
      simp only [AggregateOutcome.record, AggregateOutcome.countNew, Event.handled, Traced.park,
        Traced.push, hlen]
    · omega
    · omega
    · exact hmap
    · omega
    · exact hanom
    · exact hdq3
    · split_ifs <;> omega
  | @resolve p depth parentNode hp _ _ _ =>
    have hlen : ((s.unpark p).db.fold parentNode (p.toCall depth)).callToNode.rows.length =
        s.db.callToNode.rows.length + 1 := length_callToNode_fold (hwf.disjoint p hp) parentNode
    have hlen' : ((s.unpark p).db.fold parentNode (p.toCall depth)).anomalies.length =
        s.db.anomalies.length + if (p.toCall depth).Inverted then 1 else 0 :=
      length_anomalies_fold _ _ _
    have herase : (s.unpark p).db.pendingCalls.rows.length + 1 = s.db.pendingCalls.rows.length :=
      Table.length_erase hp
    by_cases hinv : (p.toCall depth).Inverted <;> constructor <;>
      simp only [AggregateOutcome.record, AggregateOutcome.countInverted, hinv, if_true, if_false,
        Event.handled, Traced.fold, hlen, hlen', pendingCalls_fold] <;> omega

theorem run {es : List Event} (h : Ledger before s.db n o) (hrun : Run Step s es t)
    (hwf : WellFormed s) :
    Ledger before t.db (n + (es.map Event.handled).sum) (es.foldl AggregateOutcome.record o) := by
  induction hrun generalizing n o with
  | nil => simpa using h
  | cons hstep _ ih =>
    rw [List.map_cons, List.sum_cons, ← Nat.add_assoc]
    exact ih (h.step hstep hwf) (hstep.wellFormed hwf)

end Ledger

lemma sum_handled {calls : List Call} {es : List Event}
    (h : List.Forall₂ Event.Handles calls es) : (es.map Event.handled).sum = calls.length := by
  induction h with
  | nil => rfl
  | @cons c e calls es hc _ ih =>
    have he : e.handled = 1 := by
      cases e with
      | resolve _ _ _ => exact hc.elim
      | _ => rfl
    rw [List.map_cons, List.sum_cons, ih, he, List.length_cons, Nat.add_comm]

lemma sum_handled_of_isResolve {es : List Event} (h : ∀ e ∈ es, e.IsResolve) :
    (es.map Event.handled).sum = 0 := by
  apply List.sum_eq_zero
  intro n hn
  obtain ⟨e, he, rfl⟩ := List.mem_map.mp hn
  cases e with
  | resolve _ _ _ => rfl
  | _ => exact (h _ he).elim

/-- The loop resolves nothing. -/
lemma pendingResolved_of_handles {calls : List Call} {es : List Event}
    (h : List.Forall₂ Event.Handles calls es) (o : AggregateOutcome) :
    (es.foldl AggregateOutcome.record o).pendingResolved = o.pendingResolved := by
  induction h generalizing o with
  | nil => rfl
  | @cons c e calls es hc _ ih =>
    rw [List.foldl_cons, ih]
    cases e with
    | resolve _ _ _ => exact hc.elim
    | fold c n =>
      by_cases hinv : c.Inverted <;>
        simp [AggregateOutcome.record, AggregateOutcome.countNew, AggregateOutcome.countInverted,
          hinv]
    | _ => rfl

/-- The drain records and parks nothing. -/
lemma counts_of_isResolve {es : List Event} (h : ∀ e ∈ es, e.IsResolve) (o : AggregateOutcome) :
    (es.foldl AggregateOutcome.record o).callCountDelta = o.callCountDelta ∧
      (es.foldl AggregateOutcome.record o).pendingAdded = o.pendingAdded := by
  induction es generalizing o with
  | nil => exact ⟨rfl, rfl⟩
  | cons e es ih =>
    simp only [List.mem_cons, forall_eq_or_imp] at h
    rw [List.foldl_cons, (ih h.2 _).1, (ih h.2 _).2]
    cases e with
    | resolve p depth n =>
      by_cases hinv : (p.toCall depth).Inverted <;>
        simp [AggregateOutcome.record, AggregateOutcome.countInverted, hinv]
    | _ => exact h.1.elim

/-! ### What a batch reports -/

/-- The calls that the loop folds: each of them is mapped. -/
def inBatchFolds (before loop : TraceDb) : ℕ :=
  loop.callToNode.rows.length - before.callToNode.rows.length

/-- The counters of a batch that takes the tables from `before` to `after`, through `loop` at the
end of the in-batch loop. -/
structure Accounted (before loop after : TraceDb) (batch : Batch) (o : AggregateOutcome) :
    Prop where
  calls : o.callCountDelta + o.redeliveredSkipped = batch.calls.length
  callCountDelta : o.callCountDelta = inBatchFolds before loop + o.pendingAdded
  nodesTouched : o.nodesTouched = inBatchFolds before loop + o.pendingResolved
  pendingTotal : o.pendingTotal + o.pendingResolved =
    before.pendingCalls.rows.length + o.pendingAdded
  callToNode : after.callToNode.rows.length = before.callToNode.rows.length + o.nodesTouched
  dq3Inverted : o.anomaliesAdded = o.dq3Inverted
  anomalies : after.anomalies.length = before.anomalies.length + o.anomaliesAdded
  dictPendingAdded : o.dictPendingAdded ≤ o.pendingAdded
  totalWallNsDelta : InI64 ((newCalls before batch.calls).map Call.exactWall).sum →
    o.totalWallNsDelta.toInt = ((newCalls before batch.calls).map Call.exactWall).sum

/-- A total that fits is a total of wall times that fit. -/
lemma map_wall_of_sum {calls : List Call} (h : InI64 (calls.map Call.exactWall).sum) :
    calls.map (·.wall.toInt) = calls.map Call.exactWall := by
  have hfits : FitsI64 (calls.map Call.exactWall) := by
    refine FitsI64.of_nonneg (fun n hn => ?_) h.2
    obtain ⟨c, -, rfl⟩ := List.mem_map.mp hn
    exact c.exactWall_nonneg
  exact List.map_congr_left fun c hc =>
    Call.toInt_wall_of_fits (hfits.mem (List.mem_map.mpr ⟨c, hc, rfl⟩))

section batch

variable [Engine] {s : Traced}

/-- The loop of a batch, its drain, and what the batch returns. -/
lemma TraceInv.loop_drain (h : TraceInv s) (key : TraceKey) (batch : Batch) :
    ∃ es₁ u es₂ items t,
      aggregateLoop (knownFnIds (prepareTrace key s.db batch)) batch.calls.reverse
        (prepareTrace key s.db batch) {} = .ok (u.db, es₁.foldl AggregateOutcome.record {}) ∧
      Run Step ⟨prepareTrace key s.db batch, s.log, s.versions⟩ es₁ u ∧
      List.Forall₂ Event.Handles batch.calls.reverse es₁ ∧
      u.versions = newCalls (prepareTrace key s.db batch) batch.calls ++ s.versions ∧
      Resolved u es₂ items t ∧
      aggregateCalls (prepareTrace key s.db batch) batch =
        .ok (t.db, outcomeOf (es₁ ++ es₂) t) := by
  have hwf : WellFormed ⟨prepareTrace key s.db batch, s.log, s.versions⟩ :=
    h.wellFormed_prepareTrace key batch
  obtain ⟨es₁, u, heq, hrun, hall, hversions, -⟩ := aggregateLoop_spec
    (knownFnIds (prepareTrace key s.db batch)) batch.calls {} hwf (fun _ => mem_knownFnIds)
  obtain ⟨es₂, items, t, heq', hres, -⟩ := drainPending_spec
    (knownFnIds (prepareTrace key s.db batch)) (es₁.foldl AggregateOutcome.record {})
    (wellFormed_of_run hrun hwf) (fun fn => by rw [mem_knownFnIds, ← (grows_of_run hrun).dict])
  refine ⟨es₁, u, es₂, items, t, heq, hrun, hall, hversions, hres, ?_⟩
  rw [h.aggregateCalls_eq_ungated, aggregateCallsUngated]
  simp only [bind, Except.bind, heq, heq', pure, Except.pure, outcomeOf, List.foldl_append]

theorem TraceInv.accounted (h : TraceInv s) (key : TraceKey) (batch : Batch) :
    ∃ loop o₁ after o,
      aggregateLoop (knownFnIds (prepareTrace key s.db batch)) batch.calls.reverse
        (prepareTrace key s.db batch) {} = .ok (loop, o₁) ∧
      aggregateCalls (prepareTrace key s.db batch) batch = .ok (after, o) ∧
      Accounted (prepareTrace key s.db batch) loop after batch o := by
  have hwf : WellFormed ⟨prepareTrace key s.db batch, s.log, s.versions⟩ :=
    h.wellFormed_prepareTrace key batch
  obtain ⟨es₁, u, es₂, items, t, heq, hrun, hall, hversions, hres, heq'⟩ :=
    h.loop_drain key batch
  have hloop := (Ledger.start _).run hrun hwf
  have hafter := hloop.run hres.run (wellFormed_of_run hrun hwf)
  have hzero : (es₁.foldl AggregateOutcome.record {}).pendingResolved = 0 :=
    pendingResolved_of_handles hall {}
  have hhandled := sum_handled hall
  rw [List.length_reverse] at hhandled
  rw [← List.foldl_append, sum_handled_of_isResolve hres.isResolve, hhandled] at hafter
  rw [hhandled] at hloop
  have hmapped : inBatchFolds (prepareTrace key s.db batch) u.db =
      (es₁.foldl AggregateOutcome.record {}).nodesTouched := by
    rw [inBatchFolds, hloop.callToNode, Nat.add_sub_cancel_left]
  obtain ⟨hcount, hadded⟩ :=
    counts_of_isResolve hres.isResolve (es₁.foldl AggregateOutcome.record {})
  have hfolds := hloop.folds
  have hfolds' := hafter.folds
  rw [← List.foldl_append] at hcount hadded
  refine ⟨u.db, _, t.db, _, heq, heq', ?_⟩
  constructor
  · simpa [outcomeOf] using hafter.calls
  · simp only [outcomeOf]
    omega
  · simp only [outcomeOf]
    omega
  · exact hafter.pendingCalls
  · exact hafter.callToNode
  · exact hafter.dq3Inverted.symm
  · exact hafter.anomalies
  · exact hafter.dictPendingAdded
  · intro hfits
    have hwall := map_wall_of_sum hfits
    have hversions' : t.versions =
        newCalls (prepareTrace key s.db batch) batch.calls ++ s.versions := by
      rw [versions_of_isResolve hres.run hres.isResolve, hversions]
    have hdelta := totalWallNsDelta_eq (hrun.append hres.run) hversions'
      (by rw [hwall]; exact hfits.2)
    rwa [hwall] at hdelta

end batch

/-- In every reachable state, the counters of every batch account for the tables. -/
theorem accounted_of_run [Engine] {as : List Attempt} {s : Storage}
    (hrun : Run Attempt.Step .empty as s) (key : TraceKey) (batch : Batch) :
    ∃ loop o₁ after o,
      aggregateLoop (knownFnIds (prepareTrace key (s.ensureTraceConn key) batch))
        batch.calls.reverse (prepareTrace key (s.ensureTraceConn key) batch) {} =
          .ok (loop, o₁) ∧
      aggregateCalls (prepareTrace key (s.ensureTraceConn key) batch) batch = .ok (after, o) ∧
      Accounted (prepareTrace key (s.ensureTraceConn key) batch) loop after batch o := by
  obtain ⟨log, versions, hinv⟩ := traceInv_of_run hrun key
  exact hinv.accounted key batch

/-- A batch with a fold, a repeat and a parked call that resolves a call of the batch before. -/
theorem accounted_of_run_mixed :
    letI := Engine.stored
    ∃ as s batch loop after o, Run Attempt.Step .empty as s ∧
      aggregateCalls (prepareTrace default (s.ensureTraceConn default) batch) batch =
        .ok (after, o) ∧
      Accounted (prepareTrace default (s.ensureTraceConn default) batch) loop after batch o ∧
      o.callCountDelta = 2 ∧ o.redeliveredSkipped = 1 ∧ o.nodesTouched = 2 ∧
      o.pendingAdded = 1 ∧ o.pendingResolved = 1 ∧ o.totalWallNsDelta = 5 := by
  let _ := Engine.stored
  let op : Op := .record default ⟨{ (default : Meta) with sapi := "cli" },
    [{ (default : DictEntry) with fnId := 7 }],
    [{ (default : Call) with callId := 2, parent := 1, fnId := 7 }]⟩ 0 .none
  let batch : Batch := ⟨default, [],
    [{ (default : Call) with callId := 3, parent := 9, fnId := 7 },
      { (default : Call) with callId := 1, fnId := 7, tOut := 5 },
      { (default : Call) with callId := 1, fnId := 7, tOut := 5 }]⟩
  have hrun : Run Attempt.Step .empty [⟨op, true⟩] (op.exec .empty).1 := .single rfl
  have hcounts : (aggregateCalls (prepareTrace default ((op.exec .empty).1.ensureTraceConn default)
      batch) batch).map (fun r => (r.2.callCountDelta, r.2.redeliveredSkipped, r.2.nodesTouched,
        r.2.pendingAdded, r.2.pendingResolved, r.2.totalWallNsDelta)) = .ok (2, 1, 2, 1, 1, 5) := by
    decide +kernel
  obtain ⟨loop, o₁, after, o, -, heq, hacc⟩ := accounted_of_run hrun default batch
  rw [heq] at hcounts
  simp only [Except.map, Except.ok.injEq, Prod.mk.injEq] at hcounts
  exact ⟨_, _, batch, loop, after, o, hrun, heq, hacc, hcounts⟩

/-! ### Wall times -/

/-- No addition of a wall time leaves the 64-bit range. The loop runs over the calls in reverse, so
it comes to the first call last. -/
def AddsWithinI64 (known : List UInt32) (db : TraceDb) : List Call → Prop
  | []         => True
  | c :: calls => AddsWithinI64 known db calls ∧
    ∀ db' o, aggregateLoop known calls.reverse db {} = .ok (db', o) →
      ¬ CallIdAlreadyKnown db' c.callId → InI64 (o.totalWallNsDelta.toInt + c.wall.toInt)

/-- The wall times that a batch adds. -/
def newWall (db : TraceDb) (calls : List Call) : ℤ :=
  ((newCalls db calls).map (·.wall.toInt)).sum

lemma newWall_nonneg (db : TraceDb) (calls : List Call) : 0 ≤ newWall db calls := by
  apply List.sum_nonneg
  intro n hn
  obtain ⟨c, -, rfl⟩ := List.mem_map.mp hn
  exact c.toInt_wall_nonneg

/-- Wall times are not negative, so all additions fit as soon as the last one does. -/
lemma addsWithinI64_iff (known : List UInt32) {s : Traced} (h : WellFormed s)
    (hknown : ∀ fn, fn ∈ known ↔ s.db.dict.HasKey fn) (calls : List Call) :
    AddsWithinI64 known s.db calls ↔ newWall s.db calls < 2 ^ 63 := by
  induction calls with
  | nil => simp [AddsWithinI64, newWall, newCalls]
  | cons c calls ih =>
    obtain ⟨es, t, heq, hrun, -, hversions, hkn⟩ := aggregateLoop_spec known calls {} h hknown
    have hlast : (∀ db' o, aggregateLoop known calls.reverse s.db {} = .ok (db', o) →
        ¬ CallIdAlreadyKnown db' c.callId → InI64 (o.totalWallNsDelta.toInt + c.wall.toInt)) ↔
        (¬ (CallIdAlreadyKnown s.db c.callId ∨ c.callId ∈ (newCalls s.db calls).map Call.callId) →
          InI64 ((es.foldl AggregateOutcome.record {}).totalWallNsDelta.toInt + c.wall.toInt)) := by
      rw [← hkn]
      constructor
      · exact fun hadd => hadd _ _ heq
      · rintro hadd db' o heq'
        obtain ⟨rfl, rfl⟩ := Prod.mk.inj (Except.ok.inj (heq.symm.trans heq'))
        exact hadd
    rw [AddsWithinI64, ih, hlast]
    by_cases hc : CallIdAlreadyKnown s.db c.callId ∨
        c.callId ∈ (newCalls s.db calls).map Call.callId
    · have hnew : newWall s.db (c :: calls) = newWall s.db calls := by
        rw [newWall, newCalls, if_pos hc, newWall]
      rw [hnew]
      exact ⟨And.left, fun hlt => ⟨hlt, fun hnc => absurd hc hnc⟩⟩
    · have hnew : newWall s.db (c :: calls) = c.wall.toInt + newWall s.db calls := by
        rw [newWall, newCalls, if_neg hc, List.map_cons, List.sum_cons, newWall]
      have h0 := c.toInt_wall_nonneg
      have h0' := newWall_nonneg s.db calls
      rw [hnew]
      constructor
      · rintro ⟨hlt, hadd⟩
        have := (hadd hc).2
        rw [totalWallNsDelta_eq hrun hversions hlt, ← newWall] at this
        omega
      · intro hlt
        have hlt' : newWall s.db calls < 2 ^ 63 := by omega
        refine ⟨hlt', fun _ => ?_⟩
        rw [totalWallNsDelta_eq hrun hversions hlt', ← newWall]
        exact ⟨by omega, by omega⟩

/-- The wall time of a trace in the index, 0 if it is not listed. -/
def Storage.indexWall (s : Storage) (key : TraceKey) : ℤ :=
  ((s.index.find? key).elim (.integer 0) TraceRow.totalWallNs).value

/-- The wall times of a batch are added up exactly, and the index does not lose any. -/
structure WallExact [Engine] (s : Storage) (key : TraceKey) (batch : Batch) : Prop where
  additions : AddsWithinI64 (knownFnIds (prepareTrace key (s.ensureTraceConn key) batch))
    (prepareTrace key (s.ensureTraceConn key) batch) batch.calls
  delta : ∀ after o,
    aggregateCalls (prepareTrace key (s.ensureTraceConn key) batch) batch = .ok (after, o) →
    o.totalWallNsDelta.toInt = newWall (prepareTrace key (s.ensureTraceConn key) batch) batch.calls
  index : ∀ now fault, s.indexWall key ≤ (recordBatch s key batch now fault).1.indexWall key

section wallExact

variable [Engine] {s : Storage} {key : TraceKey} {log : List Folded} {versions : List Call}

/-- A batch whose wall times fit adds their sum, which is not negative. -/
lemma indexWall_le (hinv : TraceInv ⟨s.ensureTraceConn key, log, versions⟩) {batch : Batch}
    (hfits : newWall (prepareTrace key (s.ensureTraceConn key) batch) batch.calls < 2 ^ 63)
    (now : Int64) (fault : CommitFault) :
    s.indexWall key ≤ (recordBatch s key batch now fault).1.indexWall key := by
  have hsame : ∀ {t : Storage}, t.index = s.index → s.indexWall key ≤ t.indexWall key := by
    intro t ht
    rw [Storage.indexWall, Storage.indexWall, ht]
  rcases recordBatch_cases hinv (Prod.ext rfl rfl :
      recordBatch s key batch now fault = ((recordBatch s key batch now fault).1, _))
    with ⟨-, hindex, -⟩ | ⟨es₁, es₂, u, -, hrec, -, ⟨hindex, -⟩ | ⟨-, -, hindex⟩⟩
  · exact hsame hindex
  · exact hsame hindex
  · have hdelta : (outcomeOf (es₁ ++ es₂) u).totalWallNsDelta.toInt = newWall _ batch.calls :=
      totalWallNsDelta_eq hrec.aggregated.run hrec.aggregated.versions hfits
    rw [Storage.indexWall, Storage.indexWall, hindex, find?_upsert_traceRow, Option.elim_some,
      TraceRow.totalWallNs_upserted]
    exact NumCell.value_le_add _ (by rw [hdelta]; exact newWall_nonneg _ _)

theorem TraceInv.wallExact_iff (hinv : TraceInv ⟨s.ensureTraceConn key, log, versions⟩)
    (batch : Batch) : WallExact s key batch ↔
      newWall (prepareTrace key (s.ensureTraceConn key) batch) batch.calls < 2 ^ 63 := by
  have hwf := hinv.wellFormed_prepareTrace key batch
  have hadditions := addsWithinI64_iff (knownFnIds _) hwf (fun _ => mem_knownFnIds)
    batch.calls
  constructor
  · exact fun h => hadditions.mp h.additions
  · intro hfits
    refine ⟨hadditions.mpr hfits, fun after o h => ?_, indexWall_le hinv hfits⟩
    obtain ⟨es₁, u, es₂, items, t, -, hrun, -, hversions, hres, heq⟩ := hinv.loop_drain key batch
    obtain ⟨rfl, rfl⟩ := Prod.mk.inj (Except.ok.inj (heq.symm.trans h))
    exact totalWallNsDelta_eq (hrun.append hres.run)
      (by rw [versions_of_isResolve hres.run hres.isResolve, hversions]) hfits

end wallExact

/-- In every reachable state, the wall times of a batch are added up exactly and never lower the
index total, if and only if those of its new calls sum up to a 64-bit integer. -/
theorem wallExact_iff_of_run [Engine] {as : List Attempt} {s : Storage}
    (hrun : Run Attempt.Step .empty as s) (key : TraceKey) (batch : Batch) :
    WallExact s key batch ↔
      newWall (prepareTrace key (s.ensureTraceConn key) batch) batch.calls < 2 ^ 63 := by
  obtain ⟨log, versions, hinv⟩ := traceInv_of_run hrun key
  exact hinv.wallExact_iff batch

/-- The longest wall time on top of an index total. -/
theorem wallExact_iff_of_run_longest :
    letI := Engine.stored
    ∃ as s, Run Attempt.Step .empty as s ∧ s.indexWall default = 5 ∧
      WallExact s default
        ⟨default, [], [{ (default : Call) with callId := 2, tOut := Int64.maxValue }]⟩ := by
  let _ := Engine.stored
  let op : Op := .record default ⟨{ (default : Meta) with sapi := "cli" }, [],
    [{ (default : Call) with callId := 1, tOut := 5 }]⟩ 0 .none
  have hrun : Run Attempt.Step .empty [⟨op, true⟩] (op.exec .empty).1 := .single rfl
  exact ⟨_, _, hrun, by decide, (wallExact_iff_of_run hrun default _).mpr (by decide)⟩

/-- Two wall times of almost `2 ^ 63` each wrap around to -2, which lowers the index total from 5
to 3. -/
theorem not_wallExact :
    letI := Engine.stored
    ∃ as s batch, Run Attempt.Step .empty as s ∧ s.indexWall default = 5 ∧
      (recordBatch s default batch 0).1.indexWall default = 3 ∧ ¬ WallExact s default batch := by
  let _ := Engine.stored
  let op : Op := .record default ⟨{ (default : Meta) with sapi := "cli" }, [],
    [{ (default : Call) with callId := 1, tOut := 5 }]⟩ 0 .none
  let batch : Batch := ⟨{ (default : Meta) with sapi := "cli" }, [],
    [{ (default : Call) with callId := 2, tOut := Int64.maxValue },
      { (default : Call) with callId := 3, tOut := Int64.maxValue }]⟩
  have hrun : Run Attempt.Step .empty [⟨op, true⟩] (op.exec .empty).1 := .single rfl
  have hbefore : (op.exec .empty).1.indexWall default = 5 := by decide
  have hafter : (recordBatch (op.exec .empty).1 default batch 0).1.indexWall default = 3 := by
    decide
  refine ⟨_, _, batch, hrun, hbefore, hafter, fun h => ?_⟩
  have := h.index 0 .none
  omega

end PhpTreeViz
