import PhpTreeViz.Storage.ContextTree

/-!
# The counters of the index

The index row of a trace repeats facts about its tables. `record_batch` adds deltas to two of the
counters and overwrites the others, `finalize_trace` overwrites what the first one adds to. All of
them stay in agreement with the tables because a call that was counted is always in one of three
places: it is folded, it is pending, or a finalize has turned it into an anomaly.
-/

namespace PhpTreeViz

open Core

/-! ### What a batch appends -/

/-- The folds `new` are what the events `es` added to the history and to `anomalies`. -/
structure Appended (s : Traced) (es : List Event) (t : Traced) (new : List Folded) : Prop where
  log : t.log = s.log ++ new
  anomalies : t.db.anomalies = s.db.anomalies ++
    (new.filter (·.call.Inverted)).map fun f => .invertedTime f.node f.call
  anomaliesAdded : ∀ o, (es.foldl AggregateOutcome.record o).anomaliesAdded =
    o.anomaliesAdded + new.countP (·.call.Inverted)

namespace Appended

variable {s t u : Traced} {es es' : List Event} {new new' : List Folded}

lemma nil (s : Traced) : Appended s [] s [] := ⟨by simp, by simp, by simp⟩

lemma append (h : Appended s es t new) (h' : Appended t es' u new') :
    Appended s (es ++ es') u (new ++ new') where
  log := by rw [h'.log, h.log, List.append_assoc]
  anomalies := by
    rw [h'.anomalies, h.anomalies, List.append_assoc, List.filter_append, List.map_append]
  anomaliesAdded o := by
    rw [List.foldl_append, h'.anomaliesAdded, h.anomaliesAdded, List.countP_append, Nat.add_assoc]

/-- A batch adds as many anomaly rows as it says. -/
lemma length_anomalies (h : Appended s es t new) :
    t.db.anomalies.length = s.db.anomalies.length + (outcomeOf es t).anomaliesAdded := by
  rw [h.anomalies, List.length_append, List.length_map, ← List.countP_eq_length_filter]
  have := h.anomaliesAdded {}
  simp only [outcomeOf, this, Nat.zero_add]

end Appended

lemma Step.appended {s t : Traced} {e : Event} (hstep : Step s e t) :
    ∃ new, Appended s [e] t new := by
  cases hstep with
  | skip _ => exact ⟨[], by simp, by simp, fun o => rfl⟩
  | @fold c n _ _ _ =>
    refine ⟨[foldOf s.db.nodes n c], rfl, ?_, fun o => ?_⟩
    · by_cases hinv : c.Inverted <;> simp [Traced.fold, Traced.push, TraceDb.fold, hinv, foldOf]
    · simp [AggregateOutcome.record, AggregateOutcome.anomaliesAdded_countInverted,
        AggregateOutcome.countNew, List.countP_singleton, foldOf]
  | park _ _ _ => exact ⟨[], by simp [Traced.park, Traced.push], by
      simp [Traced.park, Traced.push, insertPendingCall], fun o => rfl⟩
  | @resolve p depth n _ _ _ _ =>
    refine ⟨[foldOf s.db.nodes n (p.toCall depth)], rfl, ?_, fun o => ?_⟩
    · by_cases hinv : (p.toCall depth).Inverted <;>
        simp [Traced.fold, Traced.unpark, TraceDb.fold, hinv, foldOf]
    · simp [AggregateOutcome.record, AggregateOutcome.anomaliesAdded_countInverted,
        List.countP_singleton, foldOf]

lemma appended_of_run {s t : Traced} {es : List Event} (h : Run Step s es t) :
    ∃ new, Appended s es t new := by
  induction h with
  | nil s => exact ⟨[], Appended.nil s⟩
  | cons hstep _ ih =>
    obtain ⟨new, hnew⟩ := hstep.appended
    obtain ⟨new', hnew'⟩ := ih
    exact ⟨new ++ new', hnew.append hnew'⟩

/-- A batch counts the calls that it records. -/
lemma callCountDelta_foldl (es : List Event) (o : AggregateOutcome) :
    (es.foldl AggregateOutcome.record o).callCountDelta =
      o.callCountDelta + (es.flatMap Event.recorded).length := by
  induction es generalizing o with
  | nil => rfl
  | cons e es ih =>
    rw [List.foldl_cons, ih, List.flatMap_cons, List.length_append]
    cases e <;>
      simp [AggregateOutcome.record, AggregateOutcome.countNew, Event.recorded, Nat.add_assoc]

lemma totalWallNsDelta_foldl (es : List Event) (o : AggregateOutcome) :
    (es.foldl AggregateOutcome.record o).totalWallNsDelta =
      (es.flatMap Event.recorded).foldl (fun n c => n + c.wall) o.totalWallNsDelta := by
  induction es generalizing o with
  | nil => rfl
  | cons e es ih =>
    rw [List.foldl_cons, ih, List.flatMap_cons, List.foldl_append]
    cases e <;> simp [AggregateOutcome.record, AggregateOutcome.countNew, Event.recorded]

lemma versions_of_run {s t : Traced} {es : List Event} (h : Run Step s es t) :
    t.versions.Perm (es.flatMap Event.recorded ++ s.versions) := by
  induction h with
  | nil => exact .refl _
  | cons hstep _ ih =>
    rw [hstep.versions] at ih
    rw [List.flatMap_cons]
    exact ih.trans ((List.perm_append_comm_assoc _ _ _).trans (by rw [List.append_assoc]))

/-- A run records the calls that it adds to the versions. -/
lemma recorded_perm_of_run {s t : Traced} {es : List Event} {calls : List Call}
    (hrun : Run Step s es t) (hversions : t.versions = calls ++ s.versions) :
    (es.flatMap Event.recorded).Perm calls := by
  have hperm := versions_of_run hrun
  rw [hversions] at hperm
  exact ((List.perm_append_right_iff s.versions).mp hperm).symm

/-- The events of a batch record its new calls. -/
lemma TraceRecorded.recorded_perm {key : TraceKey} {s t : Traced} {batch : Batch}
    {es₁ es₂ : List Event} (h : TraceRecorded key s batch es₁ es₂ t) :
    ((es₁ ++ es₂).flatMap Event.recorded).Perm (newCalls s.db batch.calls) :=
  recorded_perm_of_run h.aggregated.run h.versions

lemma TraceRecorded.callCountDelta_eq {key : TraceKey} {s t : Traced} {batch : Batch}
    {es₁ es₂ : List Event} (h : TraceRecorded key s batch es₁ es₂ t) :
    (outcomeOf (es₁ ++ es₂) t).callCountDelta = (newCalls s.db batch.calls).length := by
  rw [← h.recorded_perm.length_eq]
  exact (callCountDelta_foldl _ _).trans (Nat.zero_add _)

/-! ### The places of a call -/

/-- An anomaly that a finalize made from a pending call. -/
def AnomalyRow.Residual (a : AnomalyRow) : Prop :=
  a.kind = .unresolvedFn ∨ a.kind = .pendingParentAtFinalize

instance (a : AnomalyRow) : Decidable a.Residual := inferInstanceAs (Decidable (_ ∨ _))

/-- The calls in the tables of a trace: folded, pending, or given up at a finalize. -/
def TraceDb.places (db : TraceDb) : List UInt32 :=
  db.callToNode.rows.map CallToNodeRow.callId ++ (db.pendingCalls.rows.map PendingCall.callId ++
    (db.anomalies.filter (·.Residual)).map AnomalyRow.sampleCallId)

lemma filter_residual_fold (db : TraceDb) (p : ℕ) (c : Call) :
    (db.fold p c).anomalies.filter (·.Residual) = db.anomalies.filter (·.Residual) := by
  simp only [TraceDb.fold, List.filter_append]
  split_ifs <;> simp [AnomalyRow.Residual, AnomalyRow.invertedTime]

lemma places_fold {db : TraceDb} {c : Call} (hnew : ¬ db.callToNode.HasKey c.callId) (p : ℕ) :
    (db.fold p c).places.Perm (c.callId :: db.places) := by
  have hrows : (db.fold p c).callToNode.rows = db.callToNode.rows ++ [(foldOf db.nodes p c).row] :=
    Table.rows_insertOrIgnore hnew
  have hpend : (db.fold p c).pendingCalls = db.pendingCalls := rfl
  rw [TraceDb.places, hrows, hpend, filter_residual_fold, List.map_append, List.map_singleton,
    List.append_assoc]
  exact List.perm_middle

lemma places_insertPendingCall {db : TraceDb} {c : Call}
    (hnew : ¬ db.pendingCalls.HasKey c.callId) :
    (insertPendingCall db c).places.Perm (c.callId :: db.places) := by
  have hrows : (insertPendingCall db c).pendingCalls.rows =
      db.pendingCalls.rows ++ [.ofCall c] := Table.rows_insertOrIgnore hnew
  rw [TraceDb.places, hrows, List.map_append, List.map_singleton, List.append_assoc]
  exact (List.perm_middle.append_left _).trans List.perm_middle

lemma places_erase {db : TraceDb} {p : PendingCall} (hp : p ∈ db.pendingCalls.rows) :
    db.places.Perm
      (p.callId :: { db with pendingCalls := db.pendingCalls.erase p.callId }.places) := by
  have hrows := (Table.rows_erase_perm hp).map PendingCall.callId
  exact ((hrows.append_right _).append_left _).trans List.perm_middle

/-- A step puts the call that it records in one place and takes no other call out of its place. -/
lemma Step.places {s t : Traced} {e : Event} (hstep : Step s e t) (h : WellFormed s) :
    t.db.places.Perm (e.recorded.map Call.callId ++ s.db.places) := by
  cases hstep with
  | skip _ => exact .refl _
  | fold hnew _ _ => exact places_fold (fun hk => hnew (Or.inl hk)) _
  | park hnew _ _ => exact places_insertPendingCall fun hk => hnew (Or.inr hk)
  | @resolve p depth n hp _ _ _ =>
    have hfold : ((s.unpark p).db.fold n (p.toCall depth)).places.Perm
        (p.callId :: (s.unpark p).db.places) := places_fold (h.disjoint p hp) n
    exact hfold.trans (places_erase hp).symm

lemma places_of_run {s t : Traced} {es : List Event} (h : Run Step s es t) (hs : WellFormed s)
    (hrec : (s.versions.map Call.callId).Perm s.db.places) :
    (t.versions.map Call.callId).Perm t.db.places := by
  induction h with
  | nil => exact hrec
  | cons hstep _ ih =>
    apply ih (hstep.wellFormed hs)
    rw [hstep.versions, List.map_append]
    exact (hrec.append_left _).trans (hstep.places hs).symm

/-- A finalize moves the pending calls to the anomalies. -/
lemma TraceFinalized.places [Engine] {db db' : TraceDb} {o : FinalizeOutcome}
    (h : TraceFinalized db db' o) : db'.places.Perm db.places := by
  have hres : ((scan db.pendingCalls.rows).map (residualAnomaly (knownFnIds db))).filter
      (·.Residual) = (scan db.pendingCalls.rows).map (residualAnomaly (knownFnIds db)) := by
    apply List.filter_eq_self.mpr
    intro a ha
    obtain ⟨p, -, rfl⟩ := List.mem_map.mp ha
    rw [decide_eq_true_eq, residualAnomaly]
    split_ifs <;> simp [AnomalyRow.Residual]
  have hids : ((scan db.pendingCalls.rows).map (residualAnomaly (knownFnIds db))).map
      AnomalyRow.sampleCallId = (scan db.pendingCalls.rows).map PendingCall.callId := by
    rw [List.map_map]
    apply List.map_congr_left
    intro p _
    simp only [Function.comp_apply, residualAnomaly]
    split_ifs <;> rfl
  simp only [TraceDb.places, h.callToNode, h.pendingCalls, Table.rows_empty, List.map_nil,
    List.nil_append, h.anomalies, List.filter_append, hres, List.map_append, hids]
  refine List.Perm.append_left _ (List.perm_append_comm.trans (List.Perm.append_right _ ?_))
  exact (ScanOrder.scan_perm _).map _

/-! ### Agreement -/

/-- The index row repeats what the tables of its trace say. -/
structure CountersAgree (row : TraceRow) (db : TraceDb) : Prop where
  anomalyCount : row.anomalyCount = db.anomalies.length
  pendingCount : row.pendingCount = db.pendingCalls.rows.length
  state : db.traceMeta.map TraceMetaRow.state = some row.state
  callCount : row.callCount = db.places.length

/-- The places are counted by the totals of the nodes, the pending rows and the residual
anomalies. -/
lemma WellFormed.length_places {s : Traced} (h : WellFormed s) : s.db.places.length =
    ((s.db.nodes.rows.filter (·.nodeId ≠ syntheticRootNodeId)).map NodeRow.callCount).sum +
      s.db.pendingCalls.rows.length + s.db.anomalies.countP (·.Residual) := by
  rw [TraceDb.places, List.length_append, List.length_append, List.length_map, List.length_map,
    List.length_map, ← h.length_callToNode, ← List.countP_eq_length_filter, Nat.add_assoc]

/-- What is known about the trace `key` while its operations succeed. -/
structure Counted (key : TraceKey) (o : Observed) : Prop where
  inv : ∃ log, TraceInv ⟨o.storage.ensureTraceConn key, log, o.recorded⟩
  places : (o.recorded.map Call.callId).Perm (o.storage.ensureTraceConn key).places
  noRow : o.storage.index.find? key = none → o.storage.ensureTraceConn key = .fresh
  row : ∀ row, o.storage.index.find? key = some row →
    ∃ db, o.storage.traces key = some db ∧ CountersAgree row db

namespace Counted

variable {key : TraceKey} {o : Observed} {t : Storage}

lemma empty {s : Storage} (htr : s.traces key = none) (hidx : s.index.find? key = none) :
    Counted key ⟨s, []⟩ where
  inv := ⟨[], by rw [ensureTraceConn_of_none htr]; exact TraceInv.fresh _⟩
  places := by simp [ensureTraceConn_of_none htr, TraceDb.places, TraceDb.fresh]
  noRow _ := ensureTraceConn_of_none htr
  row row hrow := by simp [hidx] at hrow

lemma congr (h : Counted key o) (hst : SameTrace key o.storage t) :
    Counted key ⟨t, o.recorded⟩ where
  inv := by rw [hst.ensureTraceConn]; exact h.inv
  places := by rw [hst.ensureTraceConn]; exact h.places
  noRow := by rw [hst.ensureTraceConn, hst.index]; exact h.noRow
  row := by rw [hst.index, hst.traces]; exact h.row

/-- The counters before the next operation, with zeros for a trace that has no row. -/
lemma counters (h : Counted key o) :
    (o.storage.index.find? key).elim 0 TraceRow.anomalyCount =
        (o.storage.ensureTraceConn key).anomalies.length ∧
      (o.storage.index.find? key).elim 0 TraceRow.callCount = o.recorded.length := by
  have hlen := h.places.length_eq
  rw [List.length_map] at hlen
  cases hrow : o.storage.index.find? key with
  | none =>
    have hfresh := h.noRow hrow
    rw [hlen, hfresh]
    exact ⟨rfl, rfl⟩
  | some row =>
    obtain ⟨db, hdb, hagree⟩ := h.row row hrow
    rw [hlen, ensureTraceConn_of_traces hdb]
    exact ⟨hagree.anomalyCount, hagree.callCount⟩

/-- A batch adds the new anomalies and the new calls, and says what is pending. -/
lemma record (h : Counted key o) {batch : Batch} {now : Int64} {log : List Folded}
    {es₁ es₂ : List Event} {u : Traced}
    (hinv : TraceInv ⟨o.storage.ensureTraceConn key, log, o.recorded⟩)
    (htr : TraceRecorded key ⟨o.storage.ensureTraceConn key, log, o.recorded⟩ batch es₁ es₂ u)
    (htraces : t.traces key = some u.db)
    (hindex : t.index.find? key = some (.upserted (o.storage.index.find? key) key batch.metaBlock
      now (outcomeOf (es₁ ++ es₂) u))) : Counted key ⟨t, u.versions⟩ := by
  have hconn := ensureTraceConn_of_traces htraces
  have hversions := htr.versions
  have hwf := hinv.wellFormed_prepareTrace key batch
  obtain ⟨new, hnew⟩ := appended_of_run htr.aggregated.run
  have hplaces : (u.versions.map Call.callId).Perm u.db.places :=
    places_of_run htr.aggregated.run hwf h.places
  obtain ⟨hanomalies, hcount⟩ := h.counters
  refine ⟨⟨u.log, hconn.symm ▸ htr.inv⟩, hconn.symm ▸ hplaces, fun hnone => ?_, fun row hrow => ?_⟩
  · rw [hindex] at hnone
    cases hnone
  · rw [hindex, Option.some.injEq] at hrow
    refine ⟨u.db, htraces, ?_⟩
    rw [← hrow]
    constructor
    · rw [TraceRow.anomalyCount_upserted, hanomalies]
      exact hnew.length_anomalies.symm
    · rw [TraceRow.pendingCount_upserted, outcomeOf]
    · rw [htr.traceMeta, TraceRow.state_upserted]
      rfl
    · rw [TraceRow.callCount_upserted, hcount, htr.callCountDelta_eq, ← hplaces.length_eq,
        List.length_map, hversions, List.length_append, Nat.add_comm]

/-- A finalize empties `pending_calls` and overwrites the counters. -/
lemma finalize [Engine] (h : Counted key o) {db : TraceDb} {f : FinalizeOutcome}
    (hdb : TraceFinalized (o.storage.ensureTraceConn key) db f) (htraces : t.traces key = some db)
    (hindex : t.index.find? key = (o.storage.index.find? key).map
      (.finalize db.anomalies.length f.cpuSnapshotAvailable)) : Counted key ⟨t, o.recorded⟩ := by
  obtain ⟨log, hinv⟩ := h.inv
  have hconn := ensureTraceConn_of_traces htraces
  refine ⟨⟨log, hconn.symm ▸ hdb.inv hinv⟩, hconn.symm ▸ h.places.trans hdb.places.symm,
    fun hnone => ?_, fun row hrow => ?_⟩
  · rw [hindex, Option.map_eq_none_iff] at hnone
    rw [h.noRow hnone] at hdb
    exact hconn.trans hdb.eq_fresh
  · rw [hindex] at hrow
    obtain ⟨row₀, hrow₀, rfl⟩ := Option.map_eq_some_iff.mp hrow
    obtain ⟨db₀, hdb₀, hagree⟩ := h.row row₀ hrow₀
    rw [ensureTraceConn_of_traces hdb₀] at hdb
    obtain ⟨m, hm, -⟩ := Option.map_eq_some_iff.mp hagree.state
    refine ⟨db, htraces, rfl, ?_, ?_, ?_⟩
    · rw [hdb.pendingCalls]
      rfl
    · rw [hdb.traceMeta, hm]
      rfl
    · rw [hdb.places.length_eq]
      exact hagree.callCount

end Counted

/-- The trace `key` is only recorded to and finalized, each time with success. -/
def OnlySucceeds (key : TraceKey) (as : List Attempt) : Prop :=
  ∀ a ∈ as, a.op.key = key → ((a.op.IsRecord ∨ a.op.IsFinalize) ∧ a.ok = true) ∨ a.op.IsCommit

lemma OnlySucceeds.nil {key : TraceKey} : OnlySucceeds key [] := nofun

lemma OnlySucceeds.record {key key' : TraceKey} {batch : Batch} {now : Int64} {fault : CommitFault}
    {as : List Attempt} (h : OnlySucceeds key as) :
    OnlySucceeds key (⟨.record key' batch now fault, true⟩ :: as) :=
  List.forall_mem_cons.mpr ⟨fun _ => .inl ⟨.inl trivial, rfl⟩, h⟩

lemma OnlySucceeds.finalize {key key' : TraceKey} {now : Int64} {force : Bool}
    {fault : CommitFault} {as : List Attempt} (h : OnlySucceeds key as) :
    OnlySucceeds key (⟨.finalize key' now force fault, true⟩ :: as) :=
  List.forall_mem_cons.mpr ⟨fun _ => .inl ⟨.inr trivial, rfl⟩, h⟩

lemma counted_of_run [Engine] {key : TraceKey} {o o' : Observed} {as : List Attempt}
    (hrun : Run (Observed.Step key) o as o') (hok : OnlySucceeds key as) (h : Counted key o) :
    Counted key o' := by
  refine hrun.invariant (I := Counted key)
    (P := fun a : Attempt => a.op.key = key →
      ((a.op.IsRecord ∨ a.op.IsFinalize) ∧ a.ok = true) ∨ a.op.IsCommit) ?_ hok h
  rintro o a ⟨t, recorded⟩ ha ⟨hstep, hrecorded⟩ h
  obtain rfl : recorded = recordedBy key o.storage a.op ++ o.recorded := hrecorded
  obtain ⟨log, hinv⟩ := h.inv
  cases hstep.effect hinv with
  | other hk hsame =>
    rw [recordedBy_of_ne hk]
    exact h.congr hsame
  | commit htraces hindex =>
    have hconn : t.ensureTraceConn key = o.storage.ensureTraceConn key := by
      rw [Storage.ensureTraceConn, htraces, Storage.ensureTraceConn]
    exact ⟨hconn ▸ h.inv, hconn ▸ h.places, hindex ▸ hconn ▸ h.noRow, hindex ▸ htraces ▸ h.row⟩
  | record hf htr htraces _ hrow =>
    have hversions := htr.versions
    rw [recordedBy, if_pos ⟨rfl, hf⟩, ← hversions]
    exact h.record hinv htr htraces hrow
  | finalize hfin htraces hrow => exact h.finalize hfin htraces hrow
  | recordLost _ _ _ | recordTrace _ _ _ _ | finalizeLost _ _ | finalizeTrace _ _ _
  | deleteLost | deleteFiles _ _ =>
    rcases ha rfl with ⟨-, hok⟩ | hcommit
    · cases hok
    · exact hcommit.elim
  | delete _ _ =>
    rcases ha rfl with ⟨hop, -⟩ | hcommit
    · exact (hop.elim id id).elim
    · exact hcommit.elim

/-- Whatever is recorded and finalized, and in whatever order, the counters of the index row agree
with the tables of the trace, and every recorded call is in exactly one place. -/
theorem countersAgree_of_run [Engine] {key : TraceKey} {s : Storage} {o : Observed}
    {as : List Attempt} (htr : s.traces key = none) (hidx : s.index.find? key = none)
    (hrun : Run (Observed.Step key) ⟨s, []⟩ as o) (hok : OnlySucceeds key as) :
    (o.storage.index.find? key = none → o.storage.ensureTraceConn key = .fresh) ∧
    ∀ row, o.storage.index.find? key = some row → ∃ db, o.storage.traces key = some db ∧
      CountersAgree row db ∧
      row.callCount =
        ((db.nodes.rows.filter (·.nodeId ≠ syntheticRootNodeId)).map NodeRow.callCount).sum +
          db.pendingCalls.rows.length + db.anomalies.countP (·.Residual) ∧
      (o.recorded.map Call.callId).Perm db.places := by
  have h := counted_of_run hrun hok (Counted.empty htr hidx)
  refine ⟨h.noRow, fun row hrow => ?_⟩
  obtain ⟨db, hdb, hagree⟩ := h.row row hrow
  obtain ⟨log, hinv⟩ := h.inv
  have hplaces := h.places
  rw [ensureTraceConn_of_traces hdb] at hinv hplaces
  rcases hinv with ⟨hfresh, -⟩ | ⟨hwf, -⟩
  · obtain rfl : db = .fresh := hfresh
    simp [TraceDb.fresh] at hagree
    cases hagree.state
  · exact ⟨db, hdb, hagree, hagree.callCount.trans hwf.length_places, hplaces⟩

/-- A folded and a parked call, and a forced finalize. -/
theorem countersAgree_of_run_forced :
    letI := Engine.stored
    ∃ as o row db, Run (Observed.Step default) ⟨.empty, []⟩ as o ∧ OnlySucceeds default as ∧
      o.storage.index.find? default = some row ∧ o.storage.traces default = some db ∧
      row.callCount = 2 ∧ row.anomalyCount = 1 ∧ row.pendingCount = 0 ∧ row.state = .finalized ∧
      CountersAgree row db ∧ (o.recorded.map Call.callId).Perm db.places := by
  let _ := Engine.stored
  let record : Op := .record default
    { metaBlock := { (default : Meta) with sapi := "cli" }
      dict := [{ (default : DictEntry) with fnId := 7 }]
      calls := [{ (default : Call) with callId := 2, parent := 9, fnId := 7 },
        { (default : Call) with callId := 1, fnId := 7 }] } 0 .none
  let finalize : Op := .finalize default 5 true .none
  let o₁ : Observed := ⟨(record.exec .empty).1, recordedBy default .empty record⟩
  let o₂ : Observed := ⟨(finalize.exec o₁.storage).1, o₁.recorded⟩
  have hrun : Run (Observed.Step default) ⟨.empty, []⟩ [⟨record, true⟩, ⟨finalize, true⟩] o₂ :=
    .cons (t := o₁) ⟨rfl, rfl⟩ (.single ⟨rfl, rfl⟩)
  have hok : OnlySucceeds default [⟨record, true⟩, ⟨finalize, true⟩] :=
    OnlySucceeds.nil.finalize.record
  obtain ⟨-, hagree⟩ := countersAgree_of_run rfl rfl hrun hok
  obtain ⟨row, hrow, hcalls, hanomalies, hpending, hstate⟩ :
      ∃ row, o₂.storage.index.find? default = some row ∧ row.callCount = 2 ∧
        row.anomalyCount = 1 ∧ row.pendingCount = 0 ∧ row.state = .finalized :=
    ⟨_, rfl, by decide, by decide, rfl, rfl⟩
  obtain ⟨db, hdb, hagrees, -, hperm⟩ := hagree row hrow
  exact ⟨_, o₂, row, db, hrun, hok, hrow, hdb, hcalls, hanomalies, hpending, hstate, hagrees, hperm⟩

end PhpTreeViz
