import PhpTreeViz.Storage.Counters

/-!
# What a finalize leaves behind

A finalize turns the pending rows into anomalies. It looks only at the functions that `dict` knows,
and takes it for granted that the caller of a row with a known function has never arrived: this is
what `Saturated` says. A second finalize finds no pending row and writes what the first one wrote,
so that an interrupted finalize can be repeated.
-/

namespace PhpTreeViz

open Core

attribute [ext] TraceDb

/-! ### Classification -/

/-- The anomaly `a` says why the pending row `p` was given up. -/
structure Classifies (db : TraceDb) (p : PendingCall) (a : AnomalyRow) : Prop where
  sampleCallId : a.sampleCallId = p.callId
  unresolvedFn : a.kind = .unresolvedFn ↔ ¬ db.dict.HasKey p.fnId
  pendingParent : a.kind = .pendingParentAtFinalize ↔ db.dict.HasKey p.fnId
  parentMissing : a.kind = .pendingParentAtFinalize →
    p.parentCallId ≠ 0 ∧ ¬ db.callToNode.HasKey p.parentCallId

/-- In `db'` each pending row of `db` has become one new anomaly, and nothing else has changed. -/
structure Drained (db db' : TraceDb) : Prop where
  anomalies : ∃ rows new, rows.Perm db.pendingCalls.rows ∧
    db'.anomalies = db.anomalies ++ new ∧ List.Forall₂ (Classifies db) rows new
  pendingCalls : db'.pendingCalls.rows = []
  nodes : db'.nodes = db.nodes
  callToNode : db'.callToNode = db.callToNode
  dict : db'.dict = db.dict

lemma Saturated.classifies {db : TraceDb} (h : Saturated db) {p : PendingCall}
    (hp : p ∈ db.pendingCalls.rows) : Classifies db p (residualAnomaly (knownFnIds db) p) := by
  rw [residualAnomaly]
  split_ifs with hfn
  · rw [mem_knownFnIds] at hfn
    refine ⟨rfl, by simp [hfn], by simp [hfn], fun _ => ?_⟩
    -- a row with a known function is pending for its caller alone
    rw [← not_or]
    exact fun hparent => h p hp ⟨hfn, hparent⟩
  · rw [mem_knownFnIds] at hfn
    exact ⟨rfl, by simp [hfn], by simp [hfn], by simp⟩

namespace TraceFinalized

variable [Engine] {db db' db₁ db₂ : TraceDb} {o o₁ o₂ : FinalizeOutcome}

lemma drained (h : TraceFinalized db db' o) (hsat : Saturated db) : Drained db db' where
  anomalies := by
    refine ⟨scan db.pendingCalls.rows, _, ScanOrder.scan_perm _, h.anomalies, ?_⟩
    rw [List.forall₂_map_right_iff, List.forall₂_same]
    exact fun p hp => hsat.classifies (mem_scan.mp hp)
  pendingCalls := by rw [h.pendingCalls, Table.rows_empty]
  nodes := h.nodes
  callToNode := h.callToNode
  dict := h.dict

/-! ### Repetition -/

lemma cpu_unique (h₁ : TraceFinalized db db₁ o₁) (h₂ : TraceFinalized db db₂ o₂) :
    o₁.cpuSnapshotAvailable = o₂.cpuSnapshotAvailable :=
  Except.ok.inj (h₁.cpu.symm.trans h₂.cpu)

lemma unique (h₁ : TraceFinalized db db₁ o₁) (h₂ : TraceFinalized db db₂ o₂) : db₁ = db₂ := by
  apply TraceDb.ext
  · rw [h₁.traceMeta, h₂.traceMeta, h₁.cpu_unique h₂]
  · rw [h₁.dict, h₂.dict]
  · rw [h₁.nodes, h₂.nodes]
  · rw [h₁.callToNode, h₂.callToNode]
  · rw [h₁.pendingCalls, h₂.pendingCalls]
  · rw [h₁.anomalies, h₂.anomalies]

lemma cpu_again (h₁ : TraceFinalized db db₁ o₁) (h₂ : TraceFinalized db₁ db₂ o₂) :
    o₂.cpuSnapshotAvailable = o₁.cpuSnapshotAvailable := by
  have hcpu := h₂.cpu
  rw [h₁.nodes, h₁.cpu] at hcpu
  exact (Except.ok.inj hcpu).symm

/-- A finalize of a finalized database finds nothing to do. -/
lemma again (h₁ : TraceFinalized db db₁ o₁) (h₂ : TraceFinalized db₁ db₂ o₂) : db₂ = db₁ := by
  have hnil : scan db₁.pendingCalls.rows = [] := by
    rw [← List.length_eq_zero_iff, length_scan, h₁.pendingCalls]
    rfl
  apply TraceDb.ext
  · rw [h₂.traceMeta, h₁.traceMeta, h₁.cpu_again h₂, Option.map_map]
    rfl
  · exact h₂.dict
  · exact h₂.nodes
  · exact h₂.callToNode
  · rw [h₂.pendingCalls, h₁.pendingCalls]
  · rw [h₂.anomalies, hnil, List.map_nil, List.append_nil]

end TraceFinalized

/-! ### Finalized traces -/

/-- The database says that the trace is finalized. -/
def TraceDb.Finalized (db : TraceDb) : Prop := db.traceMeta.map TraceMetaRow.state = some .finalized

/-- A finalized database has no pending calls. -/
def FinalizedIsDrained (s : Storage) (key : TraceKey) : Prop :=
  (s.ensureTraceConn key).Finalized → (s.ensureTraceConn key).pendingCalls.rows = []

section runs

variable [Engine] {s t : Storage} {a : Attempt} {key : TraceKey} {log : List Folded}
  {versions : List Call}

lemma finalizedIsDrained_step (hstep : Attempt.Step s a t)
    (hinv : TraceInv ⟨s.ensureTraceConn key, log, versions⟩) (h : FinalizedIsDrained s key) :
    FinalizedIsDrained t key := by
  cases hstep.effect hinv with
  | other _ hsame =>
    rw [FinalizedIsDrained, hsame.ensureTraceConn]
    exact h
  | commit htraces _ =>
    rw [FinalizedIsDrained, Storage.ensureTraceConn, htraces]
    exact h
  | recordLost _ hconn _ | finalizeLost hconn _ =>
    rw [FinalizedIsDrained, hconn]
    exact h
  | recordTrace _ htr htraces _ | record _ htr htraces _ _ =>
    intro hfin
    rw [ensureTraceConn_of_traces htraces, TraceDb.Finalized, htr.traceMeta] at hfin
    cases hfin
  | finalizeTrace hfin htraces _ | finalize hfin htraces _ =>
    intro _
    rw [ensureTraceConn_of_traces htraces, hfin.pendingCalls]
    rfl
  | deleteLost => exact h
  | deleteFiles htraces _ | delete htraces _ =>
    intro _
    rw [ensureTraceConn_of_none htraces]
    rfl

lemma finalizedIsDrained_of_run {as : List Attempt} (hrun : Run Attempt.Step Storage.empty as s)
    (key : TraceKey) : FinalizedIsDrained s key := by
  refine (hrun.invariant (P := fun _ => True)
    (I := fun s => (∃ as, Run Attempt.Step Storage.empty as s) ∧ FinalizedIsDrained s key) ?_
    (fun _ _ => trivial) ⟨⟨[], .nil _⟩, fun _ => rfl⟩).2
  rintro s a t - hstep ⟨⟨as, hrun⟩, h⟩
  obtain ⟨log, versions, hinv⟩ := traceInv_of_run hrun key
  exact ⟨⟨as ++ [a], hrun.append (.single hstep)⟩, finalizedIsDrained_step hstep hinv h⟩

/-- A finalize leaves the tables alone or drains them, and drains them if it succeeds. -/
lemma finalizeTrace_drains (hinv : TraceInv ⟨s.ensureTraceConn key, log, versions⟩) {now : Int64}
    {force : Bool} {fault : CommitFault} {r : Except StorageError FinalizeOutcome}
    (h : finalizeTrace s key now force fault = (t, r)) :
    (r.isOk = false ∧ t.ensureTraceConn key = s.ensureTraceConn key) ∨
      Drained (s.ensureTraceConn key) (t.ensureTraceConn key) := by
  rcases finalizeTrace_cases h with ⟨-, hok, hconn, -⟩ | ⟨db, o, hfin, htraces, -⟩
  · exact Or.inl ⟨hok, hconn⟩
  · right
    rw [ensureTraceConn_of_traces htraces]
    exact hfin.drained hinv.saturated

end runs

/-- A finalize gives each pending call up for the right reason and touches nothing else. As long as
the operations on a trace succeed, nothing is pending in a trace that the index or the database has
as finalized. -/
theorem drained_of_run [Engine] :
    (∀ as s t key now force fault r, Run Attempt.Step Storage.empty as s →
      finalizeTrace s key now force fault = (t, r) →
      (r.isOk = false ∧ t.ensureTraceConn key = s.ensureTraceConn key) ∨
        Drained (s.ensureTraceConn key) (t.ensureTraceConn key)) ∧
    ∀ as s key row, Run Attempt.Step Storage.empty as s → OnlySucceeds key as →
      s.index.find? key = some row →
      (row.state = .finalized ∨ (s.ensureTraceConn key).Finalized) →
      (s.ensureTraceConn key).pendingCalls.rows = [] ∧ row.pendingCount = 0 := by
  refine ⟨fun as s t key now force fault r hrun h => ?_,
    fun as s key row hrun hok hrow hstate => ?_⟩
  · obtain ⟨log, versions, hinv⟩ := traceInv_of_run hrun key
    exact finalizeTrace_drains hinv h
  · obtain ⟨recorded, hobs⟩ := Observed.exists_run hrun key []
    obtain ⟨db, hdb, hagree⟩ :=
      (counted_of_run hobs hok (Counted.empty rfl rfl)).row row hrow
    have hconn := ensureTraceConn_of_traces hdb
    have hfin : (s.ensureTraceConn key).Finalized := by
      rcases hstate with hstate | hfin
      · rw [hconn, TraceDb.Finalized, hagree.state, hstate]
      · exact hfin
    have hnil := finalizedIsDrained_of_run hrun key hfin
    refine ⟨hnil, ?_⟩
    rw [hconn] at hnil
    rw [hagree.pendingCount, hnil, List.length_nil]

/-- Two parked calls, one without its function and one without its caller. -/
theorem drained_of_run_two_parked :
    letI := Engine.stored
    ∃ as s, ∃ t : Storage, ∃ row : TraceRow, Run Attempt.Step Storage.empty as s ∧
      (s.ensureTraceConn default).pendingCalls.rows.length = 2 ∧
      Drained (s.ensureTraceConn default) (t.ensureTraceConn default) ∧
      ((t.ensureTraceConn default).anomalies.map AnomalyRow.kind =
        [.pendingParentAtFinalize, .unresolvedFn]) ∧
      t.index.find? default = some row ∧ row.state = .finalized ∧
      (t.ensureTraceConn default).pendingCalls.rows = [] ∧ row.pendingCount = 0 := by
  let _ := Engine.stored
  let record : Op := .record default
    { metaBlock := { (default : Meta) with sapi := "cli" }
      dict := [{ (default : DictEntry) with fnId := 7 }]
      calls := [{ (default : Call) with callId := 2, fnId := 8 },
        { (default : Call) with callId := 1, parent := 9, fnId := 7 }] } 0 .none
  let finalize : Op := .finalize default 5 true .none
  let s : Storage := (record.exec .empty).1
  let t : Storage := (finalize.exec s).1
  have hrun : Run Attempt.Step .empty [⟨record, true⟩] s := .single rfl
  have hrun' : Run Attempt.Step .empty [⟨record, true⟩, ⟨finalize, true⟩] t :=
    .cons (t := s) rfl (.single rfl)
  have hok : OnlySucceeds default [⟨record, true⟩, ⟨finalize, true⟩] :=
    OnlySucceeds.nil.finalize.record
  obtain ⟨row, hrow, hstate⟩ : ∃ row, t.index.find? default = some row ∧ row.state = .finalized :=
    ⟨_, rfl, rfl⟩
  obtain ⟨hnil, hzero⟩ := drained_of_run.2 _ t default row hrun' hok hrow (Or.inl hstate)
  have hdrained := (drained_of_run.1 _ s t default 5 true .none (.ok _) hrun rfl).resolve_left
    fun h => absurd h.1 (by simp [Except.isOk, Except.toBool])
  exact ⟨_, s, t, row, hrun, rfl, hdrained, by decide, hrow, hstate, hnil, hzero⟩

end PhpTreeViz
