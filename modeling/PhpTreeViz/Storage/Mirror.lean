import PhpTreeViz.Storage.Counters
import PhpTreeViz.Storage.Delivery

/-!
# The mirror of the index row

`trace_meta` repeats ten columns of the index row of its trace. A batch replaces the whole mirror,
but of the index row it updates only some of these columns. The two part as soon as a batch comes
with another meta block than the first one, or reaches a trace that a finalize found to be without
CPU times.
-/

namespace PhpTreeViz

open Core

/-- The columns of the index row that `trace_meta` repeats. -/
def TraceRow.mirrored (row : TraceRow) : TraceMetaRow where
  traceKey := row.traceKey
  traceId := row.traceId
  host := row.host
  pid := row.pid
  startTimeNs := row.startTimeNs
  sapi := row.sapi
  uriOrScript := row.uriOrScript
  state := row.state
  droppedRecords := row.droppedRecords
  cpuSnapshotAvailable := row.cpuSnapshotAvailable

/-- The two rows of the trace `key` agree on every column that they share. -/
def MirrorAgrees (key : TraceKey) (s : Storage) : Prop :=
  ∀ row, s.index.find? key = some row → (s.ensureTraceConn key).traceMeta = some row.mirrored

/-- The meta block is the one with which the row was created, and no finalize has found the trace to
be without CPU times. -/
structure Repeats (row : TraceRow) (m : Meta) : Prop where
  traceId : m.traceId = row.traceId
  host : m.host = row.host
  pid : m.pid.toInt64 = row.pid
  startTimeNs : m.startTime = row.startTimeNs
  sapi : m.sapi = row.sapi
  uriOrScript : m.uriOrScript = row.uriOrScript
  cpuSnapshotAvailable : row.cpuSnapshotAvailable = true

/-- If the attempt delivers a batch for a listed trace, its meta block repeats what the row says. -/
def RepeatsRow (key : TraceKey) (s : Storage) (a : Attempt) : Prop :=
  ∀ b ∈ a.batch key, ∀ row, s.index.find? key = some row → Repeats row b.metaBlock

/-- An attempt whose batch repeats what the index row says. -/
def RepeatingStep [Engine] (key : TraceKey) (s : Storage) (a : Attempt) (t : Storage) : Prop :=
  Attempt.Step s a t ∧ RepeatsRow key s a

/-! ### One row -/

lemma mirror_eq_mirrored_addBatch_iff (m : Meta) (now : Int64) (o : AggregateOutcome)
    (row : TraceRow) :
    TraceMetaRow.mirror row.traceKey m = (row.addBatch m now o).mirrored ↔ Repeats row m := by
  simp only [TraceMetaRow.mirror, TraceRow.mirrored, TraceRow.addBatch, TraceMetaRow.mk.injEq,
    true_and]
  constructor
  · rintro ⟨htrace, hhost, hpid, hstart, hsapi, huri, hcpu⟩
    exact ⟨htrace, hhost, hpid, hstart, hsapi, huri, hcpu.symm⟩
  · rintro ⟨htrace, hhost, hpid, hstart, hsapi, huri, hcpu⟩
    exact ⟨htrace, hhost, hpid, hstart, hsapi, huri, hcpu.symm⟩

/-- A finalize patches the same two columns on both sides. -/
lemma mirrored_finalize (n : ℕ) (cpu : Bool) (row : TraceRow) : (row.finalize n cpu).mirrored =
    { row.mirrored with state := .finalized, cpuSnapshotAvailable := cpu } := rfl

/-! ### One attempt -/

section runs

variable [Engine] {key : TraceKey} {s t : Storage} {a : Attempt} {as : List Attempt}

lemma mirrorAgrees_step
    (ha : a.op.key = key → ((a.op.IsRecord ∨ a.op.IsFinalize) ∧ a.ok = true) ∨ a.op.IsCommit)
    {log : List Folded} {versions : List Call}
    (hinv : TraceInv ⟨s.ensureTraceConn key, log, versions⟩) (h : MirrorAgrees key s)
    (hstep : Attempt.Step s a t) : MirrorAgrees key t ↔ RepeatsRow key s a := by
  cases hstep.effect hinv with
  | other hk hsame =>
    refine iff_of_true ?_ (by simp [RepeatsRow, Attempt.batch_of_ne hk])
    rw [MirrorAgrees, hsame.index, hsame.ensureTraceConn]
    exact h
  | commit htraces hindex =>
    refine iff_of_true ?_ (by simp [RepeatsRow, Attempt.batch])
    rw [MirrorAgrees, hindex, Storage.ensureTraceConn, htraces]
    exact h
  | @record batch now fault _ _ _ _ _ htr htraces _ hrow =>
    have hbatch : Attempt.batch key ⟨.record key batch now fault, true⟩ = [batch] := if_pos rfl
    rw [MirrorAgrees, RepeatsRow, hbatch, hrow, ensureTraceConn_of_traces htraces, htr.traceMeta]
    simp only [Option.some.injEq, forall_eq', List.mem_singleton, forall_eq]
    cases hold : s.index.find? key with
    | none => exact iff_of_true rfl (by simp)
    | some row =>
      obtain ⟨-, rfl⟩ := Table.find?_eq_some_iff.mp hold
      simp only [Option.some.injEq, forall_eq']
      exact mirror_eq_mirrored_addBatch_iff _ _ _ _
  | finalize hfin htraces hrow =>
    refine iff_of_true ?_ (by simp [RepeatsRow, Attempt.batch])
    intro row hrow'
    rw [hrow] at hrow'
    obtain ⟨row₀, hrow₀, rfl⟩ := Option.map_eq_some_iff.mp hrow'
    rw [ensureTraceConn_of_traces htraces, hfin.traceMeta, h row₀ hrow₀, mirrored_finalize]
    rfl
  | recordLost _ _ _ | recordTrace _ _ _ _ | finalizeLost _ _ | finalizeTrace _ _ _
  | deleteLost | deleteFiles _ _ =>
    rcases ha rfl with ⟨-, hok⟩ | hcommit
    · cases hok
    · exact hcommit.elim
  | delete _ _ =>
    rcases ha rfl with ⟨hop, -⟩ | hcommit
    · exact (hop.elim id id).elim
    · exact hcommit.elim

/-- Along a run of successful operations on a trace, the mirror agrees with the index row in every
state exactly when each batch for the listed trace repeats what the row says. -/
theorem mirrorAgrees_iff_of_run (htr : s.traces key = none) (hidx : s.index.find? key = none)
    (hrun : Run Attempt.Step s as t) (hok : OnlySucceeds key as) :
    (∀ as' u, as' <+: as → Run Attempt.Step s as' u → MirrorAgrees key u) ↔
      Run (RepeatingStep key) s as t := by
  refine hrun.all_reached_iff
    (I := fun s => ∃ log versions, TraceInv ⟨s.ensureTraceConn key, log, versions⟩)
    (Q := fun a : Attempt => a.op.key = key →
      ((a.op.IsRecord ∨ a.op.IsFinalize) ∧ a.ok = true) ∨ a.op.IsCommit)
    (fun s a t t' h h' => congrArg Prod.fst (h.symm.trans h')) ?_ hok ?_ ?_
  · rintro s a t ha ⟨log, versions, hinv⟩ h hstep
    obtain ⟨log', hinv'⟩ := hstep.traceInv ⟨log, hinv⟩
    exact ⟨⟨log', _, hinv'⟩, mirrorAgrees_step ha hinv h hstep⟩
  · rw [ensureTraceConn_of_none htr]
    exact ⟨[], [], TraceInv.fresh []⟩
  · simp [MirrorAgrees, hidx]

end runs

/-- The same batch twice, then a finalize. -/
theorem mirrorAgrees_iff_of_run_twice :
    letI := Engine.stored
    ∃ as t row, Run Attempt.Step .empty as t ∧ OnlySucceeds default as ∧
      t.index.find? default = some row ∧ row.batchCount = 2 ∧ row.state = .finalized ∧
      ∀ as' u, as' <+: as → Run Attempt.Step .empty as' u → MirrorAgrees default u := by
  let _ := Engine.stored
  let record : Op := .record default ⟨{ (default : Meta) with sapi := "cli" }, [], []⟩ 0 .none
  let finalize : Op := .finalize default 5 true .none
  let s₁ : Storage := (record.exec .empty).1
  let s₂ : Storage := (record.exec s₁).1
  let t : Storage := (finalize.exec s₂).1
  have hrun : Run Attempt.Step .empty [⟨record, true⟩, ⟨record, true⟩, ⟨finalize, true⟩] t :=
    .cons (t := s₁) rfl (.cons (t := s₂) rfl (.single rfl))
  have hok : OnlySucceeds default [⟨record, true⟩, ⟨record, true⟩, ⟨finalize, true⟩] :=
    OnlySucceeds.nil.finalize.record.record
  have hfirst : RepeatsRow default .empty ⟨record, true⟩ := by
    rintro b - row ⟨⟩
  have hsecond : RepeatsRow default s₁ ⟨record, true⟩ := by
    intro b hb row hrow
    obtain rfl : b = _ := List.mem_singleton.mp hb
    obtain rfl := Option.some.inj hrow
    exact ⟨rfl, rfl, rfl, rfl, rfl, rfl, rfl⟩
  have hrepeats : Run (RepeatingStep default) .empty
      [⟨record, true⟩, ⟨record, true⟩, ⟨finalize, true⟩] t :=
    .cons (t := s₁) ⟨rfl, hfirst⟩ (.cons (t := s₂) ⟨rfl, hsecond⟩ (.single ⟨rfl, by
      intro b hb
      cases hb⟩))
  obtain ⟨row, hrow, hcount, hstate⟩ : ∃ row, t.index.find? default = some row ∧
      row.batchCount = 2 ∧ row.state = .finalized := ⟨_, rfl, rfl, rfl⟩
  exact ⟨_, t, row, hrun, hok, hrow, hcount, hstate,
    (mirrorAgrees_iff_of_run rfl rfl hrun hok).mpr hrepeats⟩

/-- A batch that is late for a trace without CPU times sets the flag in the mirror alone. -/
theorem not_mirrorAgrees :
    letI := Engine.stored
    ¬ ∀ key as t, Run Attempt.Step .empty as t → OnlySucceeds key as → MirrorAgrees key t := by
  let _ := Engine.stored
  intro h
  let record : Op := .record default
    ⟨{ (default : Meta) with schemaVersion := 1, sapi := "cli" }, [], []⟩ 0 .none
  let finalize : Op := .finalize default 5 false .none
  let s₁ : Storage := (record.exec .empty).1
  let s₂ : Storage := (finalize.exec s₁).1
  let t : Storage := (record.exec s₂).1
  have hrun : Run Attempt.Step .empty [⟨record, true⟩, ⟨finalize, true⟩, ⟨record, true⟩] t :=
    .cons (t := s₁) rfl (.cons (t := s₂) rfl (.single rfl))
  have hagrees := h default _ t hrun OnlySucceeds.nil.record.finalize.record
  have hcpu := congrArg (Option.map TraceMetaRow.cpuSnapshotAvailable) (hagrees _ rfl)
  cases hcpu

end PhpTreeViz
