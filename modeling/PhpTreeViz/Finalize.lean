import PhpTreeViz.Core.Sweep
import PhpTreeViz.Storage.Runs

/-!
# The idle-finalize loop

One tick lists the active traces past the idle cutoff and finalizes them: cleanly when the index
row counts no pending calls, forced when the last batch is older than the hard cutoff. A clean
finalize removes the raw files. The decision is taken from the index, the pending calls are in the
per-trace database.
-/

namespace PhpTreeViz

open Core

namespace Finalize

/-- `(seconds as i64) * 1_000_000_000` -/
def secondsToNanos (seconds : UInt32) : Int64 := Int64.ofNat seconds.toNat * 1000000000

/-- What fails during a tick: the query, and the finalize of each trace. -/
structure Faults where
  list : Bool := false
  finalize : TraceKey → CommitFault := fun _ => .none

/-- Whether to force the finalize. `none` defers the trace to a future tick. -/
def forceDecision (hardCutoffNs : Int64) (c : IdleCandidate) : Option Bool :=
  if c.pendingCount = 0 then some false
  else if c.lastBatchAtNs < hardCutoffNs then some true
  else none

/-- One iteration of the loop over the candidates. -/
def finalizeCandidate [Engine] (nowNs hardCutoffNs : Int64) (fault : TraceKey → CommitFault)
    (s : Storage) (c : IdleCandidate) :
    Option (Storage × Bool × Except StorageError FinalizeOutcome) :=
  (forceDecision hardCutoffNs c).map fun force =>
    let r := finalizeTrace s c.traceKey nowNs force (fault c.traceKey)
    (r.1, force, r.2)

/-- One tick at the time `nowNs`, and what came of each candidate that was not deferred. -/
def runOneTick [Engine] (s : Storage) (nowNs idleNanos maxPendingNanos : Int64)
    (faults : Faults := {}) :
    Storage × List (IdleCandidate × Bool × Except StorageError FinalizeOutcome) :=
  let idleCutoffNs := nowNs - idleNanos
  let hardCutoffNs := nowNs - maxPendingNanos
  if faults.list then (s, [])
  else
    sweep (finalizeCandidate nowNs hardCutoffNs faults.finalize)
      (listIdleActiveTraces s idleCutoffNs) s

/-! ### The candidates -/

section candidates

variable [Engine] {s : Storage} {cutoff : Int64}

lemma mem_listIdleActiveTraces {c : IdleCandidate} : c ∈ listIdleActiveTraces s cutoff ↔
    ∃ row, s.index.find? c.traceKey = some row ∧ row.state = .active ∧
      row.lastBatchAtNs < cutoff ∧ row.toIdleCandidate = c := by
  simp only [listIdleActiveTraces, List.mem_map, List.mem_filter, mem_scan, decide_eq_true_eq]
  constructor
  · rintro ⟨row, ⟨hrow, hactive, hlast⟩, rfl⟩
    exact ⟨row, Table.find?_of_mem hrow, hactive, hlast, rfl⟩
  · rintro ⟨row, hrow, hactive, hlast, rfl⟩
    exact ⟨row, ⟨(Table.find?_eq_some_iff.mp hrow).1, hactive, hlast⟩, rfl⟩

lemma nodup_listIdleActiveTraces :
    ((listIdleActiveTraces s cutoff).map IdleCandidate.traceKey).Nodup := by
  rw [listIdleActiveTraces, List.map_map]
  have hscan : ((scan s.index.rows).map TraceRow.traceKey).Nodup :=
    ((ScanOrder.scan_perm s.index.rows).map _).nodup_iff.mpr s.index.nodup
  exact hscan.sublist (List.filter_sublist.map _)

lemma framed_finalizeCandidate (nowNs hardCutoffNs : Int64) (fault : TraceKey → CommitFault) :
    Framed IdleCandidate.traceKey SameTrace (finalizeCandidate nowNs hardCutoffNs fault) where
  refl := SameTrace.refl
  trans _ _ _ _ := SameTrace.trans
  op s c t r k h hk := by
    obtain ⟨force, -, heq⟩ := Option.map_eq_some_iff.mp h
    obtain ⟨rfl, -⟩ := Prod.mk.inj heq
    exact sameTrace_finalizeTrace hk _ _ _

end candidates

/-- A tick is a run of finalize attempts on the candidates. -/
lemma run_of_runOneTick [Engine] (s : Storage) (nowNs idleNanos maxPendingNanos : Int64)
    (faults : Faults) : ∃ as,
    Run Attempt.Step s as (runOneTick s nowNs idleNanos maxPendingNanos faults).1 ∧
      ∀ a ∈ as, a.op.IsFinalize ∧
        a.op.key ∈ (listIdleActiveTraces s (nowNs - idleNanos)).map IdleCandidate.traceKey := by
  rw [runOneTick]
  split_ifs
  · exact ⟨[], .nil s, by simp⟩
  · refine ⟨_, run_of_sweep (fun c r => ⟨.finalize c.traceKey nowNs r.1
      (faults.finalize c.traceKey), r.2.isOk⟩) ?_ _ _, ?_⟩
    · intro s c t r h
      obtain ⟨force, -, heq⟩ := Option.map_eq_some_iff.mp h
      obtain ⟨rfl, rfl⟩ := Prod.mk.inj heq
      rfl
    · intro a ha
      obtain ⟨p, hp, rfl⟩ := List.mem_map.mp ha
      exact ⟨trivial, List.mem_map_of_mem (mem_of_mem_sweep hp)⟩

/-! ### Raw files -/

/-- Only a clean finalize that succeeds removes the raw directory. -/
lemma of_raw_eq_none [Engine] {s t : Storage} {key : TraceKey} {now : Int64} {force : Bool}
    {fault : CommitFault} {r : Except StorageError FinalizeOutcome}
    (h : finalizeTrace s key now force fault = (t, r)) (hdir : (s.raw key).isSome)
    (hnone : t.raw key = none) : force = false ∧ ∃ db o,
      TraceFinalized (s.ensureTraceConn key) db o ∧
      r = .ok { o with rawBytesFreed := directorySizeBytes (s.raw key) } := by
  have hraw : s.raw key ≠ none := Option.isSome_iff_ne_none.mp hdir
  cases hdb : finalizeTraceDb (s.ensureTraceConn key) with
  | error e =>
    cases fault <;> simp only [finalizeTrace, hdb, Prod.mk.injEq] at h <;>
      obtain ⟨rfl, rfl⟩ := h <;> exact absurd hnone hraw
  | ok p =>
    obtain ⟨db, o⟩ := p
    have hspec := finalizeTraceDb_spec hdb
    rw [finalizeTrace_eq hdb] at h
    cases fault with
    | «open» | trace | index =>
      obtain ⟨rfl, -⟩ := Prod.mk.inj h
      exact absurd hnone hraw
    | none =>
      cases force with
      | true =>
        obtain ⟨rfl, -⟩ := Prod.mk.inj h
        exact absurd hnone hraw
      | false => exact ⟨rfl, db, o, hspec, (Prod.mk.inj h).2.symm⟩
    | raw keeps =>
      cases force with
      | true =>
        obtain ⟨rfl, -⟩ := Prod.mk.inj h
        exact absurd hnone hraw
      | false =>
        obtain ⟨rfl, -⟩ := Prod.mk.inj h
        have hkept : (s.raw key).map (RawDir.keep keeps) = none :=
          (Function.update_self key _ s.raw).symm.trans hnone
        exact absurd (Option.map_eq_none_iff.mp hkept) hraw

lemma raw_finalizeTrace_error [Engine] {s : Storage} {key : TraceKey} {now : Int64} {force : Bool}
    {fault : CommitFault} {e : StorageError}
    (h : finalizeTraceDb (s.ensureTraceConn key) = .error e) :
    (finalizeTrace s key now force fault).1.raw = s.raw := by
  cases fault <;> simp only [finalizeTrace, h] <;> rfl

/-- A forced finalize leaves the raw files alone. -/
lemma raw_finalizeTrace_force [Engine] (s : Storage) (key : TraceKey) (now : Int64)
    (fault : CommitFault) : (finalizeTrace s key now true fault).1.raw = s.raw := by
  cases hdb : finalizeTraceDb (s.ensureTraceConn key) with
  | error e => exact raw_finalizeTrace_error hdb
  | ok p =>
    obtain ⟨db, o⟩ := p
    rw [finalizeTrace_eq hdb]
    cases fault <;> rfl

/-- A tick without faults would finalize the trace cleanly: it is listed, the index counts no
pending calls for it, and its CPU totals can be read. -/
def FinalizesCleanly [Engine] (s : Storage) (idleCutoffNs : Int64) (key : TraceKey) : Prop :=
  ∃ row, s.index.find? key = some row ∧ row.state = .active ∧ row.lastBatchAtNs < idleCutoffNs ∧
    row.pendingCount = 0 ∧
    ∃ cpu, computeCpuSnapshotAvailable (s.ensureTraceConn key).nodes = .ok cpu

/-- The raw directory that a tick removes belonged to a trace whose finalize turned no pending call
into an anomaly. -/
def DeletesOnlyClean [Engine] (s : Storage) (nowNs idleNanos maxPendingNanos : Int64) : Prop :=
  ∀ faults key, (s.raw key).isSome →
    (runOneTick s nowNs idleNanos maxPendingNanos faults).1.raw key = none →
    ∀ c force r, (c, force, r) ∈ (runOneTick s nowNs idleNanos maxPendingNanos faults).2 →
      c.traceKey = key → ∃ o, r = .ok o ∧ o.pendingDq1 = 0 ∧ o.pendingDq2 = 0

/-- The traces with raw files that a tick would finalize cleanly have no pending calls. -/
def CleanTracesDrained [Engine] (s : Storage) (idleCutoffNs : Int64) : Prop :=
  ∀ key, (s.raw key).isSome → FinalizesCleanly s idleCutoffNs key →
    (s.ensureTraceConn key).pendingCalls.rows = []

section tick

variable [Engine] {s : Storage} {nowNs idleNanos : Int64} {key : TraceKey}

/-- A clean finalize takes the raw files with it. -/
lemma runOneTick_of_finalizesCleanly (maxPendingNanos : Int64)
    (h : FinalizesCleanly s (nowNs - idleNanos) key) :
    (runOneTick s nowNs idleNanos maxPendingNanos).1.raw key = none ∧
    ∃ c o, c.traceKey = key ∧
      (c, false, .ok o) ∈ (runOneTick s nowNs idleNanos maxPendingNanos).2 ∧
      o.pendingDq1 + o.pendingDq2 = (s.ensureTraceConn key).pendingCalls.rows.length := by
  obtain ⟨row, hrow, hactive, hlast, hpending, cpu, hcpu⟩ := h
  obtain ⟨-, rfl⟩ := Table.find?_eq_some_iff.mp hrow
  have hmem : row.toIdleCandidate ∈ listIdleActiveTraces s (nowNs - idleNanos) :=
    mem_listIdleActiveTraces.mpr ⟨row, hrow, hactive, hlast, rfl⟩
  obtain ⟨u, hu, hend⟩ := (framed_finalizeCandidate nowNs (nowNs - maxPendingNanos)
    fun _ => .none).sweep_of_mem nodup_listIdleActiveTraces hmem s
  have hsame : SameTrace row.traceKey s u := hu
  obtain ⟨db, o, hdb⟩ := finalizeTraceDb_eq_ok hcpu
  have hdbu : finalizeTraceDb (u.ensureTraceConn row.traceKey) = .ok (db, o) := by
    rw [hsame.ensureTraceConn]
    exact hdb
  have hop : finalizeCandidate nowNs (nowNs - maxPendingNanos) (fun _ => .none) u
      row.toIdleCandidate = some ((finalizeTrace u row.traceKey nowNs false .none).1, false,
        (finalizeTrace u row.traceKey nowNs false .none).2) := by
    simp [finalizeCandidate, forceDecision, TraceRow.toIdleCandidate, hpending]
  rcases hend with ⟨hnone, -⟩ | ⟨v, r, hsome, hlog, hv⟩
  · rw [hop] at hnone
    cases hnone
  · rw [hop, finalizeTrace_eq hdbu, Option.some.injEq, Prod.mk.injEq] at hsome
    obtain ⟨rfl, rfl⟩ := hsome
    refine ⟨hv.raw.trans (Function.update_self _ _ _), row.toIdleCandidate, _, rfl,
      (hlog _).mpr rfl, ?_⟩
    exact (finalizeTraceDb_spec hdb).pendingDq

/-- A tick leaves the raw files of every other trace alone. -/
lemma raw_runOneTick (maxPendingNanos : Int64) (faults : Faults)
    (h : ¬ FinalizesCleanly s (nowNs - idleNanos) key) :
    (runOneTick s nowNs idleNanos maxPendingNanos faults).1.raw key = s.raw key := by
  have hframed := framed_finalizeCandidate nowNs (nowNs - maxPendingNanos) faults.finalize
  rw [runOneTick]
  split_ifs
  · rfl
  by_cases hmem : key ∈ (listIdleActiveTraces s (nowNs - idleNanos)).map IdleCandidate.traceKey
  · obtain ⟨c, hc, rfl⟩ := List.mem_map.mp hmem
    obtain ⟨u, hu, ⟨-, -, hend⟩ | ⟨v, r, hsome, -, hend⟩⟩ :=
      hframed.sweep_of_mem nodup_listIdleActiveTraces hc s
    · exact hend.raw.trans hu.raw
    · obtain ⟨force, hforce, heq⟩ := Option.map_eq_some_iff.mp hsome
      obtain ⟨rfl, -⟩ := Prod.mk.inj heq
      refine hend.raw.trans (Eq.trans ?_ hu.raw)
      obtain ⟨row, hrow, hactive, hlast, rfl⟩ := mem_listIdleActiveTraces.mp hc
      rw [forceDecision] at hforce
      split_ifs at hforce with hpending
      · -- the CPU totals cannot be read, so the finalize fails
        cases hdb : finalizeTraceDb (u.ensureTraceConn row.toIdleCandidate.traceKey) with
        | error e => rw [raw_finalizeTrace_error hdb]
        | ok p =>
          have hcpu := (finalizeTraceDb_spec hdb).cpu
          rw [hu.ensureTraceConn] at hcpu
          exact absurd ⟨row, hrow, hactive, hlast, hpending, _, hcpu⟩ h
      · obtain rfl := Option.some.inj hforce
        rw [raw_finalizeTrace_force]
  · exact (hframed.sweep_of_not_mem hmem s).raw

/-- Where the raw directory goes, a clean finalize has succeeded. -/
lemma of_raw_runOneTick_eq_none {maxPendingNanos : Int64} {faults : Faults}
    (hraw : (s.raw key).isSome)
    (hnone : (runOneTick s nowNs idleNanos maxPendingNanos faults).1.raw key = none) :
    FinalizesCleanly s (nowNs - idleNanos) key ∧
    ∀ c force r, (c, force, r) ∈ (runOneTick s nowNs idleNanos maxPendingNanos faults).2 →
      c.traceKey = key → ∃ o, r = .ok o ∧
        o.pendingDq1 + o.pendingDq2 = (s.ensureTraceConn key).pendingCalls.rows.length := by
  have hkept : s.raw key ≠ none := Option.isSome_iff_ne_none.mp hraw
  refine ⟨?_, fun c force r hlog hkey => ?_⟩
  · by_contra hclean
    exact hkept ((raw_runOneTick maxPendingNanos faults hclean).symm.trans hnone)
  · subst hkey
    rw [runOneTick] at hnone hlog
    split_ifs at hnone hlog with hlist
    · simp at hlog
    obtain ⟨u, hu, ⟨-, habsent, -⟩ | ⟨v, r', hsome, hunique, hend⟩⟩ :=
      (framed_finalizeCandidate nowNs (nowNs - maxPendingNanos) faults.finalize).sweep_of_mem
        nodup_listIdleActiveTraces (mem_of_mem_sweep hlog) s
    · exact absurd hlog (habsent _)
    · obtain rfl := (hunique _).mp hlog
      obtain ⟨force', -, heq⟩ := Option.map_eq_some_iff.mp hsome
      obtain ⟨hv, hr⟩ := Prod.mk.inj heq
      obtain ⟨-, db, o, hfin, ho⟩ := of_raw_eq_none (Prod.ext hv rfl) (hu.raw.symm ▸ hraw)
        (hend.raw.symm.trans hnone)
      rw [hu.ensureTraceConn] at hfin
      exact ⟨_, (congrArg Prod.snd hr).symm.trans ho, hfin.pendingDq⟩

/-- A tick deletes raw files of clean traces only if and only if the index is right about which
traces are clean. -/
lemma deletesOnlyClean_iff {maxPendingNanos : Int64} :
    DeletesOnlyClean s nowNs idleNanos maxPendingNanos ↔
      CleanTracesDrained s (nowNs - idleNanos) := by
  constructor
  · intro hdel key hraw hclean
    obtain ⟨hnone, c, o, hkey, hlog, hlen⟩ :=
      runOneTick_of_finalizesCleanly maxPendingNanos hclean
    obtain ⟨o', ho, h1, h2⟩ := hdel {} key hraw hnone c false _ hlog hkey
    obtain rfl := Except.ok.inj ho
    exact List.length_eq_zero_iff.mp (by omega)
  · intro hdrained faults key hraw hnone c force r hlog hkey
    obtain ⟨hclean, hall⟩ := of_raw_runOneTick_eq_none hraw hnone
    obtain ⟨o, ho, hlen⟩ := hall c force r hlog hkey
    rw [hdrained key hraw hclean, List.length_nil] at hlen
    exact ⟨o, ho, by omega, by omega⟩

end tick

/-! ### Runs without a lost index commit -/

/-- If the attempt records a batch and commits its per-trace transaction, then it also commits the
index transaction. -/
def KeepsIndex (a : Attempt) : Prop :=
  match a.op with
  | .record _ _ _ fault => fault.CommitsTrace → a.ok = true
  | _                   => True

section runs

variable [Engine] {s t : Storage} {a : Attempt}

/-- A row that counts no pending calls is right. -/
def PendingCountSound (s : Storage) (key : TraceKey) : Prop :=
  ∀ row, s.index.find? key = some row → row.pendingCount = 0 →
    (s.ensureTraceConn key).pendingCalls.rows = []

lemma pendingCountSound_step (hstep : Attempt.Step s a t) (hkeeps : KeepsIndex a)
    {key : TraceKey} {log : List Folded} {versions : List Call}
    (hinv : TraceInv ⟨s.ensureTraceConn key, log, versions⟩) (h : PendingCountSound s key) :
    PendingCountSound t key := by
  cases hstep.effect hinv with
  | other _ hsame =>
    rw [PendingCountSound, hsame.index, hsame.ensureTraceConn]
    exact h
  | commit htraces hindex =>
    rw [PendingCountSound, hindex, Storage.ensureTraceConn, htraces]
    exact h
  | recordLost _ hconn hindex | finalizeLost hconn hindex =>
    rw [PendingCountSound, hindex, hconn]
    exact h
  | recordTrace hf _ _ _ => cases hkeeps hf
  | record _ _ htraces _ hrow =>
    intro row hrow' hzero
    obtain rfl := Option.some.inj (hrow.symm.trans hrow')
    rw [TraceRow.pendingCount_upserted] at hzero
    rw [ensureTraceConn_of_traces htraces]
    exact List.length_eq_zero_iff.mp hzero
  | finalizeTrace hfin htraces _ | finalize hfin htraces _ =>
    intro row _ _
    rw [ensureTraceConn_of_traces htraces, hfin.pendingCalls]
    rfl
  | deleteLost => exact h
  | deleteFiles htraces _ | delete htraces _ =>
    intro row _ _
    rw [ensureTraceConn_of_none htraces]
    rfl

lemma pendingCountSound_of_run {as : List Attempt} (hrun : Run Attempt.Step Storage.empty as s)
    (hkeeps : ∀ a ∈ as, KeepsIndex a) (key : TraceKey) : PendingCountSound s key := by
  refine (hrun.invariant (P := KeepsIndex)
    (I := fun s => (∃ as, Run Attempt.Step Storage.empty as s) ∧ PendingCountSound s key) ?_ hkeeps
    ⟨⟨[], .nil _⟩, ?_⟩).2
  · rintro s a t hkeeps hstep ⟨⟨as, hrun⟩, h⟩
    obtain ⟨log, versions, hinv⟩ := traceInv_of_run hrun key
    exact ⟨⟨as ++ [a], hrun.append (.single hstep)⟩, pendingCountSound_step hstep hkeeps hinv h⟩
  · intro row _ _
    rfl

end runs

/-- The raw files that a tick deletes are those of clean traces exactly when the listed traces
without pending calls in the index have none in their database. In runs without a lost index commit
this is always so. -/
theorem deletesOnlyClean_iff_of_run [Engine] :
    (∀ s nowNs idleNanos maxPendingNanos,
      DeletesOnlyClean s nowNs idleNanos maxPendingNanos ↔
        CleanTracesDrained s (nowNs - idleNanos)) ∧
    ∀ as s nowNs idleNanos maxPendingNanos, Run Attempt.Step Storage.empty as s →
      (∀ a ∈ as, KeepsIndex a) → DeletesOnlyClean s nowNs idleNanos maxPendingNanos := by
  refine ⟨fun _ _ _ _ => deletesOnlyClean_iff,
    fun as s nowNs idleNanos maxPendingNanos hrun hkeeps => deletesOnlyClean_iff.mpr ?_⟩
  rintro key - ⟨row, hrow, -, -, hzero, -⟩
  exact pendingCountSound_of_run hrun hkeeps key row hrow hzero

/-- A trace with one batch. -/
theorem deletesOnlyClean_iff_of_run_one_batch :
    letI := Engine.stored
    ∃ as s, Run Attempt.Step Storage.empty as s ∧ (s.raw default).isSome ∧
      (∃ row, s.index.find? default = some row ∧ row.state = .active) ∧
      DeletesOnlyClean s 100 30 60 := by
  let _ := Engine.stored
  let commit : Op := .commit default [] .none
  let record : Op := .record default ⟨{ (default : Meta) with sapi := "cli" }, [], []⟩ 0 .none
  have hrun : Run Attempt.Step .empty [⟨commit, true⟩, ⟨record, true⟩]
      (record.exec (commit.exec .empty).1).1 := .cons rfl (.single rfl)
  refine ⟨_, _, hrun, rfl, ⟨_, rfl, rfl⟩, deletesOnlyClean_iff_of_run.2 _ _ _ _ _ hrun ?_⟩
  intro a ha
  simp only [List.mem_cons, List.not_mem_nil, or_false] at ha
  rcases ha with rfl | rfl
  · trivial
  · exact fun _ => rfl

/-- A batch with a parked call whose index commit is lost, next to one that was recorded: the tick
takes the trace for clean. -/
theorem not_deletesOnlyClean :
    letI := Engine.stored
    ¬ ∀ as s nowNs idleNanos maxPendingNanos, Run Attempt.Step Storage.empty as s →
      DeletesOnlyClean s nowNs idleNanos maxPendingNanos := by
  let _ := Engine.stored
  intro h
  let m : Meta := { (default : Meta) with schemaVersion := 1, sapi := "cli" }
  let commit : Op := .commit default [] .none
  let record : Op := .record default ⟨m, [], []⟩ 0 .none
  let parked : Call := { (default : Call) with callId := 1, fnId := 1 }
  let lost : Op := .record default ⟨m, [], [parked]⟩ 0 .index
  let s₂ : Storage := (record.exec (commit.exec .empty).1).1
  have hrun : Run Attempt.Step .empty [⟨commit, true⟩, ⟨record, true⟩, ⟨lost, false⟩]
      (lost.exec s₂).1 := .cons rfl (.cons (t := s₂) rfl (.single rfl))
  have hclean := deletesOnlyClean_iff.mp (h _ _ 100 30 60 hrun)
  have hnil := hclean default rfl ⟨_, rfl, rfl, by decide, rfl, false, rfl⟩
  cases hnil

end Finalize

end PhpTreeViz
