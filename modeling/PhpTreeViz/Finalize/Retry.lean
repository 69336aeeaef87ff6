import PhpTreeViz.Finalize
import PhpTreeViz.Storage.Residuals

/-!
# Repeating an interrupted finalize

The first commit of a finalize destroys the pending rows from which it computed the anomalies. The
retry still arrives at the same two databases: it finds the anomalies written, counts them in full
instead of adding to the index, and is made at all because the index row is as it was, active and
with its old number of pending calls.
-/

namespace PhpTreeViz

open Core

/-! ### Stages of a finalize -/

/-- Both transactions of a finalize that found the trace as it is in `s` are committed in `t`. -/
structure Closed [Engine] (key : TraceKey) (s t : Storage) (db : TraceDb) (o : FinalizeOutcome) :
    Prop where
  finalized : TraceFinalized (s.ensureTraceConn key) db o
  traces : t.traces key = some db
  index : t.index.find? key =
    (s.index.find? key).map (.finalize db.anomalies.length o.cpuSnapshotAvailable)

/-- How far the finalizes of a trace that was found as it is in `s` have come in `t`: nothing is
committed, or the per-trace transaction, or both. -/
inductive Stage [Engine] (key : TraceKey) (s t : Storage) : Prop where
  | open (hconn : t.ensureTraceConn key = s.ensureTraceConn key)
      (hindex : t.index.find? key = s.index.find? key)
  | trace (db : TraceDb) (o : FinalizeOutcome)
      (hfin : TraceFinalized (s.ensureTraceConn key) db o) (htraces : t.traces key = some db)
      (hindex : t.index.find? key = s.index.find? key)
  | closed (db : TraceDb) (o : FinalizeOutcome) (hclosed : Closed key s t db o)

section stages

variable [Engine] {key : TraceKey} {s t u : Storage} {now : Int64} {force : Bool}
  {fault : CommitFault} {r : Except StorageError FinalizeOutcome}

/-- The database that a finalize writes is the same at every stage. -/
lemma TraceFinalized.of_stage (hstage : Stage key s t) {db : TraceDb} {o : FinalizeOutcome}
    (h : TraceFinalized (t.ensureTraceConn key) db o) :
    ∃ o', TraceFinalized (s.ensureTraceConn key) db o' ∧
      o'.cpuSnapshotAvailable = o.cpuSnapshotAvailable := by
  have hlater : ∀ db' o', TraceFinalized (s.ensureTraceConn key) db' o' →
      t.traces key = some db' → ∃ o', TraceFinalized (s.ensureTraceConn key) db o' ∧
        o'.cpuSnapshotAvailable = o.cpuSnapshotAvailable := by
    intro db' o' hfin htraces
    rw [ensureTraceConn_of_traces htraces] at h
    exact ⟨o', hfin.again h ▸ hfin, (hfin.cpu_again h).symm⟩
  cases hstage with
  | «open» hconn _ => exact ⟨o, hconn ▸ h, rfl⟩
  | trace db' o' hfin htraces _ => exact hlater db' o' hfin htraces
  | closed db' o' hclosed => exact hlater db' o' hclosed.finalized hclosed.traces

/-- A finalize that commits nothing leaves an existing database where it is. -/
lemma traces_finalizeTrace {db : TraceDb} (htraces : t.traces key = some db)
    (h : finalizeTrace t key now force fault = (u, r))
    (hconn : u.ensureTraceConn key = t.ensureTraceConn key) : u.traces key = some db := by
  have hsome : (u.traces key).isSome := by
    rw [← show (finalizeTrace t key now force fault).1 = u from congrArg Prod.fst h]
    cases hdb : finalizeTraceDb (t.ensureTraceConn key) with
    | error e => cases fault <;> simp [finalizeTrace, hdb, htraces]
    | ok p =>
      rw [finalizeTrace_eq hdb]
      cases fault <;> cases force <;> simp [htraces]
  obtain ⟨db', hdb'⟩ := Option.isSome_iff_exists.mp hsome
  rw [ensureTraceConn_of_traces hdb', ensureTraceConn_of_traces htraces] at hconn
  rw [hdb', hconn]

/-- Once both transactions are committed, another finalize writes the same again. -/
lemma Closed.finalize {db : TraceDb} {o : FinalizeOutcome} (hclosed : Closed key s t db o)
    (h : finalizeTrace t key now force fault = (u, r)) : Closed key s u db o := by
  rcases finalizeTrace_cases h with ⟨hindex, -, hconn, -⟩ | ⟨db', o', hfin, htraces, hindex⟩
  · refine ⟨hclosed.finalized, traces_finalizeTrace hclosed.traces h hconn, ?_⟩
    rw [hindex, hclosed.index]
  · rw [ensureTraceConn_of_traces hclosed.traces] at hfin
    obtain rfl := hclosed.finalized.again hfin
    refine ⟨hclosed.finalized, htraces, ?_⟩
    rcases hindex with ⟨hindex, -, -⟩ | hindex
    · rw [hindex, hclosed.index]
    · rw [hindex, Table.find?_modify_self, hclosed.index, hclosed.finalized.cpu_again hfin,
        Option.map_map]
      congr 1

/-- A finalize moves on to a later stage or stays, and one that succeeds ends in the last. -/
lemma Stage.finalize (hstage : Stage key s t)
    (h : finalizeTrace t key now force fault = (u, r)) :
    Stage key s u ∧ (r.isOk → ∃ db o, Closed key s u db o) := by
  by_cases hdone : ∃ db o, Closed key s t db o
  · obtain ⟨db, o, hclosed⟩ := hdone
    have hclosed' := hclosed.finalize h
    exact ⟨.closed db o hclosed', fun _ => ⟨db, o, hclosed'⟩⟩
  have hrow : t.index.find? key = s.index.find? key := by
    cases hstage with
    | «open» _ hindex | trace _ _ _ _ hindex => exact hindex
    | closed db o hclosed => exact absurd ⟨db, o, hclosed⟩ hdone
  rcases finalizeTrace_cases h with ⟨hindex, hok, hconn, -⟩ | ⟨db, o, hfin, htraces, hindex⟩
  · refine ⟨?_, by simp [hok]⟩
    rw [← hindex] at hrow
    cases hstage with
    | «open» hconn' _ => exact .open (hconn.trans hconn') hrow
    | trace db o hfin htraces _ =>
      exact .trace db o hfin (traces_finalizeTrace htraces h hconn) hrow
    | closed db o hclosed => exact absurd ⟨db, o, hclosed⟩ hdone
  · obtain ⟨o', hfin', hcpu⟩ := hfin.of_stage hstage
    rcases hindex with ⟨hindex, hok, -⟩ | hindex
    · rw [← hindex] at hrow
      exact ⟨.trace db o' hfin' htraces hrow, by simp [hok]⟩
    · have hclosed : Closed key s u db o' := by
        refine ⟨hfin', htraces, ?_⟩
        rw [hindex, Table.find?_modify_self, hrow, hcpu]
      exact ⟨.closed db o' hclosed, fun _ => ⟨db, o', hclosed⟩⟩

/-- What belongs to other traces and the raw files does not matter. -/
lemma Closed.congr {db : TraceDb} {o : FinalizeOutcome} (hclosed : Closed key s t db o)
    (htraces : u.traces key = t.traces key) (hindex : u.index.find? key = t.index.find? key) :
    Closed key s u db o :=
  ⟨hclosed.finalized, htraces.trans hclosed.traces, hindex.trans hclosed.index⟩

lemma Stage.congr (hstage : Stage key s t) (htraces : u.traces key = t.traces key)
    (hindex : u.index.find? key = t.index.find? key) : Stage key s u := by
  have hconn : u.ensureTraceConn key = t.ensureTraceConn key := by
    rw [Storage.ensureTraceConn, htraces, Storage.ensureTraceConn]
  cases hstage with
  | «open» hconn' hindex' => exact .open (hconn.trans hconn') (hindex.trans hindex')
  | trace db o hfin htraces' hindex' =>
    exact .trace db o hfin (htraces.trans htraces') (hindex.trans hindex')
  | closed db o hclosed => exact .closed db o (hclosed.congr htraces hindex)

end stages

/-! ### Runs of finalizes -/

/-- On the trace `key` the attempt is a finalize or adds a raw file. -/
def Attempt.NoBatch (key : TraceKey) (a : Attempt) : Prop :=
  a.op.key = key → a.op.IsFinalize ∨ a.op.IsCommit

/-- The attempt is a finalize of the trace `key` that returns `Ok`. -/
def Attempt.Completes (key : TraceKey) (a : Attempt) : Prop :=
  a.op.key = key ∧ a.op.IsFinalize ∧ a.ok = true

section runs

variable [Engine] {key : TraceKey} {s t u : Storage} {as : List Attempt} {a : Attempt}

/-- What an attempt without a batch does to the two databases of a trace. -/
lemma Attempt.Step.noBatch (hstep : Attempt.Step t a u) (ha : a.NoBatch key) :
    (u.traces key = t.traces key ∧ u.index.find? key = t.index.find? key ∧
        ¬ a.Completes key) ∨
      ∃ now force fault r, finalizeTrace t key now force fault = (u, r) ∧ r.isOk = a.ok := by
  obtain ⟨op, ok⟩ := a
  obtain ⟨hu, hok⟩ := Prod.mk.inj hstep
  by_cases hk : op.key = key
  · cases op with
    | finalize k now force fault =>
      obtain rfl : k = key := hk
      exact Or.inr ⟨now, force, fault, _, Prod.ext hu rfl, hok⟩
    | commit k bytes =>
      obtain rfl : _ = u := hu
      exact Or.inl ⟨rfl, rfl, fun h => h.2.1⟩
    | record _ _ _ _ | delete _ _ => exact ((ha hk).elim id id).elim
  · have hsame : SameTrace key t (op.exec t).1 := Op.sameTrace fun h => hk h.symm
    rw [show (op.exec t).1 = u from hu] at hsame
    exact Or.inl ⟨hsame.traces, hsame.index, fun h => hk h.1⟩

lemma stage_of_run (hrun : Run Attempt.Step t as u) (has : ∀ a ∈ as, a.NoBatch key)
    (hstage : Stage key s t) : Stage key s u := by
  refine hrun.invariant (I := Stage key s) (P := Attempt.NoBatch key) ?_ has hstage
  intro t a u ha hstep hstage
  rcases hstep.noBatch ha with ⟨htraces, hindex, -⟩ | ⟨now, force, fault, r, h, -⟩
  · exact hstage.congr htraces hindex
  · exact (hstage.finalize h).1

lemma closed_of_run {db : TraceDb} {o : FinalizeOutcome} (hrun : Run Attempt.Step t as u)
    (has : ∀ a ∈ as, a.NoBatch key) (hclosed : Closed key s t db o) : Closed key s u db o := by
  refine hrun.invariant (I := fun t => Closed key s t db o) (P := Attempt.NoBatch key) ?_ has
    hclosed
  intro t a u ha hstep hclosed
  rcases hstep.noBatch ha with ⟨htraces, hindex, -⟩ | ⟨now, force, fault, r, h, -⟩
  · exact hclosed.congr htraces hindex
  · exact hclosed.finalize h

/-- A finalize that completes leaves both databases closed, however often it was tried before and
is repeated after. -/
theorem exists_closed_of_run (hrun : Run Attempt.Step s as t) (has : ∀ a ∈ as, a.NoBatch key)
    (hdone : ∃ a ∈ as, a.Completes key) : ∃ db o, Closed key s t db o := by
  obtain ⟨a, ha, hcomp⟩ := hdone
  obtain ⟨as₁, as₂, rfl⟩ := List.append_of_mem ha
  obtain ⟨u, hrun₁, hrun₂⟩ := hrun.split
  obtain ⟨v, hstep, hrun₂⟩ := Run.cons_iff.mp hrun₂
  have hstage : Stage key s u := stage_of_run hrun₁
    (fun a ha => has a (List.mem_append_left _ ha)) (.open rfl rfl)
  obtain ⟨db, o, hclosed⟩ : ∃ db o, Closed key s v db o := by
    rcases hstep.noBatch (has a ha) with ⟨-, -, hnot⟩ | ⟨now, force, fault, r, h, hok⟩
    · exact absurd hcomp hnot
    · exact (hstage.finalize h).2 (hok.trans hcomp.2.2)
  exact ⟨db, o, closed_of_run hrun₂ (fun a ha => has a (by simp [ha])) hclosed⟩

/-- An uninterrupted finalize closes both databases in the same way. -/
lemma Closed.uninterrupted {db : TraceDb} {o : FinalizeOutcome} (h : Closed key s t db o)
    (now : Int64) (force : Bool) : ∃ u o', finalizeTrace s key now force = (u, .ok o') ∧
      t.traces key = u.traces key ∧ t.index.find? key = u.index.find? key := by
  obtain ⟨db', o', heq⟩ := finalizeTraceDb_eq_ok h.finalized.cpu
  have hspec := finalizeTraceDb_spec heq
  obtain rfl := h.finalized.unique hspec
  have hrow : t.index.find? key =
      (s.index.find? key).map (.finalize db.anomalies.length o'.cpuSnapshotAvailable) := by
    rw [h.index, h.finalized.cpu_unique hspec]
  cases force with
  | false => exact ⟨_, _, finalizeTrace_eq heq, by simp [h.traces], by simp [hrow]⟩
  | true => exact ⟨_, _, finalizeTrace_eq heq, by simp [h.traces], by simp [hrow]⟩

end runs

/-! ### The next tick -/

namespace Finalize

lemma toInt_secondsToNanos (seconds : UInt32) :
    (secondsToNanos seconds).toInt = seconds.toNat * 1000000000 := by
  have hlt := seconds.toNat_lt
  have hsec : (Int64.ofNat seconds.toNat).toInt = seconds.toNat :=
    Int64.toInt_ofNat_of_lt (by omega)
  have hbillion : (1000000000 : Int64).toInt = 1000000000 := by decide
  rw [secondsToNanos, Int64.toInt_mul, hsec, hbillion]
  exact Int.bmod_eq_of_le_mul_two (by norm_num; omega) (by norm_num; omega)

/-- A cutoff is computed without overflow once the clock is past the epoch. -/
lemma toInt_cutoff {now : Int64} (hnow : 0 ≤ now) (seconds : UInt32) :
    (now - secondsToNanos seconds).toInt = now.toInt - seconds.toNat * 1000000000 := by
  have h0 : 0 ≤ now.toInt := by simpa using Int64.le_iff_toInt_le.mp hnow
  have hnow' := now.toInt_lt
  have hlt := seconds.toNat_lt
  rw [Int64.toInt_sub, toInt_secondsToNanos]
  exact Int.bmod_eq_of_le_mul_two (by norm_num; omega) (by norm_num; omega)

/-- When the clock does not go backwards, neither do the cutoffs. -/
lemma lt_cutoff_of_le {now now' last : Int64} (hnow : 0 ≤ now) (hle : now ≤ now')
    (seconds : UInt32) (hlast : last < now - secondsToNanos seconds) :
    last < now' - secondsToNanos seconds := by
  rw [Int64.lt_iff_toInt_lt] at hlast ⊢
  rw [toInt_cutoff (Int64.le_trans hnow hle)]
  rw [toInt_cutoff hnow] at hlast
  have := Int64.le_iff_toInt_le.mp hle
  omega

/-- A tick that is cut off after `n` candidates. -/
def runOneTickUntil [Engine] (n : ℕ) (s : Storage) (nowNs idleNanos maxPendingNanos : Int64)
    (faults : Faults := {}) :
    Storage × List (IdleCandidate × Bool × Except StorageError FinalizeOutcome) :=
  let idleCutoffNs := nowNs - idleNanos
  let hardCutoffNs := nowNs - maxPendingNanos
  if faults.list then (s, [])
  else
    sweep (finalizeCandidate nowNs hardCutoffNs faults.finalize)
      ((listIdleActiveTraces s idleCutoffNs).take n) s

section tick

variable [Engine] {s t : Storage} {c : IdleCandidate} {force : Bool}

lemma index_finalizeTrace_index (s : Storage) (key : TraceKey) (now : Int64) (force : Bool) :
    (finalizeTrace s key now force .index).1.index = s.index := by
  simp only [finalizeTrace]
  split <;> rfl

/-- The tick decides to finalize the trace with the given value of `force`. -/
def Selects (s : Storage) (idleCutoffNs hardCutoffNs : Int64) (c : IdleCandidate) (force : Bool) :
    Prop :=
  c ∈ listIdleActiveTraces s idleCutoffNs ∧ forceDecision hardCutoffNs c = some force

/-- What a tick attempted it had selected, and a lost index commit leaves the row as it was. -/
lemma selects_of_mem_runOneTickUntil {n : ℕ} {nowNs idleNanos maxPendingNanos : Int64}
    {faults : Faults} {r : Except StorageError FinalizeOutcome}
    (hmem : (c, force, r) ∈ (runOneTickUntil n s nowNs idleNanos maxPendingNanos faults).2)
    (hfault : faults.finalize c.traceKey = .index) :
    Selects s (nowNs - idleNanos) (nowNs - maxPendingNanos) c force ∧
      (runOneTickUntil n s nowNs idleNanos maxPendingNanos faults).1.index.find? c.traceKey =
        s.index.find? c.traceKey := by
  rw [runOneTickUntil] at hmem ⊢
  split_ifs at hmem ⊢
  · simp at hmem
  have hc := mem_of_mem_sweep hmem
  have hnodup : (((listIdleActiveTraces s (nowNs - idleNanos)).take n).map
      IdleCandidate.traceKey).Nodup :=
    nodup_listIdleActiveTraces.sublist ((List.take_sublist _ _).map _)
  obtain ⟨u, hu, ⟨-, habsent, -⟩ | ⟨v, r', hsome, hunique, hend⟩⟩ :=
    (framed_finalizeCandidate nowNs (nowNs - maxPendingNanos) faults.finalize).sweep_of_mem
      hnodup hc s
  · exact absurd hmem (habsent _)
  · obtain rfl := (hunique _).mp hmem
    obtain ⟨force', hforce, heq⟩ := Option.map_eq_some_iff.mp hsome
    simp only [Prod.mk.injEq] at heq
    obtain ⟨rfl, rfl, -⟩ := heq
    refine ⟨⟨List.mem_of_mem_take hc, hforce⟩, ?_⟩
    rw [hend.index, hfault, index_finalizeTrace_index, hu.index]

/-- A tick attempts what it selects. -/
lemma mem_runOneTick_of_selects {nowNs idleNanos maxPendingNanos : Int64} {faults : Faults}
    (hlist : faults.list = false)
    (h : Selects s (nowNs - idleNanos) (nowNs - maxPendingNanos) c force) :
    ∃ r, (c, force, r) ∈ (runOneTick s nowNs idleNanos maxPendingNanos faults).2 := by
  obtain ⟨hc, hforce⟩ := h
  obtain ⟨u, -, ⟨hnone, -⟩ | ⟨v, r, hsome, hunique, -⟩⟩ :=
    (framed_finalizeCandidate nowNs (nowNs - maxPendingNanos) faults.finalize).sweep_of_mem
      nodup_listIdleActiveTraces hc s
  · rw [finalizeCandidate, hforce] at hnone
    cases hnone
  · rw [finalizeCandidate, hforce, Option.map_some, Option.some.injEq, Prod.mk.injEq] at hsome
    refine ⟨r.2, ?_⟩
    rw [runOneTick, if_neg (by simp [hlist])]
    rw [hunique, ← hsome.2]

/-- A trace whose index row stays as it is is selected again, with the same value of `force`. -/
lemma Selects.again {now now' : Int64} {idleSeconds maxPendingSeconds : UInt32}
    (h : Selects s (now - secondsToNanos idleSeconds) (now - secondsToNanos maxPendingSeconds) c
      force) (hnow : 0 ≤ now) (hle : now ≤ now')
    (hrow : t.index.find? c.traceKey = s.index.find? c.traceKey) :
    Selects t (now' - secondsToNanos idleSeconds) (now' - secondsToNanos maxPendingSeconds) c
      force := by
  obtain ⟨hc, hforce⟩ := h
  obtain ⟨row, hrow', hactive, hlast, hcand⟩ := mem_listIdleActiveTraces.mp hc
  refine ⟨mem_listIdleActiveTraces.mpr ⟨row, hrow.trans hrow', hactive,
    lt_cutoff_of_le hnow hle _ hlast, hcand⟩, ?_⟩
  rw [forceDecision] at hforce ⊢
  split_ifs at hforce with hzero hhard
  · rw [if_pos hzero, hforce]
  · rw [if_neg hzero, if_pos (lt_cutoff_of_le hnow hle _ hhard), hforce]

lemma index_of_run {as : List Attempt} {key : TraceKey} (hrun : Run Attempt.Step s as t)
    (has : ∀ a ∈ as, a.op.key = key → a.op.IsCommit) :
    t.index.find? key = s.index.find? key := by
  refine hrun.invariant (I := fun t => t.index.find? key = s.index.find? key)
    (P := fun a => a.op.key = key → a.op.IsCommit) ?_ has rfl
  intro t a u ha hstep h
  have hno : a.NoBatch key := fun hk => Or.inr (ha hk)
  obtain ⟨op, ok⟩ := a
  obtain ⟨hu, -⟩ := Prod.mk.inj hstep
  by_cases hk : op.key = key
  · cases op with
    | commit k bytes =>
      obtain rfl : _ = u := hu
      exact h
    | record _ _ _ _ | finalize _ _ _ _ | delete _ _ => exact (ha hk).elim
  · have hsame : SameTrace key t (op.exec t).1 := Op.sameTrace fun h => hk h.symm
    rw [show (op.exec t).1 = u from hu] at hsame
    exact hsame.index.trans h

end tick

/-- Whatever interrupts the finalizes of a trace, once one of them completes the two databases are
what one uninterrupted finalize would have left. An attempt of a tick that was lost between the
commits is made again by the next tick, with the same value of `force`. -/
theorem converges_of_run [Engine] :
    (∀ as s t key, Run Attempt.Step s as t → (∀ a ∈ as, a.NoBatch key) →
      (∃ a ∈ as, a.Completes key) → ∀ now force, ∃ u o,
        finalizeTrace s key now force = (u, .ok o) ∧ t.traces key = u.traces key ∧
        t.index.find? key = u.index.find? key) ∧
    ∀ as n s t now now' idleSeconds maxPendingSeconds faults faults' c force r, 0 ≤ now →
      now ≤ now' → faults'.list = false →
      (c, force, r) ∈ (runOneTickUntil n s now (secondsToNanos idleSeconds)
        (secondsToNanos maxPendingSeconds) faults).2 →
      faults.finalize c.traceKey = .index →
      Run Attempt.Step (runOneTickUntil n s now (secondsToNanos idleSeconds)
        (secondsToNanos maxPendingSeconds) faults).1 as t →
      (∀ a ∈ as, a.op.key = c.traceKey → a.op.IsCommit) →
      ∃ r', (c, force, r') ∈ (runOneTick t now' (secondsToNanos idleSeconds)
        (secondsToNanos maxPendingSeconds) faults').2 := by
  refine ⟨fun as s t key hrun has hdone now force => ?_,
    fun as n s t now now' idle pending faults faults' c force r h0 hle hlist hmem hfault hrun
      has => ?_⟩
  · obtain ⟨db, o, hclosed⟩ := exists_closed_of_run hrun has hdone
    exact hclosed.uninterrupted now force
  · obtain ⟨hsel, hrow⟩ := selects_of_mem_runOneTickUntil hmem hfault
    exact mem_runOneTick_of_selects hlist
      (hsel.again h0 hle ((index_of_run hrun has).trans hrow))

/-- A forced finalize that loses its index commit in one tick and completes in the next. -/
theorem converges_of_run_lost :
    letI := Engine.stored
    ∃ s t : Storage, ∃ u o c r r', (s.ensureTraceConn default).pendingCalls.HasKey 1 ∧
      (c, true, .error r) ∈
        (runOneTickUntil 1 s 10 (secondsToNanos 0) (secondsToNanos 0) ⟨false, fun _ => .index⟩).2 ∧
      (c, true, r') ∈ (runOneTick (runOneTickUntil 1 s 10 (secondsToNanos 0) (secondsToNanos 0)
        ⟨false, fun _ => .index⟩).1 20 (secondsToNanos 0) (secondsToNanos 0)).2 ∧
      finalizeTrace s default 5 false = (u, .ok o) ∧ t.traces default = u.traces default ∧
      t.index.find? default = u.index.find? default := by
  let _ := Engine.stored
  let record : Op := .record default
    { metaBlock := { (default : Meta) with sapi := "cli" }
      dict := []
      calls := [{ (default : Call) with callId := 1, fnId := 7 }] } 0 .none
  let s : Storage := (record.exec .empty).1
  let lost : Op := .finalize default 10 true .index
  let retry : Op := .finalize default 20 true .none
  let s' : Storage := (lost.exec s).1
  let t : Storage := (retry.exec s').1
  have hrun : Run Attempt.Step s [⟨lost, false⟩, ⟨retry, true⟩] t :=
    .cons (t := s') rfl (.single rfl)
  obtain ⟨u, o, hu, htraces, hindex⟩ := converges_of_run.1 _ s t default hrun
    (by simp [Attempt.NoBatch, lost, retry, Op.IsFinalize])
    ⟨⟨retry, true⟩, by simp, rfl, trivial, rfl⟩ 5 false
  have hmem : (⟨default, 1, 0⟩, true, .error (.query "finalize index commit")) ∈
      (runOneTickUntil 1 s 10 (secondsToNanos 0) (secondsToNanos 0) ⟨false, fun _ => .index⟩).2 :=
    List.mem_singleton.mpr rfl
  obtain ⟨r', hr'⟩ := converges_of_run.2 [] 1 s _ 10 20 0 0 _ {} _ _ _ (by decide) (by decide) rfl
    hmem rfl (.nil _) (by simp)
  exact ⟨s, t, u, o, _, _, r', by decide, hmem, hr', hu, htraces, hindex⟩

end Finalize

end PhpTreeViz
