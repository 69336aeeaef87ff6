import PhpTreeViz.Storage.Trace

/-!
# Runs of the storage layer

An attempt is one call of a storage operation together with whether it returned `Ok`. The
operations of other traces leave a trace alone, so a run is studied one trace at a time: for each
operation, one lemma says everything that it may do to the database and to the index row of its
own trace.
-/

namespace PhpTreeViz

open Core

/-! ### Attempts -/

/-- The calls that change the storage. A commit is the ingest path adding a raw file. -/
inductive Op where
  | record (key : TraceKey) (batch : Batch) (receivedAtNs : Int64) (fault : CommitFault)
  | finalize (key : TraceKey) (nowNs : Int64) (force : Bool) (fault : CommitFault)
  | delete (key : TraceKey) (fault : DeleteFault)
  | commit (key : TraceKey) (bytes : List UInt8) (fault : PartialFault)

namespace Op

def key : Op → TraceKey
  | .record key _ _ _ | .finalize key _ _ _ | .delete key _ | .commit key _ _ => key

/-- Run the call. The second component is whether it returned `Ok`. -/
def exec [Engine] (s : Storage) : Op → Storage × Bool
  | .record key batch receivedAtNs fault =>
    let r := recordBatch s key batch receivedAtNs fault
    (r.1, r.2.isOk)
  | .finalize key nowNs force fault =>
    let r := finalizeTrace s key nowNs force fault
    (r.1, r.2.isOk)
  | .delete key fault =>
    let r := deleteTrace s key fault
    (r.1, r.2.isOk)
  | .commit key bytes fault =>
    let r := commitPartial s.raw key bytes fault
    ({ s with raw := r.1 }, r.2.isOk)

def IsRecord : Op → Prop
  | .record _ _ _ _ => True
  | _               => False

def IsFinalize : Op → Prop
  | .finalize _ _ _ _ => True
  | _                 => False

def IsCommit : Op → Prop
  | .commit _ _ _ => True
  | _             => False

end Op

structure Attempt where
  op : Op
  ok : Bool

def Attempt.Step [Engine] (s : Storage) (a : Attempt) (t : Storage) : Prop :=
  a.op.exec s = (t, a.ok)

lemma Attempt.step_exec [Engine] {s : Storage} {op : Op} {ok : Bool} (h : (op.exec s).2 = ok) :
    Attempt.Step s ⟨op, ok⟩ (op.exec s).1 := Prod.ext rfl h

/-- The fault does not prevent the commit of the per-trace transaction. -/
def CommitFault.CommitsTrace : CommitFault → Prop
  | .open | .trace => False
  | _              => True

instance (fault : CommitFault) : Decidable fault.CommitsTrace := by
  cases fault <;> simp only [CommitFault.CommitsTrace] <;> infer_instance

/-! ### Other traces -/

/-- Nothing about the trace `key` differs. -/
structure SameTrace (key : TraceKey) (s t : Storage) : Prop where
  traces : t.traces key = s.traces key
  index : t.index.find? key = s.index.find? key
  raw : t.raw key = s.raw key

namespace SameTrace

variable {key : TraceKey} {s t u : Storage}

lemma refl (key : TraceKey) (s : Storage) : SameTrace key s s := ⟨rfl, rfl, rfl⟩

lemma trans (h : SameTrace key s t) (h' : SameTrace key t u) : SameTrace key s u :=
  ⟨h'.traces.trans h.traces, h'.index.trans h.index, h'.raw.trans h.raw⟩

lemma ensureTraceConn (h : SameTrace key s t) :
    t.ensureTraceConn key = s.ensureTraceConn key := by
  rw [Storage.ensureTraceConn, h.traces, Storage.ensureTraceConn]

end SameTrace

lemma sameTrace_setTrace {s : Storage} {key k : TraceKey} (hk : k ≠ key) (db : TraceDb) :
    SameTrace k s (s.setTrace key db) :=
  ⟨Function.update_of_ne hk _ _, rfl, rfl⟩

section frame

variable [Engine] {s : Storage} {key k : TraceKey}

lemma sameTrace_recordBatch (hk : k ≠ key) (batch : Batch) (now : Int64) (fault : CommitFault) :
    SameTrace k s (recordBatch s key batch now fault).1 := by
  have hset : ∀ db db', SameTrace k s ((s.setTrace key db).setTrace key db') := fun db db' =>
    ⟨by simp [Storage.setTrace, hk], rfl, rfl⟩
  simp only [recordBatch]
  split
  · exact ⟨rfl, rfl, rfl⟩
  · split
    · exact sameTrace_setTrace hk _
    · split
      · exact sameTrace_setTrace hk _
      · split
        · exact hset _ _
        · simp only [upsertTrace]
          split_ifs
          · exact ⟨by simp [Storage.setTrace, hk], Table.find?_upsert_of_ne hk, rfl⟩
          · exact hset _ _

lemma sameTrace_finalizeTrace (hk : k ≠ key) (now : Int64) (force : Bool) (fault : CommitFault) :
    SameTrace k s (finalizeTrace s key now force fault).1 := by
  have hset : ∀ db db', SameTrace k s ((s.setTrace key db).setTrace key db') := fun db db' =>
    ⟨by simp [Storage.setTrace, hk], rfl, rfl⟩
  simp only [finalizeTrace]
  split
  · exact ⟨rfl, rfl, rfl⟩
  · split
    · exact sameTrace_setTrace hk _
    · split
      · exact sameTrace_setTrace hk _
      · split
        · exact hset _ _
        · split_ifs
          · exact ⟨by simp [Storage.setTrace, hk],
              by simp [Storage.setTrace, Table.find?_modify_of_ne hk], rfl⟩
          · split <;>
              exact ⟨by simp [Storage.setTrace, hk],
                by simp [Storage.setTrace, Table.find?_modify_of_ne hk],
                Function.update_of_ne hk _ _⟩

lemma sameTrace_deleteTrace (hk : k ≠ key) (fault : DeleteFault) :
    SameTrace k s (deleteTrace s key fault).1 := by
  simp only [deleteTrace]
  split
  · exact ⟨rfl, rfl, rfl⟩
  · split
    · exact ⟨by simp [hk], rfl, rfl⟩
    · split
      · exact ⟨by simp [hk], rfl, by simp [hk]⟩
      · split
        · exact ⟨by simp [hk], rfl, by simp [hk]⟩
        · exact ⟨by simp [hk], Table.find?_erase_of_ne hk, by simp [hk]⟩

/-- An operation leaves every other trace as it is. -/
theorem Op.sameTrace {op : Op} (hk : k ≠ op.key) : SameTrace k s (op.exec s).1 := by
  cases op with
  | record key batch now fault => exact sameTrace_recordBatch hk batch now fault
  | finalize key now force fault => exact sameTrace_finalizeTrace hk now force fault
  | delete key fault => exact sameTrace_deleteTrace hk fault
  | commit key bytes fault => exact ⟨rfl, rfl, commitPartial_of_ne hk rfl⟩

lemma sameTrace_of_run {t : Storage} {as : List Attempt} (hrun : Run Attempt.Step s as t)
    (has : ∀ a ∈ as, a.op.key ≠ key) : SameTrace key s t := by
  refine hrun.invariant (I := SameTrace key s) (P := fun a => a.op.key ≠ key) ?_ has
    (SameTrace.refl key s)
  intro u a v ha hstep h
  have hsame := Op.sameTrace (s := u) ha.symm
  rw [show (a.op.exec u).1 = v from congrArg Prod.fst hstep] at hsame
  exact h.trans hsame

end frame

/-! ### The trace of the operation -/

/-- The index row that a batch leaves behind. -/
def TraceRow.upserted (row : Option TraceRow) (key : TraceKey) (m : Meta) (now : Int64)
    (o : AggregateOutcome) : TraceRow :=
  row.elim (.ofBatch key m now o) (.addBatch m now o)

section upserted

variable (row : Option TraceRow) (key : TraceKey) (m : Meta) (now : Int64) (o : AggregateOutcome)

@[simp] lemma TraceRow.state_upserted : (TraceRow.upserted row key m now o).state = .active := by
  cases row <;> rfl

@[simp] lemma TraceRow.pendingCount_upserted :
    (TraceRow.upserted row key m now o).pendingCount = o.pendingTotal := by
  cases row <;> rfl

@[simp] lemma TraceRow.callCount_upserted : (TraceRow.upserted row key m now o).callCount =
    row.elim 0 TraceRow.callCount + o.callCountDelta := by
  cases row <;> simp [upserted, ofBatch, addBatch]

@[simp] lemma TraceRow.anomalyCount_upserted : (TraceRow.upserted row key m now o).anomalyCount =
    row.elim 0 TraceRow.anomalyCount + o.anomaliesAdded := by
  cases row <;> simp [upserted, ofBatch, addBatch]

@[simp] lemma TraceRow.totalWallNs_upserted : (TraceRow.upserted row key m now o).totalWallNs =
    (row.elim (.integer 0) TraceRow.totalWallNs).add (.integer o.totalWallNsDelta) := by
  cases row <;> simp [upserted, ofBatch, addBatch, NumCell.zero_add_integer]

lemma find?_upsert_traceRow (index : Table TraceRow.traceKey) :
    (index.upsert (.ofBatch key m now o) (.addBatch m now o)
      (TraceRow.traceKey_addBatch m now o)).find? key =
      some (TraceRow.upserted (index.find? key) key m now o) :=
  Table.find?_upsert_self (a := TraceRow.ofBatch key m now o)

end upserted

section cases

variable {s t : Storage} {key : TraceKey}

lemma setTrace_setTrace (db db' : TraceDb) :
    (s.setTrace key db).setTrace key db' = s.setTrace key db' := by
  simp [Storage.setTrace]

@[simp] lemma traces_setTrace (db : TraceDb) : (s.setTrace key db).traces key = some db :=
  Function.update_self _ _ _

lemma ensureTraceConn_of_traces {db : TraceDb} (h : t.traces key = some db) :
    t.ensureTraceConn key = db := by
  simp [Storage.ensureTraceConn, h]

lemma ensureTraceConn_of_none (h : t.traces key = none) : t.ensureTraceConn key = .fresh := by
  simp [Storage.ensureTraceConn, h]

variable [Engine] {batch : Batch} {now : Int64} {force : Bool} {fault : CommitFault}
  {log : List Folded} {versions : List Call}

/-- What `record_batch` does once the per-trace transaction has produced `db` and `o`. -/
lemma recordBatch_eq {db : TraceDb} {o : AggregateOutcome}
    (h : recordTrace key (s.ensureTraceConn key) batch = .ok (db, o)) (now : Int64)
    (fault : CommitFault) : recordBatch s key batch now fault =
      match fault with
      | .open  => (s, .error .open)
      | .trace => (s.setTrace key (s.ensureTraceConn key), .error (.query "trace commit"))
      | .index => (s.setTrace key db, .error (.query "index commit"))
      | _      =>
        if SapiAllowed batch.metaBlock.sapi then
          ({ s.setTrace key db with
              index := s.index.upsert (.ofBatch key batch.metaBlock now o)
                (.addBatch batch.metaBlock now o)
                (TraceRow.traceKey_addBatch batch.metaBlock now o) }, .ok o)
        else (s.setTrace key db, .error (.query "upsert traces row")) := by
  cases fault <;> simp only [recordBatch, h, setTrace_setTrace, upsertTrace] <;>
    split_ifs <;> rfl

/-- The possible ends of `record_batch`, for a trace whose database is in order. -/
theorem recordBatch_cases {r : Except StorageError AggregateOutcome}
    (hinv : TraceInv ⟨s.ensureTraceConn key, log, versions⟩)
    (h : recordBatch s key batch now fault = (t, r)) :
    (¬ fault.CommitsTrace ∧ t.index = s.index ∧ r.isOk = false ∧
      t.ensureTraceConn key = s.ensureTraceConn key) ∨
    ∃ es₁ es₂ u, fault.CommitsTrace ∧
      TraceRecorded key ⟨s.ensureTraceConn key, log, versions⟩ batch es₁ es₂ u ∧
      t.traces key = some u.db ∧
      ((t.index = s.index ∧ r.isOk = false) ∨
        (SapiAllowed batch.metaBlock.sapi ∧ r = .ok (outcomeOf (es₁ ++ es₂) u) ∧
          t.index = s.index.upsert
            (.ofBatch key batch.metaBlock now (outcomeOf (es₁ ++ es₂) u))
            (.addBatch batch.metaBlock now (outcomeOf (es₁ ++ es₂) u))
            (TraceRow.traceKey_addBatch _ _ _))) := by
  obtain ⟨es₁, es₂, u, heq, hrec⟩ := recordTrace_spec hinv key batch
  rw [recordBatch_eq heq] at h
  cases fault with
  | «open» =>
    obtain ⟨rfl, rfl⟩ := Prod.mk.inj h
    exact Or.inl ⟨id, rfl, rfl, rfl⟩
  | trace =>
    obtain ⟨rfl, rfl⟩ := Prod.mk.inj h
    exact Or.inl ⟨id, rfl, rfl, ensureTraceConn_of_traces (traces_setTrace _)⟩
  | index =>
    obtain ⟨rfl, rfl⟩ := Prod.mk.inj h
    exact Or.inr ⟨es₁, es₂, u, trivial, hrec, traces_setTrace _, Or.inl ⟨rfl, rfl⟩⟩
  | none | raw keeps =>
    by_cases hsapi : SapiAllowed batch.metaBlock.sapi
    · rw [if_pos hsapi] at h
      obtain ⟨rfl, rfl⟩ := Prod.mk.inj h
      exact Or.inr ⟨es₁, es₂, u, trivial, hrec, traces_setTrace _, Or.inr ⟨hsapi, rfl, rfl⟩⟩
    · rw [if_neg hsapi] at h
      obtain ⟨rfl, rfl⟩ := Prod.mk.inj h
      exact Or.inr ⟨es₁, es₂, u, trivial, hrec, traces_setTrace _, Or.inl ⟨rfl, rfl⟩⟩

/-- What `finalize_trace` does once the per-trace transaction has produced `db` and `o`. -/
lemma finalizeTrace_eq {db : TraceDb} {o : FinalizeOutcome}
    (h : finalizeTraceDb (s.ensureTraceConn key) = .ok (db, o)) :
    finalizeTrace s key now force fault =
      let u := { s.setTrace key db with
        index := s.index.modify key (.finalize db.anomalies.length o.cpuSnapshotAvailable)
          (TraceRow.traceKey_finalize _ _) }
      match fault with
      | .open      => (s, .error .open)
      | .trace     =>
        (s.setTrace key (s.ensureTraceConn key), .error (.query "finalize trace commit"))
      | .index     => (s.setTrace key db, .error (.query "finalize index commit"))
      | .raw keeps =>
        if force then (u, .ok o)
        else ({ u with raw := Function.update s.raw key ((s.raw key).map (RawDir.keep keeps)) },
          .error (.io "remove_dir_all"))
      | .none      =>
        if force then (u, .ok o)
        else ({ u with raw := Function.update s.raw key none },
          .ok { o with rawBytesFreed := directorySizeBytes (s.raw key) }) := by
  cases fault <;> simp only [finalizeTrace, h, setTrace_setTrace] <;> split_ifs <;> rfl

/-- The possible ends of `finalize_trace`. -/
theorem finalizeTrace_cases {r : Except StorageError FinalizeOutcome}
    (h : finalizeTrace s key now force fault = (t, r)) :
    (t.index = s.index ∧ r.isOk = false ∧ t.ensureTraceConn key = s.ensureTraceConn key ∧
      t.raw = s.raw) ∨
    ∃ db o, TraceFinalized (s.ensureTraceConn key) db o ∧ t.traces key = some db ∧
      ((t.index = s.index ∧ r.isOk = false ∧ t.raw = s.raw) ∨
        t.index = s.index.modify key (.finalize db.anomalies.length o.cpuSnapshotAvailable)
          (TraceRow.traceKey_finalize _ _)) := by
  cases hdb : finalizeTraceDb (s.ensureTraceConn key) with
  | error e =>
    left
    cases fault <;> simp only [finalizeTrace, hdb, Prod.mk.injEq] at h <;>
      obtain ⟨rfl, rfl⟩ := h <;>
      first
        | exact ⟨rfl, rfl, rfl, rfl⟩
        | exact ⟨rfl, rfl, ensureTraceConn_of_traces (traces_setTrace _), rfl⟩
  | ok p =>
    obtain ⟨db, o⟩ := p
    have hspec := finalizeTraceDb_spec hdb
    rw [finalizeTrace_eq hdb] at h
    cases fault with
    | «open» =>
      obtain ⟨rfl, rfl⟩ := Prod.mk.inj h
      exact Or.inl ⟨rfl, rfl, rfl, rfl⟩
    | trace =>
      obtain ⟨rfl, rfl⟩ := Prod.mk.inj h
      exact Or.inl ⟨rfl, rfl, ensureTraceConn_of_traces (traces_setTrace _), rfl⟩
    | index =>
      obtain ⟨rfl, rfl⟩ := Prod.mk.inj h
      exact Or.inr ⟨db, o, hspec, traces_setTrace _, Or.inl ⟨rfl, rfl, rfl⟩⟩
    | none | raw keeps =>
      cases force <;> obtain ⟨rfl, rfl⟩ := Prod.mk.inj h <;>
        exact Or.inr ⟨db, o, hspec, traces_setTrace _, Or.inr rfl⟩

/-- The possible ends of `delete_trace`. -/
theorem deleteTrace_cases {fault : DeleteFault} {r : Except StorageError DeleteOutcome}
    (h : deleteTrace s key fault = (t, r)) :
    (t = s ∧ r.isOk = false) ∨
    (t.traces key = none ∧ ((t.index = s.index ∧ r.isOk = false) ∨
      (t.index = s.index.erase key ∧ r.isOk = true))) := by
  cases fault <;> simp only [deleteTrace, Prod.mk.injEq] at h <;> obtain ⟨rfl, rfl⟩ := h
  · exact Or.inr ⟨Function.update_self _ _ _, Or.inr ⟨rfl, rfl⟩⟩
  · exact Or.inl ⟨rfl, rfl⟩
  all_goals exact Or.inr ⟨Function.update_self _ _ _, Or.inl ⟨rfl, rfl⟩⟩

end cases

/-! ### What an attempt does to one trace -/

/-- What an attempt may do to the trace `key`, with the history of its database. An operation that
does not return `Ok` may have committed its per-trace transaction, and a finalize also its index
transaction. -/
inductive Effect [Engine] (key : TraceKey) (s : Storage) (log : List Folded)
    (versions : List Call) : Attempt → Storage → Prop where
  | other {a : Attempt} {t : Storage} :
      a.op.key ≠ key → SameTrace key s t → Effect key s log versions a t
  | commit {bytes : List UInt8} {fault : PartialFault} {ok : Bool} {t : Storage} :
      t.traces key = s.traces key → t.index = s.index →
      Effect key s log versions ⟨.commit key bytes fault, ok⟩ t
  | recordLost {batch : Batch} {now : Int64} {fault : CommitFault} {t : Storage} :
      ¬ fault.CommitsTrace → t.ensureTraceConn key = s.ensureTraceConn key → t.index = s.index →
      Effect key s log versions ⟨.record key batch now fault, false⟩ t
  | recordTrace {batch : Batch} {now : Int64} {fault : CommitFault} {t : Storage}
      {es₁ es₂ : List Event} {u : Traced} :
      fault.CommitsTrace →
      TraceRecorded key ⟨s.ensureTraceConn key, log, versions⟩ batch es₁ es₂ u →
      t.traces key = some u.db → t.index = s.index →
      Effect key s log versions ⟨.record key batch now fault, false⟩ t
  | record {batch : Batch} {now : Int64} {fault : CommitFault} {t : Storage}
      {es₁ es₂ : List Event} {u : Traced} :
      fault.CommitsTrace →
      TraceRecorded key ⟨s.ensureTraceConn key, log, versions⟩ batch es₁ es₂ u →
      t.traces key = some u.db → SapiAllowed batch.metaBlock.sapi →
      t.index.find? key = some (.upserted (s.index.find? key) key batch.metaBlock now
        (outcomeOf (es₁ ++ es₂) u)) →
      Effect key s log versions ⟨.record key batch now fault, true⟩ t
  | finalizeLost {now : Int64} {force : Bool} {fault : CommitFault} {t : Storage} :
      t.ensureTraceConn key = s.ensureTraceConn key → t.index = s.index →
      Effect key s log versions ⟨.finalize key now force fault, false⟩ t
  | finalizeTrace {now : Int64} {force : Bool} {fault : CommitFault} {t : Storage} {db : TraceDb}
      {o : FinalizeOutcome} :
      TraceFinalized (s.ensureTraceConn key) db o → t.traces key = some db → t.index = s.index →
      Effect key s log versions ⟨.finalize key now force fault, false⟩ t
  | finalize {now : Int64} {force : Bool} {fault : CommitFault} {ok : Bool} {t : Storage}
      {db : TraceDb} {o : FinalizeOutcome} :
      TraceFinalized (s.ensureTraceConn key) db o → t.traces key = some db →
      t.index.find? key = (s.index.find? key).map
        (.finalize db.anomalies.length o.cpuSnapshotAvailable) →
      Effect key s log versions ⟨.finalize key now force fault, ok⟩ t
  | deleteLost {fault : DeleteFault} :
      Effect key s log versions ⟨.delete key fault, false⟩ s
  | deleteFiles {fault : DeleteFault} {t : Storage} :
      t.traces key = none → t.index = s.index →
      Effect key s log versions ⟨.delete key fault, false⟩ t
  | delete {fault : DeleteFault} {t : Storage} :
      t.traces key = none → t.index.find? key = none →
      Effect key s log versions ⟨.delete key fault, true⟩ t

/-- Everything that an attempt may do to a trace whose database is in order. -/
theorem Attempt.Step.effect [Engine] {s t : Storage} {a : Attempt} (hstep : Attempt.Step s a t)
    {key : TraceKey} {log : List Folded} {versions : List Call}
    (hinv : TraceInv ⟨s.ensureTraceConn key, log, versions⟩) : Effect key s log versions a t := by
  obtain ⟨op, ok⟩ := a
  obtain ⟨hst, hres⟩ := Prod.mk.inj hstep
  by_cases hk : key = op.key
  · cases op with
    | record k batch now fault =>
      obtain rfl : key = k := hk
      rcases recordBatch_cases hinv (Prod.ext hst rfl :
          recordBatch s key batch now fault = (t, (recordBatch s key batch now fault).2))
        with ⟨hf, hindex, hok, hconn⟩ | ⟨es₁, es₂, u, hf, hrec, htraces, ⟨hindex, hok⟩ |
          ⟨hsapi, hok, hindex⟩⟩
      · obtain rfl : false = ok := hok.symm.trans hres
        exact .recordLost hf hconn hindex
      · obtain rfl : false = ok := hok.symm.trans hres
        exact .recordTrace hf hrec htraces hindex
      · obtain rfl : true = ok := (congrArg Except.isOk hok).symm.trans hres
        exact .record hf hrec htraces hsapi (by rw [hindex, find?_upsert_traceRow])
    | finalize k now force fault =>
      obtain rfl : key = k := hk
      rcases finalizeTrace_cases (Prod.ext hst rfl :
          finalizeTrace s key now force fault = (t, (finalizeTrace s key now force fault).2))
        with ⟨hindex, hok, hconn, -⟩ | ⟨db, o, hfin, htraces, ⟨hindex, hok, -⟩ | hindex⟩
      · obtain rfl : false = ok := hok.symm.trans hres
        exact .finalizeLost hconn hindex
      · obtain rfl : false = ok := hok.symm.trans hres
        exact .finalizeTrace hfin htraces hindex
      · exact .finalize hfin htraces (by rw [hindex, Table.find?_modify_self])
    | delete k fault =>
      obtain rfl : key = k := hk
      rcases deleteTrace_cases (Prod.ext hst rfl :
          deleteTrace s key fault = (t, (deleteTrace s key fault).2))
        with ⟨rfl, hok⟩ | ⟨htraces, ⟨hindex, hok⟩ | ⟨hindex, hok⟩⟩
      · obtain rfl : false = ok := hok.symm.trans hres
        exact .deleteLost
      · obtain rfl : false = ok := hok.symm.trans hres
        exact .deleteFiles htraces hindex
      · obtain rfl : true = ok := hok.symm.trans hres
        exact .delete htraces (by rw [hindex, Table.find?_erase_self])
    | commit k bytes fault =>
      obtain rfl : key = k := hk
      obtain rfl : _ = t := hst
      exact .commit rfl rfl
  · have hsame := Op.sameTrace (s := s) hk
    rw [show (op.exec s).1 = t from hst] at hsame
    exact .other (fun h => hk h.symm) hsame

/-! ### Every reachable database is in order -/

/-- The calls of the trace `key` that an operation records. -/
def recordedBy [Engine] (key : TraceKey) (s : Storage) : Op → List Call
  | .record k batch _ fault =>
    if k = key ∧ fault.CommitsTrace then newCalls (s.ensureTraceConn key) batch.calls else []
  | _ => []

lemma recordedBy_of_ne [Engine] {key : TraceKey} {s : Storage} {op : Op} (hk : op.key ≠ key) :
    recordedBy key s op = [] := by
  cases op with
  | record k batch now fault => exact if_neg fun h => hk h.1
  | _ => rfl

section traceInv

variable [Engine] {s t : Storage} {a : Attempt} {key : TraceKey} {versions : List Call}

theorem Attempt.Step.traceInv (hstep : Attempt.Step s a t)
    (h : ∃ log, TraceInv ⟨s.ensureTraceConn key, log, versions⟩) :
    ∃ log, TraceInv ⟨t.ensureTraceConn key, log, recordedBy key s a.op ++ versions⟩ := by
  obtain ⟨log, hinv⟩ := h
  cases hstep.effect hinv with
  | other hk hsame =>
    rw [recordedBy_of_ne hk, hsame.ensureTraceConn]
    exact ⟨log, hinv⟩
  | commit htraces _ =>
    exact ⟨log, by rw [Storage.ensureTraceConn, htraces]; exact hinv⟩
  | recordLost hf hconn _ =>
    rw [recordedBy, if_neg (by simp [hf]), hconn]
    exact ⟨log, hinv⟩
  | @recordTrace _ _ _ _ _ _ u hf hrec htraces _ | @record _ _ _ _ _ _ u hf hrec htraces _ _ =>
    rw [ensureTraceConn_of_traces htraces, recordedBy, if_pos ⟨rfl, hf⟩, ← hrec.versions]
    exact ⟨u.log, hrec.inv⟩
  | finalizeLost hconn _ =>
    rw [hconn]
    exact ⟨log, hinv⟩
  | finalizeTrace hfin htraces _ | finalize hfin htraces _ =>
    rw [ensureTraceConn_of_traces htraces]
    exact ⟨log, hfin.inv hinv⟩
  | deleteLost => exact ⟨log, hinv⟩
  | deleteFiles htraces _ | delete htraces _ =>
    rw [ensureTraceConn_of_none htraces]
    exact ⟨[], TraceInv.fresh _⟩

/-- The database of a trace is in order in every reachable state, whatever went wrong. -/
theorem traceInv_of_run {as : List Attempt} (h : Run Attempt.Step Storage.empty as s)
    (key : TraceKey) : ∃ log versions, TraceInv ⟨s.ensureTraceConn key, log, versions⟩ := by
  refine h.invariant (I := fun s => ∃ log versions, TraceInv ⟨s.ensureTraceConn key, log, versions⟩)
    (P := fun _ => True) ?_ (fun _ _ => trivial) ?_
  · rintro s a t - hstep ⟨log, versions, hinv⟩
    obtain ⟨log', hinv'⟩ := hstep.traceInv ⟨log, hinv⟩
    exact ⟨log', _, hinv'⟩
  · exact ⟨[], [], TraceInv.fresh _⟩

end traceInv

/-! ### Runs with the history of one trace -/

/-- The storage and the calls of one trace recorded so far, the latest first. -/
structure Observed where
  storage : Storage
  recorded : List Call

def Observed.Step [Engine] (key : TraceKey) (o : Observed) (a : Attempt) (o' : Observed) : Prop :=
  Attempt.Step o.storage a o'.storage ∧
    o'.recorded = recordedBy key o.storage a.op ++ o.recorded

/-- Every run can be observed. -/
lemma Observed.exists_run [Engine] {s t : Storage} {as : List Attempt}
    (h : Run Attempt.Step s as t) (key : TraceKey) (recorded : List Call) :
    ∃ recorded', Run (Observed.Step key) ⟨s, recorded⟩ as ⟨t, recorded'⟩ := by
  induction h generalizing recorded with
  | nil s => exact ⟨recorded, .nil _⟩
  | @cons s t u a as hstep _ ih =>
    obtain ⟨recorded', hrun⟩ := ih (recordedBy key s a.op ++ recorded)
    exact ⟨recorded', .cons ⟨hstep, rfl⟩ hrun⟩

/-- The version of a call that was recorded last. -/
def Observed.version (o : Observed) (callId : UInt32) : Option Call :=
  o.recorded.find? (·.callId = callId)

/-- The calls that an operation records are calls of its batch. -/
lemma recordedBy_subset [Engine] {key : TraceKey} {s : Storage} {op : Op} {c : Call}
    (hc : c ∈ recordedBy key s op) :
    ∃ batch now fault, op = .record key batch now fault ∧ c ∈ batch.calls := by
  cases op with
  | record k batch now fault =>
    simp only [recordedBy] at hc
    split_ifs at hc with h
    · obtain ⟨rfl, -⟩ := h
      exact ⟨batch, now, fault, rfl, newCalls_sublist.subset hc⟩
    · simp at hc
  | finalize _ _ _ _ | delete _ _ | commit _ _ => simp [recordedBy] at hc

theorem Observed.traceInv_of_run [Engine] {key : TraceKey} {o o' : Observed} {as : List Attempt}
    (h : Run (Observed.Step key) o as o')
    (h0 : ∃ log, TraceInv ⟨o.storage.ensureTraceConn key, log, o.recorded⟩) :
    ∃ log, TraceInv ⟨o'.storage.ensureTraceConn key, log, o'.recorded⟩ := by
  refine h.invariant
    (I := fun o : Observed => ∃ log, TraceInv ⟨o.storage.ensureTraceConn key, log, o.recorded⟩)
    (P := fun _ => True) ?_ (fun _ _ => trivial) h0
  rintro o a o' - ⟨hstep, hrec⟩ hinv
  rw [hrec]
  exact hstep.traceInv hinv

/-- The database of a trace that was observed from its first batch on. -/
lemma Observed.wellFormed_of_run [Engine] {key : TraceKey} {s : Storage} {o : Observed}
    {as : List Attempt} {db : TraceDb} (hempty : s.traces key = none)
    (hrun : Run (Observed.Step key) ⟨s, []⟩ as o) (hdb : o.storage.traces key = some db) :
    db = .fresh ∨ ∃ log, WellFormed ⟨db, log, o.recorded⟩ := by
  obtain ⟨log, hinv⟩ := Observed.traceInv_of_run hrun
    ⟨[], by rw [ensureTraceConn_of_none hempty]; exact TraceInv.fresh _⟩
  rw [ensureTraceConn_of_traces hdb] at hinv
  exact hinv.imp And.left fun h => ⟨log, h.1⟩

end PhpTreeViz
