import PhpTreeViz.Storage.Aggregate.Basic
import PhpTreeViz.Http.Storage
import Mathlib.Logic.Function.Basic

/-!
# The storage layer

`Storage` holds `index.sqlite`, the per-trace databases and the raw directories. Its operations
commit to the per-trace database first and to the index second, and each of these commits may fail:
a `CommitFault` names the point at which an operation is cut off.
-/

namespace PhpTreeViz

open Core

structure Storage where
  index : Table TraceRow.traceKey
  traces : TraceKey → Option TraceDb
  raw : TraceKey → Option RawDir

/-- A new data directory. -/
def Storage.empty : Storage where
  index := .empty
  traces _ := none
  raw _ := none

def Storage.setTrace (s : Storage) (key : TraceKey) (db : TraceDb) : Storage :=
  { s with traces := Function.update s.traces key (some db) }

/-- Where an operation on a trace is cut off: before its file is open, before the commit of the
per-trace transaction, between that and the index commit, or in the cleanup of raw files, of which
those in `keeps` are left. -/
inductive CommitFault where
  | none
  | «open»
  | trace
  | index
  | raw (keeps : String → Bool)

/-- Open the per-trace database, with the schema applied if it is new. -/
def Storage.ensureTraceConn (s : Storage) (key : TraceKey) : TraceDb :=
  (s.traces key).getD .fresh

/-! ### Recording a batch -/

/-- `MIRROR_TRACE_META_SQL` -/
def TraceMetaRow.mirror (key : TraceKey) (m : Meta) : TraceMetaRow where
  traceKey := key
  traceId := m.traceId
  host := m.host
  pid := m.pid.toInt64
  startTimeNs := m.startTime
  sapi := m.sapi
  uriOrScript := m.uriOrScript
  state := .active
  droppedRecords := m.droppedRecords.toInt64
  cpuSnapshotAvailable := true

def DictRow.ofEntry (e : DictEntry) : DictRow where
  fnId := e.fnId
  fqn := e.fqn
  file := e.file
  line := e.line
  kind := e.kind

/-- `INSERT_DICT_SQL`: `OR IGNORE` drops a taken `fn_id` and a `kind` that fails its `CHECK`. -/
def insertDict (dict : Table DictRow.fnId) (e : DictEntry) : Table DictRow.fnId :=
  if KindAllowed e.kind then dict.insertOrIgnore (.ofEntry e) else dict

/-- The statements of the per-trace transaction before the aggregation. -/
def prepareTrace (key : TraceKey) (db : TraceDb) (batch : Batch) : TraceDb :=
  seedSyntheticRoot
    { db with
      traceMeta := some (.mirror key batch.metaBlock)
      dict := batch.dict.foldl insertDict db.dict }

/-- The per-trace transaction of `record_batch`. -/
def recordTrace [Engine] (key : TraceKey) (db : TraceDb) (batch : Batch) :
    Except StorageError (TraceDb × AggregateOutcome) :=
  aggregateCalls (prepareTrace key db batch) batch

/-- The `INSERT` branch of `UPSERT_TRACE_SQL`. -/
def TraceRow.ofBatch (key : TraceKey) (m : Meta) (receivedAtNs : Int64) (o : AggregateOutcome) :
    TraceRow where
  traceKey := key
  traceId := m.traceId
  host := m.host
  pid := m.pid.toInt64
  startTimeNs := m.startTime
  sapi := m.sapi
  uriOrScript := m.uriOrScript
  state := .active
  firstBatchAtNs := receivedAtNs
  lastBatchAtNs := receivedAtNs
  batchCount := 1
  callCount := o.callCountDelta
  totalWallNs := .integer o.totalWallNsDelta
  droppedRecords := m.droppedRecords.toInt64
  anomalyCount := o.anomaliesAdded
  cpuSnapshotAvailable := true
  pendingCount := o.pendingTotal

/-- The `ON CONFLICT DO UPDATE` branch of `UPSERT_TRACE_SQL`. -/
def TraceRow.addBatch (m : Meta) (receivedAtNs : Int64) (o : AggregateOutcome) (row : TraceRow) :
    TraceRow :=
  { row with
    batchCount := row.batchCount + 1
    callCount := row.callCount + o.callCountDelta
    totalWallNs := row.totalWallNs.add (.integer o.totalWallNsDelta)
    lastBatchAtNs := receivedAtNs
    droppedRecords := m.droppedRecords.toInt64
    anomalyCount := row.anomalyCount + o.anomaliesAdded
    pendingCount := o.pendingTotal
    state := .active }

@[simp] lemma TraceRow.traceKey_addBatch (m : Meta) (now : Int64) (o : AggregateOutcome)
    (row : TraceRow) : (row.addBatch m now o).traceKey = row.traceKey := rfl

/-- `UPSERT_TRACE_SQL`. The `CHECK` on `sapi` is evaluated for the row to insert, also when the
statement goes on to update. -/
def upsertTrace (index : Table TraceRow.traceKey) (key : TraceKey) (m : Meta)
    (receivedAtNs : Int64) (o : AggregateOutcome) :
    Except StorageError (Table TraceRow.traceKey) :=
  if SapiAllowed m.sapi then
    .ok (index.upsert (.ofBatch key m receivedAtNs o) (.addBatch m receivedAtNs o)
      (TraceRow.traceKey_addBatch m receivedAtNs o))
  else .error (.query "upsert traces row")

/-- Record a decoded batch, first in the per-trace database and then in the index. -/
def recordBatch [Engine] (s : Storage) (key : TraceKey) (batch : Batch) (receivedAtNs : Int64)
    (fault : CommitFault := .none) : Storage × Except StorageError AggregateOutcome :=
  if let .open := fault then (s, .error .open)
  else
    let db := s.ensureTraceConn key
    let s := s.setTrace key db
    match recordTrace key db batch with
    | .error e => (s, .error e)
    | .ok (db, outcome) =>
      if let .trace := fault then (s, .error (.query "trace commit"))
      else
        let s := s.setTrace key db
        if let .index := fault then (s, .error (.query "index commit"))
        else
          match upsertTrace s.index key batch.metaBlock receivedAtNs outcome with
          | .error e  => (s, .error e)
          | .ok index => ({ s with index }, .ok outcome)

/-! ### Finalizing a trace -/

structure FinalizeOutcome where
  pendingDq1 : ℕ
  pendingDq2 : ℕ
  cpuSnapshotAvailable : Bool
  rawBytesFreed : ℕ := 0
  deriving DecidableEq

/-- The anomaly of a pending row that is left at finalize. -/
def residualAnomaly (known : List UInt32) (p : PendingCall) : AnomalyRow :=
  if p.fnId ∈ known then
    { nodeId := none
      kind := .pendingParentAtFinalize
      sampleCallId := p.callId
      detail := "parent_call_id=" ++ toString p.parentCallId.toNat }
  else
    { nodeId := none
      kind := .unresolvedFn
      sampleCallId := p.callId
      detail := "fn_id=" ++ toString p.fnId.toNat }

/-- Some non-root node has CPU time. `SUM` fails when the integer total overflows. -/
def computeCpuSnapshotAvailable [Engine] (nodes : Table NodeRow.nodeId) :
    Except StorageError Bool :=
  let rows := (scan nodes.rows).filter (·.nodeId ≠ syntheticRootNodeId)
  match sumCells (rows.map NodeRow.totalCpuUNs), sumCells (rows.map NodeRow.totalCpuSNs) with
  | some u, some s => .ok (u.add s).isPositive
  | _, _           => .error (.query "query cpu_snapshot_available")

/-- The per-trace transaction of `finalize_trace`. -/
def finalizeTraceDb [Engine] (db : TraceDb) : Except StorageError (TraceDb × FinalizeOutcome) := do
  let known := knownFnIds db
  let pending := scan db.pendingCalls.rows
  let cpuAvailable ← computeCpuSnapshotAvailable db.nodes
  return (
    { db with
      traceMeta := db.traceMeta.map fun m =>
        { m with state := .finalized, cpuSnapshotAvailable := cpuAvailable }
      pendingCalls := .empty
      anomalies := db.anomalies ++ pending.map (residualAnomaly known) },
    { pendingDq1 := pending.countP (·.fnId ∉ known)
      pendingDq2 := pending.countP (·.fnId ∈ known)
      cpuSnapshotAvailable := cpuAvailable })

/-- The index update of `finalize_trace`. -/
def TraceRow.finalize (anomalyCount : ℕ) (cpuAvailable : Bool) (row : TraceRow) : TraceRow :=
  { row with
    state := .finalized
    anomalyCount := anomalyCount
    cpuSnapshotAvailable := cpuAvailable
    pendingCount := 0 }

@[simp] lemma TraceRow.traceKey_finalize (anomalyCount : ℕ) (cpuAvailable : Bool)
    (row : TraceRow) : (row.finalize anomalyCount cpuAvailable).traceKey = row.traceKey := rfl

/-- The sizes of the files in the directory, which a `u64` holds. -/
def directorySizeBytes (dir : Option RawDir) : ℕ :=
  ((dir.elim [] Table.rows).map (·.bytes.length)).foldl (fun n k => min (n + k) (2 ^ 64 - 1)) 0

/-- A directory of which only the files in `keeps` are left. -/
def RawDir.keep (keeps : String → Bool) (dir : RawDir) : RawDir where
  rows := dir.rows.filter (keeps ·.name)
  nodup := dir.nodup.sublist (List.filter_sublist.map _)

/-- Close a trace: turn its residual pending rows into anomalies, mark it finalized in both
databases, and remove its raw files unless forced. -/
def finalizeTrace [Engine] (s : Storage) (key : TraceKey) (_nowNs : Int64) (force : Bool)
    (fault : CommitFault := .none) : Storage × Except StorageError FinalizeOutcome :=
  if let .open := fault then (s, .error .open)
  else
    let db := s.ensureTraceConn key
    let s := s.setTrace key db
    match finalizeTraceDb db with
    | .error e => (s, .error e)
    | .ok (db, outcome) =>
      if let .trace := fault then (s, .error (.query "finalize trace commit"))
      else
        let s := s.setTrace key db
        if let .index := fault then (s, .error (.query "finalize index commit"))
        else
          let s := { s with
            index := s.index.modify key
              (.finalize db.anomalies.length outcome.cpuSnapshotAvailable)
              (TraceRow.traceKey_finalize _ _) }
          if force then (s, .ok outcome)
          else if let .raw keeps := fault then
            ({ s with raw := Function.update s.raw key ((s.raw key).map (RawDir.keep keeps)) },
              .error (.io "remove_dir_all"))
          else
            ({ s with raw := Function.update s.raw key none },
              .ok { outcome with rawBytesFreed := directorySizeBytes (s.raw key) })

/-! ### Listing traces -/

/-- One row of `list_idle_active_traces`. -/
structure IdleCandidate where
  traceKey : TraceKey
  pendingCount : ℕ
  lastBatchAtNs : Int64
  deriving DecidableEq

def TraceRow.toIdleCandidate (row : TraceRow) : IdleCandidate :=
  ⟨row.traceKey, row.pendingCount, row.lastBatchAtNs⟩

def listIdleActiveTraces [Engine] (s : Storage) (cutoffNs : Int64) : List IdleCandidate :=
  ((scan s.index.rows).filter fun row => row.state = .active ∧ row.lastBatchAtNs < cutoffNs).map
    TraceRow.toIdleCandidate

def listExpiredTraces [Engine] (s : Storage) (cutoffNs : Int64) : List TraceKey :=
  ((scan s.index.rows).filter (·.startTimeNs < cutoffNs)).map TraceRow.traceKey

/-! ### Deleting a trace -/

structure DeleteOutcome where
  freedBytes : ℕ
  deriving DecidableEq

/-- Where `delete_trace` is cut off: before anything is removed, after the database files, in the
removal of the raw files, or before the index row. -/
inductive DeleteFault where
  | none
  | stat
  | database
  | raw (keeps : String → Bool)
  | index

/-- Prune a trace: its files first, its index row last. A missing file is no error. -/
def deleteTrace [Engine] (s : Storage) (key : TraceKey) (fault : DeleteFault := .none) :
    Storage × Except StorageError DeleteOutcome :=
  if let .stat := fault then (s, .error (.io "stat file for freed_bytes"))
  else
    let freedBytes := min (((s.traces key).elim 0 Engine.fileSize) +
      directorySizeBytes (s.raw key)) (2 ^ 64 - 1)
    let s := { s with traces := Function.update s.traces key none }
    if let .database := fault then (s, .error (.io "remove_file"))
    else if let .raw keeps := fault then
      ({ s with raw := Function.update s.raw key ((s.raw key).map (RawDir.keep keeps)) },
        .error (.io "remove_dir_all"))
    else
      let s := { s with raw := Function.update s.raw key none }
      if let .index := fault then (s, .error (.query "delete_trace index commit"))
      else ({ s with index := s.index.erase key }, .ok { freedBytes })

end PhpTreeViz
