import PhpTreeViz.Core.Table
import PhpTreeViz.Wire

/-!
# The two databases

The tables of a per-trace `<key>.sqlite` file and of `index.sqlite`. Columns that only ever hold
the `u32` ids of the wire keep that type; the columns that accumulate wire data with `+` are
`NumCell`s. Counters of rows and calls are natural numbers.
-/

namespace PhpTreeViz

open Core

/-- The 32-character stem that names the files, the lock and the index row of a trace. -/
structure TraceKey where
  stem : String
  deriving DecidableEq, Inhabited

inductive TraceState where
  | active
  | finalized
  deriving DecidableEq

/-! ### Per-trace tables -/

/-- The single row of `trace_meta`. -/
structure TraceMetaRow where
  traceKey : TraceKey
  traceId : String
  host : String
  pid : Int64
  startTimeNs : Int64
  sapi : String
  uriOrScript : String
  state : TraceState
  droppedRecords : Int64
  cpuSnapshotAvailable : Bool
  deriving DecidableEq

structure DictRow where
  fnId : UInt32
  fqn : String
  file : String
  line : UInt32
  kind : UInt8
  deriving DecidableEq

structure NodeRow where
  nodeId : ℕ
  parentNodeId : Option ℕ
  fnId : UInt32
  depth : UInt32
  callCount : ℕ := 0
  totalWallNs : NumCell := .integer 0
  childrenTotalWallNs : NumCell := .integer 0
  totalCpuUNs : NumCell := .integer 0
  totalCpuSNs : NumCell := .integer 0
  totalMemDeltaBytes : NumCell := .integer 0
  abnormalExitCount : ℕ := 0
  deriving DecidableEq

structure CallToNodeRow where
  callId : UInt32
  nodeId : ℕ
  deriving DecidableEq

structure PendingCall where
  callId : UInt32
  parentCallId : UInt32
  fnId : UInt32
  tInNs : Int64
  tOutNs : Int64
  cpuUNs : Int64
  cpuSNs : Int64
  memInBytes : Int64
  memOutBytes : Int64
  abnormalExit : Bool
  deriving DecidableEq

/-- `anomalies.kind`. -/
inductive AnomalyKind where
  | unresolvedFn
  | invertedTime
  | pendingParentAtFinalize
  deriving DecidableEq

structure AnomalyRow where
  nodeId : Option ℕ
  kind : AnomalyKind
  sampleCallId : UInt32
  detail : String
  deriving DecidableEq

/-- A per-trace `<key>.sqlite`. -/
structure TraceDb where
  traceMeta : Option TraceMetaRow
  dict : Table DictRow.fnId
  nodes : Table NodeRow.nodeId
  callToNode : Table CallToNodeRow.callId
  pendingCalls : Table PendingCall.callId
  anomalies : List AnomalyRow

/-- A file to which the schema was applied and nothing else. -/
def TraceDb.fresh : TraceDb where
  traceMeta := none
  dict := .empty
  nodes := .empty
  callToNode := .empty
  pendingCalls := .empty
  anomalies := []

/-! ### The index -/

/-- A row of `traces` in `index.sqlite`. -/
structure TraceRow where
  traceKey : TraceKey
  traceId : String
  host : String
  pid : Int64
  startTimeNs : Int64
  sapi : String
  uriOrScript : String
  state : TraceState
  firstBatchAtNs : Int64
  lastBatchAtNs : Int64
  batchCount : ℕ
  callCount : ℕ
  totalWallNs : NumCell
  droppedRecords : Int64
  anomalyCount : ℕ
  cpuSnapshotAvailable : Bool
  pendingCount : ℕ
  deriving DecidableEq

/-- `CHECK (sapi IN ('cli', 'fpm-fcgi'))` -/
def SapiAllowed (sapi : String) : Prop := sapi = "cli" ∨ sapi = "fpm-fcgi"

instance (sapi : String) : Decidable (SapiAllowed sapi) := inferInstanceAs (Decidable (_ ∨ _))

/-- `CHECK (kind BETWEEN 0 AND 3)` -/
def KindAllowed (kind : UInt8) : Prop := kind ≤ 3

instance (kind : UInt8) : Decidable (KindAllowed kind) := inferInstanceAs (Decidable (_ ≤ _))

/-- What the schema leaves to the engine: the order of the rows of each unordered query, and the
size that a database has on disk, its `-wal` and `-shm` sidecars included. -/
class Engine where
  nodes : ScanOrder NodeRow
  pendingCalls : ScanOrder PendingCall
  traces : ScanOrder TraceRow
  fileSize : TraceDb → ℕ

instance [Engine] : ScanOrder NodeRow := Engine.nodes
instance [Engine] : ScanOrder PendingCall := Engine.pendingCalls
instance [Engine] : ScanOrder TraceRow := Engine.traces

/-- An engine that reads rows in the order they were stored, with empty files. -/
@[reducible] def Engine.stored : Engine where
  nodes := .stored _
  pendingCalls := .stored _
  traces := .stored _
  fileSize _ := 0

/-- Errors of the storage layer, without the third-party source error they wrap. -/
inductive StorageError where
  | «open»
  | query (context : String)
  | io (context : String)
  deriving DecidableEq

end PhpTreeViz
