import PhpTreeViz.Storage.Schema

/-!
# Folding a batch into the tree

The functions of the aggregation layer: the in-batch loop, which folds, parks or skips each call,
and the drain of `pending_calls` that follows it.
-/

namespace PhpTreeViz

open Core

/-- `node_id = 1` is the synthetic root. -/
def syntheticRootNodeId : ℕ := 1

/-- Counters of one batch. -/
structure AggregateOutcome where
  nodesTouched : ℕ := 0
  pendingAdded : ℕ := 0
  pendingResolved : ℕ := 0
  pendingTotal : ℕ := 0
  dictPendingAdded : ℕ := 0
  dq3Inverted : ℕ := 0
  anomaliesAdded : ℕ := 0
  callCountDelta : ℕ := 0
  totalWallNsDelta : Int64 := 0
  redeliveredSkipped : ℕ := 0
  deriving DecidableEq

def NodeRow.syntheticRoot : NodeRow where
  nodeId := syntheticRootNodeId
  parentNodeId := none
  fnId := 0
  depth := 0

/-- Insert the synthetic root rows if they do not exist. -/
def seedSyntheticRoot (db : TraceDb) : TraceDb :=
  { db with
    dict := db.dict.insertOrIgnore ⟨0, "<root>", "", 0, 0⟩
    nodes := db.nodes.insertOrIgnore .syntheticRoot }

/-- The `fn_id`s of the trace's `dict`. -/
def knownFnIds (db : TraceDb) : List UInt32 := db.dict.rows.map DictRow.fnId

/-- The call is already folded or parked. -/
def CallIdAlreadyKnown (db : TraceDb) (callId : UInt32) : Prop :=
  db.callToNode.HasKey callId ∨ db.pendingCalls.HasKey callId

instance (db : TraceDb) (callId : UInt32) : Decidable (CallIdAlreadyKnown db callId) :=
  inferInstanceAs (Decidable (_ ∨ _))

def resolveParent (db : TraceDb) (parentCallId : UInt32) : Option ℕ :=
  if parentCallId = 0 then some syntheticRootNodeId
  else (db.callToNode.find? parentCallId).map CallToNodeRow.nodeId

/-! ### Folding one call -/

/-- The `ON CONFLICT DO UPDATE` branch of the node upsert. -/
def NodeRow.accumulate (c : Call) (n : NodeRow) : NodeRow :=
  { n with
    callCount := n.callCount + 1
    totalWallNs := n.totalWallNs.add (.integer c.wall)
    totalCpuUNs := n.totalCpuUNs.add (.integer c.cpuU)
    totalCpuSNs := n.totalCpuSNs.add (.integer c.cpuS)
    totalMemDeltaBytes := n.totalMemDeltaBytes.add (.integer c.memDelta)
    abnormalExitCount := n.abnormalExitCount + if c.abnormalExit then 1 else 0 }

@[simp] lemma NodeRow.nodeId_accumulate (c : Call) (n : NodeRow) :
    (n.accumulate c).nodeId = n.nodeId := rfl

/-- The `INSERT` branch of the node upsert. -/
def NodeRow.ofCall (nodeId parentNodeId : ℕ) (c : Call) : NodeRow where
  nodeId := nodeId
  parentNodeId := some parentNodeId
  fnId := c.fnId
  depth := c.depth
  callCount := 1
  totalWallNs := .integer c.wall
  totalCpuUNs := .integer c.cpuU
  totalCpuSNs := .integer c.cpuS
  totalMemDeltaBytes := .integer c.memDelta
  abnormalExitCount := if c.abnormalExit then 1 else 0

def NodeRow.bumpChildren (wall : Int64) (n : NodeRow) : NodeRow :=
  { n with childrenTotalWallNs := n.childrenTotalWallNs.add (.integer wall) }

@[simp] lemma NodeRow.nodeId_bumpChildren (wall : Int64) (n : NodeRow) :
    (n.bumpChildren wall).nodeId = n.nodeId := rfl

/-- Bump the parent's `children_total_wall_ns`. -/
def bumpParent (nodes : Table NodeRow.nodeId) (parentNodeId : ℕ) (wall : Int64) :
    Table NodeRow.nodeId :=
  nodes.modify parentNodeId (.bumpChildren wall) (NodeRow.nodeId_bumpChildren wall)

/-- The id of a new node, larger than those of all others. `AUTOINCREMENT` also uses up an id where
the upsert finds its node, so that the ids in a file have gaps: they come in the same order. No node
is ever deleted. -/
def nextNodeId (nodes : Table NodeRow.nodeId) : ℕ :=
  (nodes.rows.map NodeRow.nodeId).foldr max 0 + 1

/-- The node of a `(parent_node_id, fn_id)` bucket. -/
def findNode (nodes : Table NodeRow.nodeId) (parentNodeId : ℕ) (fnId : UInt32) : Option NodeRow :=
  nodes.rows.find? fun n => n.parentNodeId = some parentNodeId ∧ n.fnId = fnId

/-- `UPSERT_NODE_SQL`, with the foreign keys of the inserted row. -/
def upsertNode (db : TraceDb) (parentNodeId : ℕ) (c : Call) :
    Except StorageError (ℕ × Table NodeRow.nodeId) :=
  match findNode db.nodes parentNodeId c.fnId with
  | some n => .ok (n.nodeId, db.nodes.modify n.nodeId (.accumulate c) (NodeRow.nodeId_accumulate c))
  | none   =>
    if db.nodes.HasKey parentNodeId ∧ db.dict.HasKey c.fnId then
      let nodeId := nextNodeId db.nodes
      .ok (nodeId, db.nodes.insertOrIgnore (.ofCall nodeId parentNodeId c))
    else .error (.query "upsert node")

/-- `anomalies` row of a call with `t_out < t_in`. -/
def AnomalyRow.invertedTime (nodeId : ℕ) (c : Call) : AnomalyRow where
  nodeId := some nodeId
  kind := .invertedTime
  sampleCallId := c.callId
  detail := "t_in=" ++ toString c.tIn.toInt ++ ",t_out=" ++ toString c.tOut.toInt

/-- Upsert the bucket, bump the parent, map the call, and report an inverted time. -/
def foldCallIntoNodes (db : TraceDb) (parentNodeId : ℕ) (c : Call) (outcome : AggregateOutcome) :
    Except StorageError (ℕ × TraceDb × AggregateOutcome) := do
  let (nodeId, nodes) ← upsertNode db parentNodeId c
  let nodes := bumpParent nodes parentNodeId c.wall
  let db := { db with nodes, callToNode := db.callToNode.insertOrIgnore ⟨c.callId, nodeId⟩ }
  if c.Inverted then
    let db := { db with anomalies := db.anomalies ++ [.invertedTime nodeId c] }
    return (nodeId, db,
      { outcome with
        dq3Inverted := outcome.dq3Inverted + 1, anomaliesAdded := outcome.anomaliesAdded + 1 })
  else
    return (nodeId, db, outcome)

/-! ### Parking a call -/

/-- The columns of `pending_calls`: everything of a call but its depth. -/
def PendingCall.ofCall (c : Call) : PendingCall where
  callId := c.callId
  parentCallId := c.parent
  fnId := c.fnId
  tInNs := c.tIn
  tOutNs := c.tOut
  cpuUNs := c.cpuU
  cpuSNs := c.cpuS
  memInBytes := c.memIn
  memOutBytes := c.memOut
  abnormalExit := c.abnormalExit

def insertPendingCall (db : TraceDb) (c : Call) : TraceDb :=
  { db with pendingCalls := db.pendingCalls.insertOrIgnore (.ofCall c) }

/-! ### Draining `pending_calls` -/

/-- A row of the drain queries. -/
structure PendingRow extends PendingCall where
  parentNodeId : ℕ
  deriving DecidableEq

/-- The call that is folded for a pending row. -/
def PendingCall.toCall (p : PendingCall) (depth : UInt32) : Call where
  callId := p.callId
  parent := p.parentCallId
  fnId := p.fnId
  depth := depth
  tIn := p.tInNs
  tOut := p.tOutNs
  cpuU := p.cpuUNs
  cpuS := p.cpuSNs
  memIn := p.memInBytes
  memOut := p.memOutBytes
  abnormalExit := p.abnormalExit

/-- `COALESCE(c.node_id, ?1)` over the `LEFT JOIN` with `call_to_node`, and the `WHERE` filter. -/
def drainParent (db : TraceDb) (parentCallId : UInt32) : Option ℕ :=
  match db.callToNode.find? parentCallId with
  | some row => some row.nodeId
  | none     => if parentCallId = 0 then some syntheticRootNodeId else none

/-- `DRAIN_RESOLVABLE_SQL` -/
def drainResolvable [Engine] (db : TraceDb) : List PendingRow :=
  (scan db.pendingCalls.rows).filterMap fun p => (drainParent db p.parentCallId).map (⟨p, ·⟩)

/-- `DRAIN_CHILDREN_SQL` -/
def drainChildren [Engine] (db : TraceDb) (parentCallId : UInt32) (parentNodeId : ℕ) :
    List PendingRow :=
  ((scan db.pendingCalls.rows).filter (·.parentCallId = parentCallId)).map (⟨·, parentNodeId⟩)

/-- Fold one pending row at the given depth and delete it. -/
def resolvePendingRow (db : TraceDb) (row : PendingRow) (depth : UInt32)
    (outcome : AggregateOutcome) : Except StorageError (ℕ × TraceDb × AggregateOutcome) := do
  let (nodeId, db, outcome) ←
    foldCallIntoNodes db row.parentNodeId (row.toCall depth) outcome
  return (nodeId, { db with pendingCalls := db.pendingCalls.erase row.callId },
    { outcome with
      pendingResolved := outcome.pendingResolved + 1, nodesTouched := outcome.nodesTouched + 1 })

/-- A resolved call on the drain worklist. -/
structure WorkItem where
  callId : UInt32
  nodeId : ℕ
  depth : UInt32
  deriving DecidableEq

/-- The loop over the rows of a drain query. Rows with an unknown `fn_id` stay pending; each of the
others is resolved and put on the worklist. -/
def resolveRows (known : List UInt32)
    (depthOf : TraceDb → PendingRow → Except StorageError UInt32) :
    List PendingRow → TraceDb → AggregateOutcome →
      Except StorageError (List WorkItem × TraceDb × AggregateOutcome)
  | [], db, outcome => .ok ([], db, outcome)
  | row :: rows, db, outcome =>
    if row.fnId ∈ known then do
      let depth ← depthOf db row
      let (nodeId, db, outcome) ← resolvePendingRow db row depth outcome
      let (items, db, outcome) ← resolveRows known depthOf rows db outcome
      return (⟨row.callId, nodeId, depth⟩ :: items, db, outcome)
    else resolveRows known depthOf rows db outcome

/-- The depth of a seed row: one more than the depth its parent node has stored. -/
def seedDepth (db : TraceDb) (row : PendingRow) : Except StorageError UInt32 :=
  match db.nodes.find? row.parentNodeId with
  | some n => .ok (n.depth + 1)
  | none   => .error (.query "lookup seed parent depth")

/-- The cascade: pop a resolved call, resolve its pending children, push them. The first component
of the result is the worklist that is left when the fuel runs out. -/
def cascade [Engine] (known : List UInt32) :
    ℕ → List WorkItem → TraceDb → AggregateOutcome →
      Except StorageError (List WorkItem × TraceDb × AggregateOutcome)
  | 0, worklist, db, outcome       => .ok (worklist, db, outcome)
  | _ + 1, [], db, outcome         => .ok ([], db, outcome)
  | fuel + 1, item :: worklist, db, outcome => do
    let (items, db, outcome) ← resolveRows known (fun _ _ => .ok (item.depth + 1))
      (drainChildren db item.callId item.nodeId) db outcome
    cascade known fuel (worklist ++ items) db outcome

/-- Each pop leaves the worklist and each push a pending row, so this fuel empties the worklist. -/
def drainPending [Engine] (known : List UInt32) (db : TraceDb) (outcome : AggregateOutcome) :
    Except StorageError (TraceDb × AggregateOutcome) := do
  let (worklist, db, outcome) ← resolveRows known seedDepth (drainResolvable db) db outcome
  let (_, db, outcome) ←
    cascade known (worklist.length + db.pendingCalls.rows.length) worklist db outcome
  return (db, outcome)

/-! ### A whole batch -/

/-- One iteration of the in-batch loop. -/
def aggregateCall (known : List UInt32) (c : Call) (db : TraceDb) (outcome : AggregateOutcome) :
    Except StorageError (TraceDb × AggregateOutcome) :=
  if CallIdAlreadyKnown db c.callId then
    .ok (db, { outcome with redeliveredSkipped := outcome.redeliveredSkipped + 1 })
  else
    let outcome :=
      { outcome with
        callCountDelta := outcome.callCountDelta + 1
        totalWallNsDelta := outcome.totalWallNsDelta + c.wall }
    if c.fnId ∉ known then
      .ok (insertPendingCall db c,
        { outcome with
          pendingAdded := outcome.pendingAdded + 1
          dictPendingAdded := outcome.dictPendingAdded + 1 })
    else
      match resolveParent db c.parent with
      | some parentNodeId => do
        let (_, db, outcome) ← foldCallIntoNodes db parentNodeId c outcome
        return (db, { outcome with nodesTouched := outcome.nodesTouched + 1 })
      | none =>
        .ok (insertPendingCall db c, { outcome with pendingAdded := outcome.pendingAdded + 1 })

/-- The in-batch loop, over the calls in the order given. -/
def aggregateLoop (known : List UInt32) :
    List Call → TraceDb → AggregateOutcome → Except StorageError (TraceDb × AggregateOutcome)
  | [], db, outcome => .ok (db, outcome)
  | c :: calls, db, outcome => do
    let (db, outcome) ← aggregateCall known c db outcome
    aggregateLoop known calls db outcome

/-- Fold the calls of a batch, parents first, then drain `pending_calls` unless nothing can have
become resolvable. -/
def aggregateCalls [Engine] (db : TraceDb) (batch : Batch) :
    Except StorageError (TraceDb × AggregateOutcome) := do
  let known := knownFnIds db
  let (db, outcome) ← aggregateLoop known batch.calls.reverse db {}
  let (db, outcome) ←
    if batch.dict ≠ [] ∨ 0 < outcome.nodesTouched then drainPending known db outcome
    else .ok (db, outcome)
  return (db, { outcome with pendingTotal := db.pendingCalls.rows.length })

end PhpTreeViz
