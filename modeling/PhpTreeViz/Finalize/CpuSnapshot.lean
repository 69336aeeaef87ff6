import PhpTreeViz.Core.Summing
import PhpTreeViz.Finalize
import PhpTreeViz.Storage.ContextTree

/-!
# The CPU flag of a finalized trace

`cpu_snapshot_available` is `false` when no node other than the root has CPU time. The query looks
at one grand total instead. CPU times come from the producer as they are, so that the total may
overflow, which makes every finalize of the trace fail, and times of opposite sign may cancel.
-/

namespace PhpTreeViz

open Core

/-- No CPU time is left for the node: `total_cpu_u_ns + total_cpu_s_ns == 0`. -/
def NodeRow.NoCpu (r : NodeRow) : Prop := r.totalCpuUNs.value + r.totalCpuSNs.value = 0

namespace Finalize

/-! ### The two totals -/

section totals

variable [Engine]

/-- The rows that the query adds up, in the order in which the engine reads them. -/
def userNodes (nodes : Table NodeRow.nodeId) : List NodeRow :=
  (scan nodes.rows).filter (·.nodeId ≠ syntheticRootNodeId)

def cpuU (nodes : Table NodeRow.nodeId) : List ℤ :=
  ((userNodes nodes).map NodeRow.totalCpuUNs).map NumCell.value

def cpuS (nodes : Table NodeRow.nodeId) : List ℤ :=
  ((userNodes nodes).map NodeRow.totalCpuSNs).map NumCell.value

/-- The CPU times of no single node have left the 64-bit range. -/
structure CpuIntegers (nodes : Table NodeRow.nodeId) : Prop where
  u : ∀ r ∈ userNodes nodes, r.totalCpuUNs.toInt?.isSome
  s : ∀ r ∈ userNodes nodes, r.totalCpuSNs.toInt?.isSome

/-- No running total leaves the 64-bit range, and the grand total is positive if there is any CPU
time. -/
structure CpuCountable (nodes : Table NodeRow.nodeId) : Prop where
  integers : CpuIntegers nodes
  fitsU : RunningFitsI64 (cpuU nodes)
  fitsS : RunningFitsI64 (cpuS nodes)
  counted : 0 < (cpuU nodes).sum + (cpuS nodes).sum ∨ ∀ r ∈ userNodes nodes, r.NoCpu

variable {nodes : Table NodeRow.nodeId}

lemma mem_userNodes {r : NodeRow} :
    r ∈ userNodes nodes ↔ r ∈ nodes.rows ∧ r.nodeId ≠ syntheticRootNodeId := by
  simp [userNodes]

lemma CpuIntegers.holdU (h : CpuIntegers nodes) :
    HoldIntegers ((userNodes nodes).map NodeRow.totalCpuUNs) (cpuU nodes) :=
  holdIntegers_value (List.forall_mem_map.mpr h.u)

lemma CpuIntegers.holdS (h : CpuIntegers nodes) :
    HoldIntegers ((userNodes nodes).map NodeRow.totalCpuSNs) (cpuS nodes) :=
  holdIntegers_value (List.forall_mem_map.mpr h.s)

lemma computeCpuSnapshotAvailable_eq_ok (h : CpuIntegers nodes)
    (hu : RunningFitsI64 (cpuU nodes)) (hs : RunningFitsI64 (cpuS nodes)) :
    computeCpuSnapshotAvailable nodes =
      .ok (decide (0 < (cpuU nodes).sum + (cpuS nodes).sum)) := by
  by_cases hnil : userNodes nodes = []
  · have hsumU : cpuU nodes = [] := by rw [cpuU, hnil]; rfl
    have hsumS : cpuS nodes = [] := by rw [cpuS, hnil]; rfl
    rw [userNodes] at hnil
    rw [computeCpuSnapshotAvailable, hnil, hsumU, hsumS]
    rfl
  · have hU := sumCells_eq_integer h.holdU (by simpa using hnil) hu
    have hS := sumCells_eq_integer h.holdS (by simpa using hnil) hs
    rw [userNodes] at hU hS
    simp only [computeCpuSnapshotAvailable, hU, hS, NumValue.isPositive_add hu.sum hs.sum]

lemma computeCpuSnapshotAvailable_eq_error (h : CpuIntegers nodes)
    (hfits : ¬ (RunningFitsI64 (cpuU nodes) ∧ RunningFitsI64 (cpuS nodes))) :
    computeCpuSnapshotAvailable nodes = .error (.query "query cpu_snapshot_available") := by
  by_cases hu : RunningFitsI64 (cpuU nodes)
  · have hS := sumCells_eq_none h.holdS fun hs => hfits ⟨hu, hs⟩
    rw [userNodes] at hS
    rw [computeCpuSnapshotAvailable, hS]
    cases sumCells (List.map NodeRow.totalCpuUNs _) with
    | none   => rfl
    | some u => rfl
  · have hU := sumCells_eq_none h.holdU hu
    rw [userNodes] at hU
    simp only [computeCpuSnapshotAvailable, hU]

end totals

/-! ### Finalizes without faults -/

/-- Both databases say of a trace whether it has CPU times. -/
structure Flagged (t : Storage) (key : TraceKey) (flag : Bool) : Prop where
  trace : ∀ m, (t.ensureTraceConn key).traceMeta = some m → m.cpuSnapshotAvailable = flag
  index : ∀ row, t.index.find? key = some row → row.cpuSnapshotAvailable = flag

/-- Without faults a finalize succeeds, and it says that there are no CPU times exactly if no node
other than the root has any. -/
def FinalizeSound [Engine] (s : Storage) (key : TraceKey) : Prop :=
  ∀ nowNs force, ∃ o, (finalizeTrace s key nowNs force).2 = .ok o ∧
    Flagged (finalizeTrace s key nowNs force).1 key o.cpuSnapshotAvailable ∧
    (o.cpuSnapshotAvailable = false ↔ ∀ r ∈ (s.ensureTraceConn key).nodes.rows,
      r.nodeId ≠ syntheticRootNodeId → r.NoCpu)

section finalizeSound

variable [Engine] {s : Storage} {key : TraceKey}

lemma flagged_of_finalized {t : Storage} {db : TraceDb} {o : FinalizeOutcome}
    (hspec : TraceFinalized (s.ensureTraceConn key) db o) (htraces : t.traces key = some db)
    (hindex : t.index = s.index.modify key (.finalize db.anomalies.length o.cpuSnapshotAvailable)
      (TraceRow.traceKey_finalize _ _)) : Flagged t key o.cpuSnapshotAvailable where
  trace m hm := by
    rw [ensureTraceConn_of_traces htraces, hspec.traceMeta] at hm
    obtain ⟨m', -, rfl⟩ := Option.map_eq_some_iff.mp hm
    rfl
  index row hrow := by
    rw [hindex, Table.find?_modify, if_pos rfl] at hrow
    obtain ⟨row', -, rfl⟩ := Option.map_eq_some_iff.mp hrow
    rfl

lemma finalizeTrace_ok {db : TraceDb} {o : FinalizeOutcome}
    (h : finalizeTraceDb (s.ensureTraceConn key) = .ok (db, o)) (nowNs : Int64) (force : Bool) :
    ∃ o', (finalizeTrace s key nowNs force).2 = .ok o' ∧
      o'.cpuSnapshotAvailable = o.cpuSnapshotAvailable ∧
      Flagged (finalizeTrace s key nowNs force).1 key o.cpuSnapshotAvailable := by
  have hspec := finalizeTraceDb_spec h
  have htraces : (s.setTrace key db).traces key = some db := traces_setTrace _
  rw [finalizeTrace_eq h]
  cases force with
  | true  => exact ⟨o, rfl, rfl, flagged_of_finalized hspec htraces rfl⟩
  | false => exact ⟨_, rfl, rfl, flagged_of_finalized hspec htraces rfl⟩

lemma finalizeTrace_error {e : StorageError}
    (h : finalizeTraceDb (s.ensureTraceConn key) = .error e)
    (nowNs : Int64) (force : Bool) : (finalizeTrace s key nowNs force).2 = .error e := by
  simp only [finalizeTrace, h]

lemma finalizeSound_iff : FinalizeSound s key ↔
    ∃ cpu, computeCpuSnapshotAvailable (s.ensureTraceConn key).nodes = .ok cpu ∧
      (cpu = false ↔ ∀ r ∈ userNodes (s.ensureTraceConn key).nodes, r.NoCpu) := by
  have hnodes : (∀ r ∈ userNodes (s.ensureTraceConn key).nodes, r.NoCpu) ↔
      ∀ r ∈ (s.ensureTraceConn key).nodes.rows, r.nodeId ≠ syntheticRootNodeId → r.NoCpu := by
    simp only [mem_userNodes, and_imp]
  rw [hnodes]
  constructor
  · intro h
    obtain ⟨o, hok, -, hflag⟩ := h 0 false
    cases hdb : finalizeTraceDb (s.ensureTraceConn key) with
    | error e =>
      rw [finalizeTrace_error hdb] at hok
      cases hok
    | ok p =>
      obtain ⟨db, o'⟩ := p
      obtain ⟨o'', hok', hcpu, -⟩ := finalizeTrace_ok hdb 0 false
      obtain rfl := Except.ok.inj (hok.symm.trans hok')
      exact ⟨o.cpuSnapshotAvailable, hcpu ▸ (finalizeTraceDb_spec hdb).cpu, hflag⟩
  · rintro ⟨cpu, hcpu, hflag⟩ nowNs force
    obtain ⟨db, o, hdb⟩ := finalizeTraceDb_eq_ok hcpu
    obtain rfl : cpu = o.cpuSnapshotAvailable :=
      Except.ok.inj (hcpu.symm.trans (finalizeTraceDb_spec hdb).cpu)
    obtain ⟨o', hok, heq, hflagged⟩ := finalizeTrace_ok hdb nowNs force
    refine ⟨o', hok, ?_⟩
    rw [heq]
    exact ⟨hflagged, hflag⟩

/-- While the CPU times of every node are integers, a finalize is sound exactly if it can add them
all up and the positive ones prevail. -/
lemma finalizeSound_iff_cpuCountable (h : CpuIntegers (s.ensureTraceConn key).nodes) :
    FinalizeSound s key ↔ CpuCountable (s.ensureTraceConn key).nodes := by
  rw [finalizeSound_iff]
  constructor
  · rintro ⟨cpu, hcpu, hflag⟩
    have hfits : RunningFitsI64 (cpuU (s.ensureTraceConn key).nodes) ∧
        RunningFitsI64 (cpuS (s.ensureTraceConn key).nodes) := by
      by_contra hfits
      rw [computeCpuSnapshotAvailable_eq_error h hfits] at hcpu
      cases hcpu
    rw [computeCpuSnapshotAvailable_eq_ok h hfits.1 hfits.2] at hcpu
    obtain rfl := Except.ok.inj hcpu
    refine ⟨h, hfits.1, hfits.2, ?_⟩
    rw [← hflag, decide_eq_false_iff_not]
    exact em _
  · intro hcount
    refine ⟨_, computeCpuSnapshotAvailable_eq_ok h hcount.fitsU hcount.fitsS, ?_⟩
    rw [decide_eq_false_iff_not]
    constructor
    · exact hcount.counted.resolve_left
    · intro hno hpos
      have hsum : (cpuU (s.ensureTraceConn key).nodes).sum +
          (cpuS (s.ensureTraceConn key).nodes).sum = 0 := by
        rw [cpuU, cpuS, List.map_map, List.map_map, ← List.sum_map_add]
        exact List.sum_eq_zero (List.forall_mem_map.mpr hno)
      omega

end finalizeSound

/-! ### Histories without negative times -/

/-- No CPU time of the calls is negative, and each of the two columns has room for all of them. -/
structure CpuTimesFit (calls : List Call) : Prop where
  nonneg : ∀ c ∈ calls, 0 ≤ c.cpuU.toInt ∧ 0 ≤ c.cpuS.toInt
  u : (calls.map (·.cpuU.toInt)).sum < 2 ^ 63
  s : (calls.map (·.cpuS.toInt)).sum < 2 ^ 63

section histories

variable [Engine] {s : Traced} {col : Column}

lemma nodup_userNodes (nodes : Table NodeRow.nodeId) :
    ((userNodes nodes).map NodeRow.nodeId).Nodup :=
  (((ScanOrder.scan_perm nodes.rows).map _).nodup_iff.mpr nodes.nodup).sublist
    (List.filter_sublist.map _)

/-- The totals of the nodes add up to those of their calls. -/
lemma sum_values_userNodes (hslot : col.slot = Folded.node) (log : List Folded)
    (nodes : Table NodeRow.nodeId) :
    ((userNodes nodes).map fun r => (col.values log r.nodeId).sum).sum =
      ((((userNodes nodes).map NodeRow.nodeId).flatMap fun n =>
        log.filter (·.node = n)).map fun f => (col.value f.call).toInt).sum := by
  rw [List.map_flatMap, List.flatMap_def, List.sum_flatten, List.map_map, List.map_map]
  simp only [Column.values, hslot, Function.comp_def]

/-- A column to which no negative number was added, and whose total is a 64-bit integer. -/
lemma column_fits (col : Column) (h : WellFormed s) (hslot : col.slot = Folded.node)
    (hdepth : ∀ c d, col.value { c with depth := d } = col.value c)
    (hnonneg : ∀ c ∈ s.versions, 0 ≤ (col.value c).toInt)
    (hsum : (s.versions.map fun c => (col.value c).toInt).sum < 2 ^ 63) :
    (∀ r ∈ s.db.nodes.rows, (col.get r).toInt?.isSome ∧ 0 ≤ (col.get r).value) ∧
      FitsI64 (((userNodes s.db.nodes).map col.get).map NumCell.value) := by
  have hlog : FitsI64 (s.log.map fun f => (col.value f.call).toInt) :=
    (FitsI64.of_nonneg (List.forall_mem_map.mpr hnonneg) hsum).subperm
      (h.map_log_subperm (g := fun c => (col.value c).toInt) fun c d => by rw [hdepth])
  have hpos : ∀ f ∈ s.log, 0 ≤ (col.value f.call).toInt := by
    intro f hf
    obtain ⟨d, hd⟩ := h.exists_mem_versions hf
    rw [← hdepth f.call d]
    exact hnonneg _ hd
  have hvalues : ∀ n, 0 ≤ (col.values s.log n).sum := fun n =>
    List.sum_nonneg (List.forall_mem_map.mpr fun f hf => hpos f (List.mem_filter.mp hf).1)
  have hget : ∀ r ∈ s.db.nodes.rows,
      (col.get r).toInt? = some (col.values s.log r.nodeId).sum := fun r hr =>
    h.sums col r hr (hlog.subperm (subperm_map List.filter_sublist.subperm _))
  have hcells : ((userNodes s.db.nodes).map col.get).map NumCell.value =
      (userNodes s.db.nodes).map fun r => (col.values s.log r.nodeId).sum := by
    rw [List.map_map]
    exact List.map_congr_left fun r hr => NumCell.value_of_toInt? (hget r (mem_userNodes.mp hr).1)
  refine ⟨fun r hr => ⟨Option.isSome_of_eq_some (hget r hr), ?_⟩, ?_⟩
  · rw [NumCell.value_of_toInt? (hget r hr)]
    exact hvalues _
  · rw [hcells]
    refine FitsI64.of_nonneg (List.forall_mem_map.mpr fun r _ => hvalues _) ?_
    have hall := flatMap_groups_subperm (g := Folded.node) s.log (nodup_userNodes s.db.nodes)
    rw [sum_values_userNodes hslot]
    exact (hlog _ (subperm_map hall _)).2

/-- Such a history keeps the totals countable. -/
lemma cpuCountable_of_wellFormed (h : WellFormed s) (hfit : CpuTimesFit s.versions) :
    CpuCountable s.db.nodes := by
  obtain ⟨hu, hfitsU⟩ := column_fits .totalCpuU h rfl (fun _ _ => rfl)
    (fun c hc => (hfit.nonneg c hc).1) hfit.u
  obtain ⟨hs, hfitsS⟩ := column_fits .totalCpuS h rfl (fun _ _ => rfl)
    (fun c hc => (hfit.nonneg c hc).2) hfit.s
  have hnonneg : ∀ r ∈ userNodes s.db.nodes,
      0 ≤ r.totalCpuUNs.value ∧ 0 ≤ r.totalCpuSNs.value := fun r hr =>
    ⟨(hu r (mem_userNodes.mp hr).1).2, (hs r (mem_userNodes.mp hr).1).2⟩
  refine ⟨⟨fun r hr => (hu r (mem_userNodes.mp hr).1).1,
    fun r hr => (hs r (mem_userNodes.mp hr).1).1⟩, hfitsU.running, hfitsS.running, ?_⟩
  rw [cpuU, cpuS, List.map_map, List.map_map, ← List.sum_map_add]
  by_contra hzero
  rw [not_or, not_lt] at hzero
  refine hzero.2 fun r hr => ?_
  have hle := List.single_le_sum (l := (userNodes s.db.nodes).map fun r =>
    r.totalCpuUNs.value + r.totalCpuSNs.value)
    (List.forall_mem_map.mpr fun r hr => Int.add_nonneg (hnonneg r hr).1 (hnonneg r hr).2)
    _ (List.mem_map_of_mem hr)
  have hsum := hle.trans hzero.1
  have := hnonneg r hr
  rw [NodeRow.NoCpu]
  omega

lemma cpuCountable_empty : CpuCountable (.empty : Table NodeRow.nodeId) := by
  have hnil : userNodes (.empty : Table NodeRow.nodeId) = [] :=
    List.eq_nil_iff_forall_not_mem.mpr fun r hr => by simpa using (mem_userNodes.mp hr).1
  have hu : cpuU .empty = [] := by rw [cpuU, hnil]; rfl
  have hs : cpuS .empty = [] := by rw [cpuS, hnil]; rfl
  refine ⟨⟨?_, ?_⟩, hu ▸ by decide, hs ▸ by decide, Or.inr ?_⟩
  · simp [hnil]
  · simp [hnil]
  · simp [hnil]

end histories

/-- In every reachable state a finalize is sound if the CPU times can be counted, and, as long as
they are integers, only then. They can be counted in every run whose calls have no negative CPU
times and not too many. -/
theorem finalizeSound_iff_of_run [Engine] :
    (∀ as s key, Run Attempt.Step Storage.empty as s →
      (CpuCountable (s.ensureTraceConn key).nodes → FinalizeSound s key) ∧
      (CpuIntegers (s.ensureTraceConn key).nodes → FinalizeSound s key →
        CpuCountable (s.ensureTraceConn key).nodes)) ∧
    ∀ key as o, Run (Observed.Step key) ⟨.empty, []⟩ as o → CpuTimesFit o.recorded →
      FinalizeSound o.storage key := by
  refine ⟨fun as s key _ => ⟨fun h => (finalizeSound_iff_cpuCountable h.integers).mpr h,
    fun hint => (finalizeSound_iff_cpuCountable hint).mp⟩, fun key as o hrun hfit => ?_⟩
  have hcount : CpuCountable (o.storage.ensureTraceConn key).nodes := by
    obtain ⟨log, hfresh | ⟨hwf, -⟩⟩ :=
      Observed.traceInv_of_run hrun ⟨[], TraceInv.fresh _⟩
    · rw [show o.storage.ensureTraceConn key = .fresh from hfresh.1]
      exact cpuCountable_empty
    · exact cpuCountable_of_wellFormed hwf hfit
  exact (finalizeSound_iff_cpuCountable hcount.integers).mpr hcount

/-- Two calls of one function, of which only the second took time. -/
theorem finalizeSound_iff_of_run_two_calls :
    letI := Engine.stored
    ∃ as o, Run (Observed.Step default) ⟨.empty, []⟩ as o ∧ o.recorded.length = 2 ∧
      FinalizeSound o.storage default := by
  let _ := Engine.stored
  let call : Call := { (default : Call) with callId := 1, fnId := 0 }
  let op : Op := .record default ⟨{ (default : Meta) with sapi := "cli" }, [],
    [call, { call with callId := 2, cpuU := 7 }]⟩ 0 .none
  have hrun : Run (Observed.Step default) ⟨.empty, []⟩ [⟨op, true⟩]
      ⟨(op.exec .empty).1, recordedBy default .empty op ++ []⟩ := .single ⟨rfl, rfl⟩
  exact ⟨_, _, hrun, by decide, finalizeSound_iff_of_run.2 default _ _ hrun
    ⟨by decide, by decide, by decide⟩⟩

/-- Two functions, each with the longest CPU time. -/
theorem not_finalizeSound :
    letI := Engine.stored
    ¬ ∀ as s key, Run Attempt.Step Storage.empty as s → FinalizeSound s key := by
  let _ := Engine.stored
  intro h
  let entry (fnId : UInt32) : DictEntry := { (default : DictEntry) with fnId := fnId, kind := 1 }
  let call (fnId : UInt32) : Call :=
    { (default : Call) with callId := fnId, fnId := fnId, cpuU := Int64.maxValue }
  let op : Op := .record default
    ⟨{ (default : Meta) with sapi := "cli" }, [entry 1, entry 2], [call 1, call 2]⟩ 0 .none
  have hrun : Run Attempt.Step .empty [⟨op, true⟩] (op.exec .empty).1 := .single rfl
  obtain ⟨cpu, hcpu, -⟩ := finalizeSound_iff.mp (h _ _ default hrun)
  have herror : computeCpuSnapshotAvailable ((op.exec .empty).1.ensureTraceConn default).nodes =
      .error (.query "query cpu_snapshot_available") := by decide
  rw [herror] at hcpu
  cases hcpu

end Finalize

end PhpTreeViz
