import PhpTreeViz.Storage.Consistent
import PhpTreeViz.Storage.Faults
import PhpTreeViz.Storage.Paths

/-!
# The order of arrival

A call reaches its node at once, or from `pending_calls` when its function or its caller becomes
known, and node ids are given in the order of arrival. None of this is visible in the tree: two
ways to deliver the same calls and functions, in whatever batches and order, end in the same tree
when nodes are identified by their paths.
-/

namespace PhpTreeViz

open Core

/-! ### What is compared -/

/-- The columns of a node that are not ids. -/
structure NodeStats where
  depth : UInt32
  callCount : ℕ
  totalWallNs : NumCell
  childrenTotalWallNs : NumCell
  totalCpuUNs : NumCell
  totalCpuSNs : NumCell
  totalMemDeltaBytes : NumCell
  abnormalExitCount : ℕ
  deriving DecidableEq

def NodeRow.stats (r : NodeRow) : NodeStats where
  depth := r.depth
  callCount := r.callCount
  totalWallNs := r.totalWallNs
  childrenTotalWallNs := r.childrenTotalWallNs
  totalCpuUNs := r.totalCpuUNs
  totalCpuSNs := r.totalCpuSNs
  totalMemDeltaBytes := r.totalMemDeltaBytes
  abnormalExitCount := r.abnormalExitCount

/-- The nodes by their paths. -/
def TraceDb.tree (db : TraceDb) : List (List UInt32 × NodeStats) :=
  db.nodes.rows.map fun r => (db.path r.nodeId, r.stats)

/-- The paths of the mapped calls. -/
def TraceDb.callPaths (db : TraceDb) : List (UInt32 × List UInt32) :=
  db.callToNode.rows.map fun m => (m.callId, db.path m.nodeId)

/-- The `inverted_time` anomalies by path, call and detail. -/
def TraceDb.invertedAt (db : TraceDb) : List (Option (List UInt32) × UInt32 × String) :=
  (db.anomalies.filter (·.kind = .invertedTime)).map fun a =>
    (a.nodeId.map db.path, a.sampleCallId, a.detail)

/-- The databases differ in their ids and in the order of their rows only. -/
structure SameTree (db db' : TraceDb) : Prop where
  tree : db.tree.Perm db'.tree
  callPaths : db.callPaths.Perm db'.callPaths
  pendingCalls : db.pendingCalls.rows.Perm db'.pendingCalls.rows
  invertedAt : db.invertedAt.Perm db'.invertedAt

/-! ### The tree is a function of the calling contexts -/

/-- The folded calls with their paths. -/
def Traced.contexts (s : Traced) : List (Call × List UInt32) :=
  s.log.map fun f => (f.call, s.db.path f.node)

namespace WellFormed

variable {s : Traced}

/-- Two nodes are the same when their paths are. -/
lemma path_eq_iff (h : WellFormed s) {n m : ℕ} (hn : s.db.nodes.HasKey n)
    (hm : s.db.nodes.HasKey m) : s.db.path n = s.db.path m ↔ n = m :=
  h.path_injOn.eq_iff hn hm

lemma callCount_eq (h : WellFormed s) {r : NodeRow} (hr : r ∈ s.db.nodes.rows) :
    r.callCount = s.contexts.countP fun x => x.2 = s.db.path r.nodeId := by
  rw [h.tree.callCount r hr, Traced.contexts, List.countP_map]
  apply List.countP_congr
  intro f hf
  simp [h.path_eq_iff (h.tree.hasKey_node hf) (Table.hasKey_of_mem hr)]

lemma abnormalExitCount_eq (h : WellFormed s) {r : NodeRow} (hr : r ∈ s.db.nodes.rows) :
    r.abnormalExitCount =
      s.contexts.countP fun x => x.2 = s.db.path r.nodeId ∧ x.1.abnormalExit := by
  rw [h.tree.abnormalExitCount r hr, Traced.contexts, List.countP_map]
  apply List.countP_congr
  intro f hf
  simp [h.path_eq_iff (h.tree.hasKey_node hf) (Table.hasKey_of_mem hr)]

/-- A column whose slot is given by a function of the path of the call. -/
lemma values_eq (h : WellFormed s) (col : Column) {π : List UInt32 → List UInt32}
    (hπ : ∀ f ∈ s.log, s.db.path (col.slot f) = π (s.db.path f.node)) {r : NodeRow}
    (hr : r ∈ s.db.nodes.rows) :
    col.values s.log r.nodeId =
      (s.contexts.filter fun x => π x.2 = s.db.path r.nodeId).map fun x =>
        (col.value x.1).toInt := by
  rw [Column.values, Traced.contexts, List.filter_map, List.map_map]
  refine congrArg (List.map _) (List.filter_congr fun f hf => ?_)
  have hkey : s.db.nodes.HasKey (col.slot f) := by
    rcases col.slot_mem f with hs | hs <;> rw [hs]
    · exact h.tree.hasKey_node hf
    · exact (h.tree.parentNode_lt hf).2
  simp [← hπ f hf, h.path_eq_iff hkey (Table.hasKey_of_mem hr)]

end WellFormed

/-! ### Two ways to the same tree -/

/-- All of `calls` are recorded, the functions in `fns` are known, and nothing can be resolved. -/
structure Settled (calls : List Call) (fns : Set UInt32) (s : Traced) : Prop
    extends DepthInv calls s where
  wellFormed : WellFormed s
  least : LeastResolution s.db s.version
  all : s.versions.Perm calls
  dict : ∀ fn, s.db.dict.HasKey fn ↔ fn ∈ fns

namespace Settled

variable {calls : List Call} {fns : Set UInt32} {s t : Traced}

lemma nodup_contexts (h : Settled calls fns s) : s.contexts.Nodup := by
  apply List.Nodup.of_map (fun x => x.1.callId)
  rw [Traced.contexts, List.map_map]
  exact h.wellFormed.nodup_log

lemma contexts_subperm (h : Settled calls fns s) : (s.contexts.map Prod.fst).Subperm calls := by
  refine List.subperm_of_subset (List.Nodup.of_map Call.callId ?_) fun c hc => ?_
  · rw [Traced.contexts, List.map_map, List.map_map]
    exact h.wellFormed.nodup_log
  · rw [Traced.contexts, List.map_map] at hc
    obtain ⟨f, hf, rfl⟩ := List.mem_map.mp hc
    exact h.sent f hf

lemma version_eq_some (h : Settled calls fns s) (hcalls : ConsistentCalls calls) {id : UInt32}
    {c : Call} : s.version id = some c ↔ c ∈ calls ∧ c.callId = id := by
  constructor
  · intro hc
    exact ⟨h.versions c (List.mem_of_find?_eq_some hc), by simpa using List.find?_some hc⟩
  · rintro ⟨hc, rfl⟩
    have hsome : (s.version c.callId).isSome :=
      List.find?_isSome.mpr ⟨c, h.all.symm.subset hc, by simp⟩
    obtain ⟨d, hd⟩ := Option.isSome_iff_exists.mp hsome
    have hid : d.callId = c.callId := by simpa using List.find?_some hd
    obtain rfl := hcalls.eq_of_callId hc (h.versions d (List.mem_of_find?_eq_some hd)) hid.symm
    exact hd

lemma context (h : Settled calls fns s) (hcalls : ConsistentCalls calls) {f : Folded}
    (hf : f ∈ s.log) : CallContext s.version f.call.callId (s.db.path f.node) :=
  h.wellFormed.callContext (fun _ hg => h.callId_ne_zero hcalls hg) hf

section pair

variable (hs : Settled calls fns s) (ht : Settled calls fns t) (hcalls : ConsistentCalls calls)
include hs ht hcalls

lemma version_eq : s.version = t.version := by
  funext id
  exact Option.ext fun c => by
    rw [hs.version_eq_some hcalls, ht.version_eq_some hcalls]

/-- The same calls are mapped. -/
lemma mapped_iff (id : UInt32) : s.db.callToNode.HasKey id ↔ t.db.callToNode.HasKey id := by
  have hleast := hs.least.mapped
  rw [hs.version_eq ht hcalls] at hleast
  simp only [hs.dict, ← ht.dict] at hleast
  exact Set.ext_iff.mp (hleast.unique ht.least.mapped) id

/-- A call is folded in both, as the same call and with the same path. -/
lemma exists_fold {f : Folded} (hf : f ∈ s.log) :
    ∃ g ∈ t.log, g.call = f.call ∧ t.db.path g.node = s.db.path f.node := by
  have hmapped := (hs.mapped_iff ht hcalls _).mp (hs.wellFormed.hasKey_iff.mpr ⟨f, hf, rfl⟩)
  obtain ⟨g, hg, hid⟩ := ht.wellFormed.hasKey_iff.mp hmapped
  refine ⟨g, hg, hcalls.eq_of_callId (ht.sent g hg) (hs.sent f hf) hid, ?_⟩
  have hctx := hs.context hcalls hf
  rw [hs.version_eq ht hcalls, ← hid] at hctx
  exact (ht.context hcalls hg).unique hctx

lemma contexts_subset : s.contexts ⊆ t.contexts := by
  intro x hx
  obtain ⟨f, hf, rfl⟩ := List.mem_map.mp hx
  obtain ⟨g, hg, hcall, hpath⟩ := hs.exists_fold ht hcalls hf
  exact List.mem_map.mpr ⟨g, hg, by rw [hcall, hpath]⟩

/-- The calling contexts do not depend on the order of arrival. -/
theorem contexts_perm : s.contexts.Perm t.contexts :=
  (List.perm_ext_iff_of_nodup hs.nodup_contexts ht.nodup_contexts).mpr fun _ =>
    ⟨fun hx => hs.contexts_subset ht hcalls hx, fun hx => ht.contexts_subset hs hcalls hx⟩

/-- A column holds the same in two nodes with the same path. -/
lemma column_eq (col : Column) (hfits : FitsI64 (calls.map fun c => (col.value c).toInt))
    {π : List UInt32 → List UInt32}
    (hπ : ∀ f ∈ s.log, s.db.path (col.slot f) = π (s.db.path f.node))
    (hπ' : ∀ f ∈ t.log, t.db.path (col.slot f) = π (t.db.path f.node)) {r r' : NodeRow}
    (hr : r ∈ s.db.nodes.rows) (hr' : r' ∈ t.db.nodes.rows)
    (hpath : s.db.path r.nodeId = t.db.path r'.nodeId) : col.get r = col.get r' := by
  have hvalues := hs.wellFormed.values_eq col hπ hr
  have hvalues' := ht.wellFormed.values_eq col hπ' hr'
  have hperm : (col.values s.log r.nodeId).Perm (col.values t.log r'.nodeId) := by
    rw [hvalues, hvalues', hpath]
    exact ((hs.contexts_perm ht hcalls).filter _).map _
  have hsub : (col.values s.log r.nodeId).Subperm (calls.map fun c => (col.value c).toInt) := by
    have hfilter : (s.contexts.filter fun x => π x.2 = s.db.path r.nodeId).Subperm s.contexts :=
      List.filter_sublist.subperm
    have hall := subperm_map ((subperm_map hfilter Prod.fst).trans hs.contexts_subperm)
      fun c => (col.value c).toInt
    rw [hvalues]
    rwa [List.map_map] at hall
  have hsum := hs.wellFormed.sums col r hr (hfits.subperm hsub)
  have hsum' := ht.wellFormed.sums col r' hr' (hfits.subperm (hperm.symm.subperm.trans hsub))
  rw [hperm.sum_eq] at hsum
  exact NumCell.toInt?_inj hsum hsum'

/-- Every node has a counterpart with the same path and the same columns. -/
lemma exists_node (hsum : SummableCalls calls) {r : NodeRow} (hr : r ∈ s.db.nodes.rows) :
    ∃ r' ∈ t.db.nodes.rows, t.db.path r'.nodeId = s.db.path r.nodeId ∧ r'.stats = r.stats := by
  obtain ⟨r', hr', hpath, hdepth⟩ : ∃ r' ∈ t.db.nodes.rows,
      t.db.path r'.nodeId = s.db.path r.nodeId ∧ r'.depth = r.depth := by
    by_cases hroot : r.nodeId = syntheticRootNodeId
    · obtain ⟨r₀, hr₀, hid₀, -, hdepth₀⟩ := hs.wellFormed.tree.root
      obtain ⟨r', hr', hid', -, hdepth'⟩ := ht.wellFormed.tree.root
      obtain rfl := s.db.nodes.eq_of_key hr hr₀ (hroot.trans hid₀.symm)
      refine ⟨r', hr', ?_, hdepth'.trans hdepth₀.symm⟩
      rw [hid', hroot, hs.wellFormed.path_root, ht.wellFormed.path_root]
    · obtain ⟨f, hf, hnode⟩ := hs.wellFormed.tree.used r hr hroot
      obtain ⟨g, hg, hcall, hpath⟩ := hs.exists_fold ht hcalls hf
      obtain ⟨r', hr', hid', -⟩ := ht.wellFormed.tree.placed g hg
      refine ⟨r', hr', by rw [hid', hpath, hnode], ?_⟩
      rw [ht.depth g hg r' hr' hid', hs.depth f hf r hr hnode.symm, hcall]
  have hperm := hs.contexts_perm ht hcalls
  have hnode : ∀ col : Column, col.slot = Folded.node →
      FitsI64 (calls.map fun c => (col.value c).toInt) → col.get r' = col.get r :=
    fun col hslot hfits => (hs.column_eq ht hcalls col hfits (π := id)
      (fun f _ => by rw [hslot]; rfl) (fun f _ => by rw [hslot]; rfl) hr hr' hpath.symm).symm
  have hchildren : r'.childrenTotalWallNs = r.childrenTotalWallNs :=
    (hs.column_eq ht hcalls .childrenTotalWall hsum.wall (π := List.dropLast)
      (fun f hf => hs.wellFormed.path_parentNode hf)
      (fun f hf => ht.wellFormed.path_parentNode hf) hr hr' hpath.symm).symm
  refine ⟨r', hr', hpath, ?_⟩
  rw [NodeRow.stats, NodeRow.stats, NodeStats.mk.injEq]
  refine ⟨hdepth, ?_, hnode .totalWall rfl hsum.wall, hchildren, hnode .totalCpuU rfl hsum.cpuU,
    hnode .totalCpuS rfl hsum.cpuS, hnode .totalMemDelta rfl hsum.memDelta, ?_⟩
  · rw [hs.wellFormed.callCount_eq hr, ht.wellFormed.callCount_eq hr', hpath, hperm.countP_eq]
  · rw [hs.wellFormed.abnormalExitCount_eq hr, ht.wellFormed.abnormalExitCount_eq hr', hpath,
      hperm.countP_eq]

lemma tree_subset (hsum : SummableCalls calls) : s.db.tree ⊆ t.db.tree := by
  intro x hx
  obtain ⟨r, hr, rfl⟩ := List.mem_map.mp hx
  obtain ⟨r', hr', hpath, hstats⟩ := hs.exists_node ht hcalls hsum hr
  exact List.mem_map.mpr ⟨r', hr', by rw [hpath, hstats]⟩

lemma pendingCalls_subset : s.db.pendingCalls.rows ⊆ t.db.pendingCalls.rows := by
  intro p hp
  obtain ⟨c, hc, hpc, hnot⟩ := (hs.least.pending p).mp hp
  rw [hs.version_eq ht hcalls] at hc
  exact (ht.least.pending p).mpr ⟨c, hc, hpc, fun hm => hnot ((hs.mapped_iff ht hcalls _).mpr hm)⟩

end pair

lemma nodup_tree (h : Settled calls fns s) : s.db.tree.Nodup := by
  apply List.Nodup.of_map Prod.fst
  rw [TraceDb.tree, List.map_map]
  refine (List.nodup_map_iff_inj_on s.db.nodes.nodup_rows).mpr fun r hr r' hr' heq => ?_
  exact s.db.nodes.eq_of_key hr hr' ((h.wellFormed.path_eq_iff (Table.hasKey_of_mem hr)
    (Table.hasKey_of_mem hr')).mp heq)

lemma callPaths_eq (h : Settled calls fns s) :
    s.db.callPaths = s.contexts.map fun x => (x.1.callId, x.2) := by
  rw [TraceDb.callPaths, h.wellFormed.mapped, Traced.contexts, List.map_map, List.map_map]
  rfl

lemma invertedAt_eq (h : Settled calls fns s) :
    s.db.invertedAt = (s.contexts.filter (·.1.Inverted)).map fun x =>
      (some x.2, x.1.callId, (AnomalyRow.invertedTime 0 x.1).detail) := by
  rw [TraceDb.invertedAt, h.wellFormed.inverted, Traced.contexts, List.filter_map, List.map_map,
    List.map_map]
  rfl

/-- All that differs is ids and the order of rows. -/
theorem sameTree (hs : Settled calls fns s) (ht : Settled calls fns t)
    (hcalls : ConsistentCalls calls) (hsum : SummableCalls calls) : SameTree s.db t.db where
  tree := (List.perm_ext_iff_of_nodup hs.nodup_tree ht.nodup_tree).mpr fun _ =>
    ⟨fun hx => hs.tree_subset ht hcalls hsum hx, fun hx => ht.tree_subset hs hcalls hsum hx⟩
  callPaths := by
    rw [hs.callPaths_eq, ht.callPaths_eq]
    exact (hs.contexts_perm ht hcalls).map _
  pendingCalls := (List.perm_ext_iff_of_nodup s.db.pendingCalls.nodup_rows
    t.db.pendingCalls.nodup_rows).mpr fun _ =>
    ⟨fun hp => hs.pendingCalls_subset ht hcalls hp, fun hp => ht.pendingCalls_subset hs hcalls hp⟩
  invertedAt := by
    rw [hs.invertedAt_eq, ht.invertedAt_eq]
    exact ((hs.contexts_perm ht hcalls).filter _).map _

end Settled

/-! ### Every run -/

/-- The columns of the index row that repeat the meta block. -/
def MirrorsMeta (key : TraceKey) (m : Meta) (row : TraceRow) : Prop :=
  row = { row with
    traceKey := key
    traceId := m.traceId
    host := m.host
    pid := m.pid.toInt64
    startTimeNs := m.startTime
    sapi := m.sapi
    uriOrScript := m.uriOrScript
    droppedRecords := m.droppedRecords.toInt64 }

/-- The index rows differ in the number and the times of the batches only. -/
def SameIndex (row row' : TraceRow) : Prop :=
  row = { row' with
    firstBatchAtNs := row.firstBatchAtNs
    lastBatchAtNs := row.lastBatchAtNs
    batchCount := row.batchCount }

lemma mirrorsMeta_upserted {key : TraceKey} {m : Meta} {row : Option TraceRow}
    (h : ∀ r ∈ row, MirrorsMeta key m r) (now : Int64) (o : AggregateOutcome) :
    MirrorsMeta key m (.upserted row key m now o) := by
  cases row with
  | none => rfl
  | some r =>
    have hr := h r rfl
    cases r
    simp only [MirrorsMeta, TraceRow.mk.injEq] at hr
    simp [MirrorsMeta, TraceRow.upserted, TraceRow.addBatch, hr]

/-- When all batches carry the same meta block, the index row repeats it. -/
lemma mirrorsMeta_of_run {_ : Engine} {key : TraceKey} {s t : Storage} {as : List Attempt}
    {m : Meta} (hempty : s.traces key = none) (hnew : s.index.find? key = none)
    (hrun : Run Attempt.Step s as t) (honly : OnlyRecorded key as)
    (hm : ∀ b ∈ deliveries key as, b.metaBlock = m) {row : TraceRow}
    (hrow : t.index.find? key = some row) : MirrorsMeta key m row := by
  obtain ⟨u, -, hu⟩ := delivered_of_run_with (Q := fun row _ => ∀ r ∈ row, MirrorsMeta key m r)
    hempty hrun honly (by simp [hnew])
    fun row u batch now es₁ es₂ u' hbatch _ _ h r hr => by
      rw [← Option.some.inj hr, hm batch hbatch]
      exact mirrorsMeta_upserted h now _
  exact hu row hrow

lemma sameIndex_of_mirrorsMeta {key : TraceKey} {m : Meta} {row row' : TraceRow}
    (h : MirrorsMeta key m row) (h' : MirrorsMeta key m row') (hcounters : SameCounters row row')
    (hcpu : row.cpuSnapshotAvailable = row'.cpuSnapshotAvailable) : SameIndex row row' := by
  obtain ⟨hcalls, hwall, hanomalies, hpending, hstate⟩ := hcounters
  cases row
  cases row'
  simp only [MirrorsMeta, SameIndex, TraceRow.mk.injEq] at h h' ⊢
  simp_all

lemma defines_flatMap {bs : List Batch} {fn : UInt32} :
    (∃ b ∈ bs, Defines b.dict fn) ↔ Defines (bs.flatMap Batch.dict) fn := by
  simp only [Defines, List.mem_flatMap]
  constructor
  · rintro ⟨b, hb, e, he, hk, hfn⟩
    exact ⟨e, ⟨b, hb, he⟩, hk, hfn⟩
  · rintro ⟨e, ⟨b, hb, he⟩, hk, hfn⟩
    exact ⟨b, hb, e, he, hk, hfn⟩

/-- A trace to which consistent calls were delivered is settled, and the index knows its sums. -/
lemma settled_of_run {_ : Engine} {key : TraceKey} {s t : Storage} {as : List Attempt}
    {calls : List Call} {entries : List DictEntry} {db : TraceDb}
    (hempty : s.traces key = none) (hnew : s.index.find? key = none)
    (hrun : Run Attempt.Step s as t) (honly : OnlyRecorded key as)
    (hcalls : ConsistentCalls calls) (hsum : SummableCalls calls)
    (hperm : ((deliveries key as).flatMap Batch.calls).Perm calls)
    (hdict : ((deliveries key as).flatMap Batch.dict).Perm entries)
    (hdb : t.traces key = some db) :
    ∃ u row, u.db = db ∧ Settled calls {fn | fn = 0 ∨ Defines entries fn} u ∧
      t.index.find? key = some row ∧ Consistent calls (some row) u ∧ row.state = .active ∧
      row.pendingCount = db.pendingCalls.rows.length := by
  obtain ⟨u, hu, hcons, hall⟩ := consistent_of_run hempty hnew hrun honly hcalls hsum.wall hperm
  have hne : deliveries key as ≠ [] := by
    intro hnil
    rw [hu.traces, if_pos hnil] at hdb
    cases hdb
  rw [hu.traces, if_neg hne, Option.some.injEq] at hdb
  obtain ⟨hwf, hsat⟩ := hu.wellFormed hne
  obtain ⟨row, hrow, hstate, hpending⟩ := hu.row hne
  rw [hrow] at hcons
  have hleast := hwf.leastResolution hsat fun id => by rw [hu.known, hu.version]
  refine ⟨u, row, hdb, ⟨hcons.toDepthInv, hwf, hleast, hall, fun fn => ?_⟩, hrow, hcons, hstate,
    hdb ▸ hpending⟩
  have hdefines : Defines ((deliveries key as).flatMap Batch.dict) fn ↔ Defines entries fn := by
    simp only [Defines, hdict.mem_iff]
  rw [hu.dict, defines_flatMap, hdefines, Set.mem_ofPred_eq, and_iff_right hne]

lemma Consistent.length_anomalies {calls : List Call} {row : Option TraceRow} {s : Traced}
    (h : Consistent calls row s) : s.db.anomalies.length = s.db.invertedAt.length := by
  have hall : s.db.anomalies.filter (·.kind = .invertedTime) = s.db.anomalies :=
    List.filter_eq_self.mpr fun a ha => decide_eq_true (h.anomalies a ha)
  rw [TraceDb.invertedAt, List.length_map, hall]

/-- Two ways to deliver the same calls and `dict` entries to a new trace, in any batches and in any
order, lead to the same tree and to the same index row. The engine may read its rows in a different
order each time. -/
theorem confluence_of_run (e e' : Engine) {key : TraceKey} {s s' t t' : Storage}
    {as as' : List Attempt} {calls : List Call} {db db' : TraceDb}
    (hempty : s.traces key = none) (hempty' : s'.traces key = none)
    (hnew : s.index.find? key = none) (hnew' : s'.index.find? key = none)
    (hrun : Run (@Attempt.Step e) s as t) (hrun' : Run (@Attempt.Step e') s' as' t')
    (honly : OnlyRecorded key as) (honly' : OnlyRecorded key as')
    (hcalls : ConsistentCalls calls) (hsum : SummableCalls calls)
    (hperm : ((deliveries key as).flatMap Batch.calls).Perm calls)
    (hperm' : ((deliveries key as').flatMap Batch.calls).Perm calls)
    (hdict : ((deliveries key as).flatMap Batch.dict).Perm
      ((deliveries key as').flatMap Batch.dict))
    (hdb : t.traces key = some db) (hdb' : t'.traces key = some db') :
    SameTree db db' ∧
      ∃ row row', t.index.find? key = some row ∧ t'.index.find? key = some row' ∧
        SameCounters row row' ∧ row.cpuSnapshotAvailable = row'.cpuSnapshotAvailable ∧
        ∀ m, (∀ b ∈ deliveries key as ++ deliveries key as', b.metaBlock = m) →
          SameIndex row row' := by
  obtain ⟨u, row, rfl, hu, hrow, hcons, hstate, hpending⟩ :=
    settled_of_run hempty hnew hrun honly hcalls hsum hperm hdict hdb
  obtain ⟨u', row', rfl, hu', hrow', hcons', hstate', hpending'⟩ :=
    settled_of_run hempty' hnew' hrun' honly' hcalls hsum hperm' (.refl _) hdb'
  have hsame := hu.sameTree hu' hcalls hsum
  have hversions := hu.all.trans hu'.all.symm
  have hcounters : SameCounters row row' := by
    constructor
    · exact hcons.callCount.trans (hversions.length_eq.trans hcons'.callCount.symm)
    · have hwalls := (hversions.map (·.wall.toInt)).sum_eq
      exact NumCell.toInt?_inj hcons.totalWallNs (hwalls ▸ hcons'.totalWallNs)
    · have hlen := hsame.invertedAt.length_eq
      rw [← hcons.length_anomalies, ← hcons'.length_anomalies] at hlen
      exact hcons.anomalyCount.trans (hlen.trans hcons'.anomalyCount.symm)
    · rw [hpending, hpending', hsame.pendingCalls.length_eq]
    · rw [hstate, hstate']
  have hcpu : row.cpuSnapshotAvailable = row'.cpuSnapshotAvailable := by
    rw [hcons.cpuSnapshotAvailable row rfl, hcons'.cpuSnapshotAvailable row' rfl]
  refine ⟨hsame, row, row', hrow, hrow', hcounters, hcpu, fun m hm => ?_⟩
  have hmeta := mirrorsMeta_of_run hempty hnew hrun honly
    (fun b hb => hm b (List.mem_append_left _ hb)) hrow
  have hmeta' := mirrorsMeta_of_run hempty' hnew' hrun' honly'
    (fun b hb => hm b (List.mem_append_right _ hb)) hrow'
  exact sameIndex_of_mirrorsMeta hmeta hmeta' hcounters hcpu

/-- A caller and its callee in one batch, or the callee first, before its function is known. -/
theorem confluence_of_run_callee_first :
    letI := Engine.stored
    ∃ as as' t t' db db', Run Attempt.Step .empty as t ∧ Run Attempt.Step .empty as' t' ∧
      t.traces default = some db ∧ t'.traces default = some db' ∧
      db.nodes.rows.map NodeRow.fnId = [0, 7, 8] ∧ as.length = 1 ∧ as'.length = 2 ∧
      SameTree db db' := by
  let _ := Engine.stored
  let caller : Call := { (default : Call) with callId := 1, fnId := 7, depth := 1, tOut := 9 }
  let callee : Call :=
    { (default : Call) with callId := 2, parent := 1, fnId := 8, depth := 2, tOut := 5 }
  let callerEntry : DictEntry := { (default : DictEntry) with fnId := 7 }
  let calleeEntry : DictEntry := { (default : DictEntry) with fnId := 8 }
  let metaBlock : Meta := { (default : Meta) with sapi := "cli" }
  let both : Op := .record default ⟨metaBlock, [callerEntry, calleeEntry], [callee, caller]⟩ 0 .none
  let first : Op := .record default ⟨metaBlock, [], [callee]⟩ 0 .none
  let second : Op := .record default ⟨metaBlock, [calleeEntry, callerEntry], [caller]⟩ 1 .none
  have hrun : Run Attempt.Step .empty [⟨both, true⟩] (both.exec .empty).1 :=
    .single (Attempt.step_exec (by decide +kernel))
  have hrun' : Run Attempt.Step .empty [⟨first, true⟩, ⟨second, true⟩]
      (second.exec (first.exec .empty).1).1 :=
    .cons (Attempt.step_exec (by decide +kernel)) (.single (Attempt.step_exec (by decide +kernel)))
  have honly : OnlyRecorded default [⟨both, true⟩] := fun a ha _ => by
    rw [List.mem_singleton.mp ha]
    exact Or.inl ⟨trivial, rfl⟩
  have honly' : OnlyRecorded default [⟨first, true⟩, ⟨second, true⟩] := fun a ha _ => by
    rcases List.mem_pair.mp ha with rfl | rfl <;> exact Or.inl ⟨trivial, rfl⟩
  have hcalls : ConsistentCalls [callee, caller] :=
    ⟨by decide, by decide, by decide, by decide⟩
  have hsum : SummableCalls [callee, caller] :=
    ⟨.of_nonneg (by decide) (by decide), .of_nonneg (by decide) (by decide),
      .of_nonneg (by decide) (by decide), .of_nonneg (by decide) (by decide)⟩
  have hnodes : ((both.exec .empty).1.traces default).map (·.nodes.rows.map NodeRow.fnId) =
      some [0, 7, 8] := by decide +kernel
  have hsome : ((second.exec (first.exec .empty).1).1.traces default).isSome := by decide +kernel
  obtain ⟨db, hdb, hfns⟩ := Option.map_eq_some_iff.mp hnodes
  obtain ⟨db', hdb'⟩ := Option.isSome_iff_exists.mp hsome
  have hsame := confluence_of_run Engine.stored Engine.stored rfl rfl rfl rfl hrun hrun' honly
    honly' hcalls hsum (.refl _) (.refl _) (.swap _ _ _) hdb hdb'
  exact ⟨_, _, _, _, db, db', hrun, hrun', hdb, hdb', hfns, rfl, rfl, hsame.1⟩

end PhpTreeViz
