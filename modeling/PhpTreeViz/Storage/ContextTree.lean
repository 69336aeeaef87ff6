import PhpTreeViz.Core.Grouping
import PhpTreeViz.Storage.Runs

/-!
# The calling-context tree

`ContextTree` says what the `nodes` table of a trace is for: it is the tree of the calling contexts
of the recorded calls, with the totals of each context. Every database that agrees with its history
is such a tree.
-/

namespace PhpTreeViz

open Core

/-- The recorded calls mapped to the node `n`. -/
def mappedCalls (db : TraceDb) (version : UInt32 → Option Call) (n : ℕ) : List Call :=
  db.callToNode.rows.filterMap fun m => if m.nodeId = n then version m.callId else none

/-- The children of the node `n`. -/
def childrenOf (db : TraceDb) (n : ℕ) : List NodeRow :=
  db.nodes.rows.filter (·.parentNodeId = some n)

/-- The sums that the tree keeps, node by node, are sums of 64-bit integers. -/
structure SumsFit (db : TraceDb) (version : UInt32 → Option Call) : Prop where
  wall : ∀ n, FitsI64 ((mappedCalls db version n).map Call.exactWall)
  childrenWall : ∀ n, FitsI64 ((childrenOf db n).flatMap fun r =>
    (mappedCalls db version r.nodeId).map Call.exactWall)
  cpuU : ∀ n, FitsI64 ((mappedCalls db version n).map (·.cpuU.toInt))
  cpuS : ∀ n, FitsI64 ((mappedCalls db version n).map (·.cpuS.toInt))
  memDelta : ∀ n, FitsI64 ((mappedCalls db version n).map Call.exactMemDelta)

/-- Sums over all mapped calls that fit bound the sums node by node. -/
lemma SumsFit.of_all {db : TraceDb} {version : UInt32 → Option Call} (calls : List Call)
    (hcalls : db.callToNode.rows.filterMap (fun m => version m.callId) = calls)
    (hwall : FitsI64 (calls.map Call.exactWall)) (hcpuU : FitsI64 (calls.map (·.cpuU.toInt)))
    (hcpuS : FitsI64 (calls.map (·.cpuS.toInt)))
    (hmem : FitsI64 (calls.map Call.exactMemDelta)) : SumsFit db version := by
  have hmapped : ∀ n, mappedCalls db version n =
      (db.callToNode.rows.filter (·.nodeId = n)).filterMap fun m => version m.callId := by
    intro n
    rw [mappedCalls, List.filterMap_filter]
    simp only [decide_eq_true_eq]
  have hsub : ∀ n, (mappedCalls db version n).Subperm calls := by
    intro n
    rw [hmapped, ← hcalls]
    exact (List.filter_sublist.filterMap _).subperm
  refine ⟨fun n => hwall.subperm (subperm_map (hsub n) _), fun n => hwall.subperm ?_,
    fun n => hcpuU.subperm (subperm_map (hsub n) _),
    fun n => hcpuS.subperm (subperm_map (hsub n) _),
    fun n => hmem.subperm (subperm_map (hsub n) _)⟩
  have hgroups : (childrenOf db n).flatMap (fun r => mappedCalls db version r.nodeId) =
      (((childrenOf db n).map NodeRow.nodeId).flatMap fun k =>
        db.callToNode.rows.filter (·.nodeId = k)).filterMap fun m => version m.callId := by
    simp only [List.flatMap_map, List.filterMap_flatMap, hmapped]
  rw [← List.map_flatMap, hgroups, ← hcalls]
  exact subperm_map (subperm_filterMap (flatMap_groups_subperm _
    (db.nodes.nodup.sublist (List.filter_sublist.map _))) _) _

/-- The `nodes` table is the tree of the calling contexts of the mapped calls. -/
structure ContextTree (db : TraceDb) (version : UInt32 → Option Call) : Prop where
  root : db ≠ .fresh →
    ∃ r ∈ db.nodes.rows, r.nodeId = syntheticRootNodeId ∧ r.parentNodeId = none
  parent : ∀ r ∈ db.nodes.rows, r.nodeId ≠ syntheticRootNodeId →
    ∃ p ∈ db.nodes.rows, r.parentNodeId = some p.nodeId ∧ p.nodeId < r.nodeId
  unique : ∀ r ∈ db.nodes.rows, ∀ r' ∈ db.nodes.rows,
    r.parentNodeId = r'.parentNodeId → r.fnId = r'.fnId → r = r'
  placed : ∀ m ∈ db.callToNode.rows, ∃ c, version m.callId = some c ∧
    ∃ r ∈ db.nodes.rows, r.nodeId = m.nodeId ∧ r.fnId = c.fnId ∧
      (c.parent = 0 → r.parentNodeId = some syntheticRootNodeId) ∧
      (c.parent ≠ 0 → ∃ m' ∈ db.callToNode.rows,
        m'.callId = c.parent ∧ r.parentNodeId = some m'.nodeId)
  callCount : ∀ r ∈ db.nodes.rows, r.nodeId ≠ syntheticRootNodeId →
    r.callCount = (mappedCalls db version r.nodeId).length
  abnormalExitCount : ∀ r ∈ db.nodes.rows, r.nodeId ≠ syntheticRootNodeId →
    r.abnormalExitCount = (mappedCalls db version r.nodeId).countP (·.abnormalExit)
  totalWall : ∀ r ∈ db.nodes.rows, r.nodeId ≠ syntheticRootNodeId →
    r.totalWallNs.toInt? = some ((mappedCalls db version r.nodeId).map Call.exactWall).sum
  totalCpuU : ∀ r ∈ db.nodes.rows, r.nodeId ≠ syntheticRootNodeId →
    r.totalCpuUNs.toInt? = some ((mappedCalls db version r.nodeId).map (·.cpuU.toInt)).sum
  totalCpuS : ∀ r ∈ db.nodes.rows, r.nodeId ≠ syntheticRootNodeId →
    r.totalCpuSNs.toInt? = some ((mappedCalls db version r.nodeId).map (·.cpuS.toInt)).sum
  totalMemDelta : ∀ r ∈ db.nodes.rows, r.nodeId ≠ syntheticRootNodeId →
    r.totalMemDeltaBytes.toInt? =
      some ((mappedCalls db version r.nodeId).map Call.exactMemDelta).sum
  childrenTotalWall : ∀ r ∈ db.nodes.rows, ∃ walls : List ℤ,
    (childrenOf db r.nodeId).map (·.totalWallNs.toInt?) = walls.map some ∧
      r.childrenTotalWallNs.toInt? = some walls.sum
  callToNode : db.callToNode.rows.length =
    ((db.nodes.rows.filter (·.nodeId ≠ syntheticRootNodeId)).map NodeRow.callCount).sum

/-! ### The mapped calls are the folded calls -/

/-- Calls with the same pending row differ in their depth only. -/
lemma PendingCall.ofCall_inj {c d : Call} (h : PendingCall.ofCall c = .ofCall d) :
    c = { d with depth := c.depth } := by
  obtain ⟨⟩ := c
  obtain ⟨⟩ := d
  simp only [PendingCall.ofCall, PendingCall.mk.injEq] at h
  obtain ⟨rfl, rfl, rfl, rfl, rfl, rfl, rfl, rfl, rfl, rfl⟩ := h
  rfl

namespace WellFormed

variable {s : Traced}

lemma exists_version (h : WellFormed s) {f : Folded} (hf : f ∈ s.log) :
    ∃ d, s.version f.call.callId = some { f.call with depth := d } := by
  obtain ⟨c, hc, heq⟩ := Option.map_eq_some_iff.mp (h.logVersion f hf)
  exact ⟨c.depth, by rw [hc, PendingCall.ofCall_inj heq]⟩

/-- A folded call was recorded, perhaps with another depth. -/
lemma exists_mem_versions (h : WellFormed s) {f : Folded} (hf : f ∈ s.log) :
    ∃ d, { f.call with depth := d } ∈ s.versions := by
  obtain ⟨d, hd⟩ := h.exists_version hf
  exact ⟨d, List.mem_of_find?_eq_some hd⟩

lemma map_filterMap_rows {version : UInt32 → Option Call} {β : Type*} {g : Call → β}
    (hg : ∀ c d, g { c with depth := d } = g c) (n : ℕ) {l : List Folded}
    (hl : ∀ f ∈ l, ∃ d, version f.call.callId = some { f.call with depth := d }) :
    ((l.map Folded.row).filterMap fun m =>
      if m.nodeId = n then version m.callId else none).map g =
      (l.filter (·.node = n)).map fun f => g f.call := by
  induction l with
  | nil => rfl
  | cons f l ih =>
    simp only [List.mem_cons, forall_eq_or_imp] at hl
    obtain ⟨⟨d, hd⟩, hl⟩ := hl
    by_cases hn : f.node = n
    · rw [List.filter_cons_of_pos (by simpa using hn), List.map_cons, List.map_cons, ← ih hl,
        List.filterMap_cons_some (b := { f.call with depth := d }) (by simp [Folded.row, hn, hd]),
        List.map_cons, hg]
    · rw [List.filter_cons_of_neg (by simpa using hn), List.map_cons, ← ih hl,
        List.filterMap_cons_none (by simp [Folded.row, hn])]

/-- What does not depend on the depth is the same for the mapped and for the folded calls. -/
lemma map_mappedCalls (h : WellFormed s) {β : Type*} {g : Call → β}
    (hg : ∀ c d, g { c with depth := d } = g c) (n : ℕ) :
    (mappedCalls s.db s.version n).map g =
      (s.log.filter (·.node = n)).map fun f => g f.call := by
  rw [mappedCalls, h.mapped]
  exact map_filterMap_rows hg n fun _ hf => h.exists_version hf

/-- What the folded calls have is among what the recorded calls have. -/
lemma map_log_subperm (h : WellFormed s) {β : Type*} {g : Call → β}
    (hg : ∀ c d, g { c with depth := d } = g c) :
    (s.log.map fun f => g f.call).Subperm (s.versions.map g) := by
  let calls := s.log.map fun f => (s.version f.call.callId).getD f.call
  have hversion : ∀ f ∈ s.log, ∃ d, (s.version f.call.callId).getD f.call =
      { f.call with depth := d } ∧ { f.call with depth := d } ∈ s.versions := by
    intro f hf
    obtain ⟨d, hd⟩ := h.exists_version hf
    exact ⟨d, by rw [hd, Option.getD_some], List.mem_of_find?_eq_some hd⟩
  have hcalls : calls.map g = s.log.map fun f => g f.call := by
    rw [List.map_map]
    refine List.map_congr_left fun f hf => ?_
    obtain ⟨d, hd, -⟩ := hversion f hf
    rw [Function.comp_apply, hd, hg]
  have hnodup : calls.Nodup := by
    apply List.Nodup.of_map Call.callId
    rw [List.map_map, List.map_congr_left (g := fun f => f.call.callId)]
    · exact h.nodup_log
    · intro f hf
      obtain ⟨d, hd, -⟩ := hversion f hf
      rw [Function.comp_apply, hd]
  rw [← hcalls]
  refine subperm_map (List.subperm_of_subset hnodup fun c hc => ?_) g
  obtain ⟨f, hf, rfl⟩ := List.mem_map.mp hc
  obtain ⟨d, hd, hmem⟩ := hversion f hf
  exact hd ▸ hmem

/-- A column that adds a number of the mapped calls holds the exact sum of these numbers. -/
lemma column_eq_sum (h : WellFormed s) (col : Column) (hslot : col.slot = Folded.node)
    {exact : Call → ℤ} (hdepth : ∀ c d, exact { c with depth := d } = exact c)
    (hexact : ∀ c, InI64 (exact c) → (col.value c).toInt = exact c) {r : NodeRow}
    (hr : r ∈ s.db.nodes.rows)
    (hfits : FitsI64 ((mappedCalls s.db s.version r.nodeId).map exact)) :
    (col.get r).toInt? = some ((mappedCalls s.db s.version r.nodeId).map exact).sum := by
  rw [h.map_mappedCalls hdepth] at hfits ⊢
  have hvalues : col.values s.log r.nodeId =
      (s.log.filter (·.node = r.nodeId)).map fun f => exact f.call := by
    rw [Column.values, hslot]
    exact List.map_congr_left fun f hf => hexact _ (hfits.mem (List.mem_map.mpr ⟨f, hf, rfl⟩))
  have hinv := h.sums col r hr
  rw [hvalues] at hinv
  exact hinv hfits

/-- The folds below a node, child by child. -/
lemma perm_childrenOf (h : WellFormed s) (n : ℕ) :
    (s.log.filter (·.parentNode = n)).Perm
      ((childrenOf s.db n).flatMap fun r => s.log.filter (·.node = r.nodeId)) := by
  have hnodup : ((childrenOf s.db n).map NodeRow.nodeId).Nodup :=
    s.db.nodes.nodup.sublist (List.filter_sublist.map _)
  have hmem : ∀ f ∈ s.log.filter (·.parentNode = n),
      f.node ∈ (childrenOf s.db n).map NodeRow.nodeId := by
    intro f hf
    obtain ⟨hf, hp⟩ := List.mem_filter.mp hf
    obtain ⟨r, hr, hid, hpar, -⟩ := h.tree.placed f hf
    simp only [decide_eq_true_eq] at hp
    refine List.mem_map.mpr ⟨r, List.mem_filter.mpr ⟨hr, ?_⟩, hid⟩
    simp [hpar, hp]
  refine (perm_flatMap_groups hnodup hmem).trans (List.Perm.of_eq ?_)
  rw [List.flatMap_map]
  apply List.flatMap_congr
  intro r hr
  obtain ⟨hr, hpar⟩ := List.mem_filter.mp hr
  rw [List.filter_filter]
  apply List.filter_congr
  intro f hf
  -- a fold into a child of `n` is a fold below `n`
  obtain ⟨r', hr', hid, hpar', -⟩ := h.tree.placed f hf
  by_cases hn : f.node = r.nodeId
  · have hrr : r' = r := s.db.nodes.eq_of_key hr' hr (hid.trans hn)
    simp only [decide_eq_true_eq] at hpar
    rw [hrr, hpar, Option.some.injEq] at hpar'
    simp [hn, hpar'.symm]
  · simp [hn]

/-- The children's total of a node is the sum of the totals of its children. -/
lemma childrenTotalWall_eq_sum (h : WellFormed s) (hfits : SumsFit s.db s.version) {r : NodeRow}
    (hr : r ∈ s.db.nodes.rows) :
    r.childrenTotalWallNs.toInt? = some ((childrenOf s.db r.nodeId).map fun c =>
      ((mappedCalls s.db s.version c.nodeId).map Call.exactWall).sum).sum := by
  have hperm := (h.perm_childrenOf r.nodeId).map fun f => f.call.exactWall
  have hflat : (childrenOf s.db r.nodeId).flatMap (fun c =>
      (mappedCalls s.db s.version c.nodeId).map Call.exactWall) =
      ((childrenOf s.db r.nodeId).flatMap fun c =>
        s.log.filter (·.node = c.nodeId)).map fun f => f.call.exactWall := by
    rw [List.map_flatMap]
    exact List.flatMap_congr fun c _ => h.map_mappedCalls (fun _ _ => rfl) c.nodeId
  have hall : FitsI64 ((s.log.filter (·.parentNode = r.nodeId)).map fun f => f.call.exactWall) := by
    have := hfits.childrenWall r.nodeId
    rw [hflat] at this
    exact this.subperm hperm.subperm
  have hvalues : Column.childrenTotalWall.values s.log r.nodeId =
      (s.log.filter (·.parentNode = r.nodeId)).map fun f => f.call.exactWall :=
    List.map_congr_left fun f hf =>
      Call.toInt_wall_of_fits (hall.mem (List.mem_map.mpr ⟨f, hf, rfl⟩))
  have hinv := h.sums .childrenTotalWall r hr
  rw [hvalues] at hinv
  refine (hinv hall).trans (congrArg some ?_)
  rw [hperm.sum_eq, ← hflat, List.flatMap_def, List.sum_flatten, List.map_map]
  rfl

lemma length_callToNode (h : WellFormed s) : s.db.callToNode.rows.length =
    ((s.db.nodes.rows.filter (·.nodeId ≠ syntheticRootNodeId)).map NodeRow.callCount).sum := by
  have hnodup : ((s.db.nodes.rows.filter (·.nodeId ≠ syntheticRootNodeId)).map
      NodeRow.nodeId).Nodup := s.db.nodes.nodup.sublist (List.filter_sublist.map _)
  have hmem : ∀ f ∈ s.log, f.node ∈
      (s.db.nodes.rows.filter (·.nodeId ≠ syntheticRootNodeId)).map NodeRow.nodeId := by
    intro f hf
    obtain ⟨r, hr, hid, -⟩ := h.tree.placed f hf
    refine List.mem_map.mpr ⟨r, List.mem_filter.mpr ⟨hr, ?_⟩, hid⟩
    simpa [hid] using h.tree.node_ne_root hf
  rw [h.mapped, List.length_map, length_eq_sum_groups hnodup hmem, List.map_map]
  refine congrArg List.sum (List.map_congr_left fun r hr => ?_)
  exact (h.tree.callCount r (List.mem_filter.mp hr).1).symm

/-- A database that agrees with its history is a calling-context tree, if no call has the id that
stands for "no parent". -/
theorem contextTree (h : WellFormed s) (h0 : ∀ f ∈ s.log, f.call.callId ≠ 0)
    (hfits : SumsFit s.db s.version) : ContextTree s.db s.version := by
  constructor
  · intro _
    obtain ⟨r, hr, hid, hpar, -⟩ := h.tree.root
    exact ⟨r, hr, hid, hpar⟩
  · intro r hr hne
    obtain ⟨p, hp, hlt, q, hq, rfl⟩ := h.tree.parent r hr hne
    exact ⟨q, hq, hp, hlt⟩
  · exact h.tree.unique
  · intro m hm
    rw [h.mapped] at hm
    obtain ⟨f, hf, rfl⟩ := List.mem_map.mp hm
    obtain ⟨d, hd⟩ := h.exists_version hf
    obtain ⟨r, hr, hid, hpar, hfn⟩ := h.tree.placed f hf
    refine ⟨_, hd, r, hr, hid, hfn, fun hp0 => ?_, fun hp0 => ?_⟩
    · rcases h.parentAt_iff.mp (h.parentAt f hf) with ⟨-, hroot⟩ | ⟨g, hg, hid', -⟩
      · rw [hpar, hroot]
      · exact absurd (hid'.trans hp0) (h0 g hg)
    · rcases h.parentAt f hf with ⟨hzero, -⟩ | hmem
      · exact absurd hzero hp0
      · exact ⟨_, hmem, rfl, hpar⟩
  · intro r hr _
    have := congrArg List.length (h.map_mappedCalls (g := fun _ => ()) (fun _ _ => rfl) r.nodeId)
    rw [List.length_map, List.length_map] at this
    rw [this, h.tree.callCount r hr, List.countP_eq_length_filter]
  · intro r hr _
    have := congrArg (List.countP id)
      (h.map_mappedCalls (g := Call.abnormalExit) (fun _ _ => rfl) r.nodeId)
    rw [List.countP_map, List.countP_map, List.countP_filter] at this
    rw [h.tree.abnormalExitCount r hr]
    refine Eq.trans ?_ this.symm
    exact List.countP_congr fun f _ => by simp [and_comm]
  · exact fun r hr _ => h.column_eq_sum .totalWall rfl (fun _ _ => rfl)
      (fun _ => Call.toInt_wall_of_fits) hr (hfits.wall _)
  · exact fun r hr _ => h.column_eq_sum .totalCpuU rfl (fun _ _ => rfl) (fun _ _ => rfl) hr
      (hfits.cpuU _)
  · exact fun r hr _ => h.column_eq_sum .totalCpuS rfl (fun _ _ => rfl) (fun _ _ => rfl) hr
      (hfits.cpuS _)
  · exact fun r hr _ => h.column_eq_sum .totalMemDelta rfl (fun _ _ => rfl)
      (fun _ => Call.toInt_memDelta_of_fits) hr (hfits.memDelta _)
  · intro r hr
    refine ⟨_, ?_, h.childrenTotalWall_eq_sum hfits hr⟩
    rw [List.map_map]
    apply List.map_congr_left
    intro c hc
    exact h.column_eq_sum .totalWall rfl (fun _ _ => rfl) (fun _ => Call.toInt_wall_of_fits)
      (List.mem_filter.mp hc).1 (hfits.wall _)
  · exact h.length_callToNode

end WellFormed

/-! ### Every run -/

/-- No call of the trace has the `call_id` that means "no parent". -/
def CallIdsPositive (key : TraceKey) (as : List Attempt) : Prop :=
  ∀ a ∈ as, ∀ batch now fault, a.op = .record key batch now fault →
    ∀ c ∈ batch.calls, c.callId ≠ 0

/-- What holds of every call that is delivered to a trace holds of those that are recorded. -/
lemma recorded_forall [Engine] {key : TraceKey} {o o' : Observed} {as : List Attempt}
    {P : Call → Prop} (hrun : Run (Observed.Step key) o as o')
    (hP : ∀ a ∈ as, ∀ batch now fault, a.op = .record key batch now fault → ∀ c ∈ batch.calls, P c)
    (h0 : ∀ c ∈ o.recorded, P c) : ∀ c ∈ o'.recorded, P c := by
  refine hrun.invariant (I := fun o : Observed => ∀ c ∈ o.recorded, P c) ?_ hP h0
  rintro o a o' ha ⟨-, hrec⟩ hinv c hc
  rw [hrec] at hc
  rcases List.mem_append.mp hc with hc | hc
  · obtain ⟨batch, now, fault, hop, hmem⟩ := recordedBy_subset hc
    exact ha batch now fault hop c hmem
  · exact hinv c hc

lemma recorded_ne_zero [Engine] {key : TraceKey} {o o' : Observed} {as : List Attempt}
    (hrun : Run (Observed.Step key) o as o') (hids : CallIdsPositive key as)
    (h0 : ∀ c ∈ o.recorded, c.callId ≠ 0) : ∀ c ∈ o'.recorded, c.callId ≠ 0 :=
  recorded_forall hrun hids h0

/-- Whatever is done to a trace, from the first batch on, its `nodes` table is the calling-context
tree of the calls recorded for it. -/
theorem contextTree_of_run [Engine] {key : TraceKey} {s : Storage} {o : Observed}
    {as : List Attempt} {db : TraceDb} (hempty : s.traces key = none)
    (hrun : Run (Observed.Step key) ⟨s, []⟩ as o) (hids : CallIdsPositive key as)
    (hdb : o.storage.traces key = some db) (hfits : SumsFit db o.version) :
    ContextTree db o.version := by
  have hne := recorded_ne_zero hrun hids (by simp)
  rcases Observed.wellFormed_of_run hempty hrun hdb with rfl | ⟨log, hwf⟩
  · constructor <;> simp [TraceDb.fresh]
  · refine hwf.contextTree (fun f hf h0 => ?_) hfits
    obtain ⟨d, hd⟩ := hwf.exists_mem_versions hf
    exact hne _ hd h0

/-- A call and its caller, delivered in one batch. -/
theorem contextTree_of_run_two_calls :
    letI := Engine.stored
    ∃ as o db, Run (Observed.Step default) ⟨.empty, []⟩ as o ∧
      o.storage.traces default = some db ∧ db.callToNode.rows.length = 2 ∧
      ContextTree db o.version := by
  let _ := Engine.stored
  let batch : Batch :=
    { metaBlock := { (default : Meta) with sapi := "cli" }
      dict := [{ (default : DictEntry) with fnId := 7 }]
      calls := [{ (default : Call) with callId := 2, parent := 1, fnId := 7, tOut := 3 },
        { (default : Call) with callId := 1, fnId := 7, tOut := 5 }] }
  let op : Op := .record default batch 0 .none
  let o : Observed := ⟨(op.exec .empty).1, recordedBy default .empty op⟩
  have hrun : Run (Observed.Step default) ⟨.empty, []⟩ [⟨op, true⟩] o :=
    .single ⟨rfl, rfl⟩
  refine ⟨_, o, _, hrun, rfl, by decide, contextTree_of_run rfl hrun ?_ rfl ?_⟩
  · rintro a ha batch now fault hop c hc
    obtain rfl : a = ⟨op, true⟩ := by simpa using ha
    cases hop
    revert c
    decide
  · refine SumsFit.of_all batch.calls.reverse (by decide) ?_ ?_ ?_ ?_ <;>
      exact FitsI64.of_nonneg (by decide) (by decide)

end PhpTreeViz
