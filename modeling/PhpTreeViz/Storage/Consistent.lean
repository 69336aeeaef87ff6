import PhpTreeViz.Storage.Counters
import PhpTreeViz.Storage.Delivery

/-!
# Traces of consistent calls

The wire depth of a call that is folded at once goes into its node, that of a parked call is lost
and computed again from the node of its caller. When the calls of a trace have distinct ids and
depths that agree with their callers, the two are the same, and every call is folded as it was sent.
-/

namespace PhpTreeViz

open Core

/-- Calls with distinct ids, none of them "no parent", whose depths agree with their callers. -/
structure ConsistentCalls (calls : List Call) : Prop where
  nodup : (calls.map Call.callId).Nodup
  positive : ∀ c ∈ calls, c.callId ≠ 0
  top : ∀ c ∈ calls, c.parent = 0 → c.depth = 1
  nested : ∀ c ∈ calls, ∀ p ∈ calls, c.parent = p.callId → c.depth.toNat = p.depth.toNat + 1

/-- No sum of what the calls add to one of the totals leaves 64 bits. -/
structure SummableCalls (calls : List Call) : Prop where
  wall : FitsI64 (calls.map (·.wall.toInt))
  cpuU : FitsI64 (calls.map (·.cpuU.toInt))
  cpuS : FitsI64 (calls.map (·.cpuS.toInt))
  memDelta : FitsI64 (calls.map (·.memDelta.toInt))

lemma ConsistentCalls.eq_of_callId {calls : List Call} (h : ConsistentCalls calls) {c d : Call}
    (hc : c ∈ calls) (hd : d ∈ calls) (hid : c.callId = d.callId) : c = d :=
  List.inj_on_of_nodup_map h.nodup hc hd hid

lemma ConsistentCalls.depth_eq {calls : List Call} (h : ConsistentCalls calls) {c p : Call}
    (hc : c ∈ calls) (hp : p ∈ calls) (hid : c.parent = p.callId) : c.depth = p.depth + 1 := by
  have hdepth := h.nested c hc p hp hid
  have hlt := c.depth.toNat_lt
  apply UInt32.toNat_inj.mp
  rw [UInt32.toNat_add, hdepth, UInt32.toNat_one, Nat.mod_eq_of_lt (by omega)]

/-! ### Depths -/

/-- The folded calls are calls that were sent, and the depth of a node is that of its calls. -/
structure DepthInv (calls : List Call) (s : Traced) : Prop where
  versions : ∀ c ∈ s.versions, c ∈ calls
  sent : ∀ f ∈ s.log, f.call ∈ calls
  depth : ∀ f ∈ s.log, ∀ r ∈ s.db.nodes.rows, r.nodeId = f.node → r.depth = f.call.depth

namespace DepthInv

variable {calls : List Call} {s t : Traced}

lemma callId_ne_zero (h : DepthInv calls s) (hcalls : ConsistentCalls calls) {f : Folded}
    (hf : f ∈ s.log) : f.call.callId ≠ 0 := hcalls.positive _ (h.sent f hf)

/-- A call is one level below the node of its caller. -/
lemma depth_of_parentAt (h : DepthInv calls s) (hwf : WellFormed s) (hcalls : ConsistentCalls calls)
    {c : Call} (hc : c ∈ calls) {n : ℕ} (hn : ParentAt s.db c.parent n) {r : NodeRow}
    (hr : r ∈ s.db.nodes.rows) (hid : r.nodeId = n) : c.depth = r.depth + 1 := by
  rcases hwf.parentAt_iff.mp hn with ⟨h0, rfl⟩ | ⟨g, hg, hgid, rfl⟩
  · obtain ⟨r₀, hr₀, hid₀, -, hdepth⟩ := hwf.tree.root
    rw [s.db.nodes.eq_of_key hr hr₀ (hid.trans hid₀.symm), hdepth, hcalls.top c hc h0]
    rfl
  · rw [h.depth g hg r hr hid]
    exact hcalls.depth_eq hc (h.sent g hg) hgid.symm

/-- The depth that a drain computes is the one that was sent. -/
lemma depth_of_depthBelow (h : DepthInv calls s) (hwf : WellFormed s)
    (hcalls : ConsistentCalls calls) {c : Call} (hc : c ∈ calls) {n : ℕ}
    (hn : ParentAt s.db c.parent n) {depth : UInt32} (hd : s.DepthBelow c.parent n depth) :
    depth = c.depth := by
  rcases hd with ⟨r, hr, hid, rfl⟩ | ⟨f, hf, hid, -, rfl⟩
  · exact (h.depth_of_parentAt hwf hcalls hc hn hr hid).symm
  · exact (hcalls.depth_eq hc (h.sent f hf) hid.symm).symm

lemma fold (h : DepthInv calls s) (hwf : WellFormed s) (hcalls : ConsistentCalls calls) {c : Call}
    (hc : c ∈ calls) {n : ℕ} (hn : ParentAt s.db c.parent n) : DepthInv calls (s.fold n c) := by
  refine ⟨h.versions, Traced.forall_mem_log_fold h.sent hc, fun f hf r hr hid => ?_⟩
  obtain ⟨r₀, hr₀, rfl⟩ := mem_foldNodes.mp hr
  rw [NodeRow.depth_touch]
  rw [NodeRow.nodeId_touch] at hid
  rcases List.mem_append.mp hf with hf | hf
  · rcases mem_ensureNode.mp hr₀ with hr₀ | ⟨-, rfl⟩
    · exact h.depth f hf r₀ hr₀ hid
    · exact absurd hid.symm (hwf.tree.node_ne_next hf)
  · obtain rfl := List.mem_singleton.mp hf
    rcases mem_ensureNode.mp hr₀ with hr₀ | ⟨-, rfl⟩
    · -- the bucket has calls already, and they have the same caller's node
      obtain ⟨r₁, hr₁, hid₁, hpar, -⟩ := exists_foldTarget s.db.nodes n c
      have hmem : r₁ ∈ s.db.nodes.rows := by
        rcases mem_ensureNode.mp hr₁ with hr₁ | ⟨-, rfl⟩
        · exact hr₁
        · exact absurd ⟨r₀, hr₀, hid.trans hid₁.symm⟩ (not_hasKey_nextNodeId _)
      obtain rfl := s.db.nodes.eq_of_key hr₀ hmem (hid.trans hid₁.symm)
      have hne : r₀.nodeId ≠ syntheticRootNodeId := fun hroot => by
        rw [(hwf.tree.parentNodeId_eq_none hr₀).mpr hroot] at hpar
        cases hpar
      obtain ⟨g, hg, hgid⟩ := hwf.tree.used r₀ hr₀ hne
      obtain ⟨r₂, hr₂, hid₂, hpar₂, -⟩ := hwf.tree.placed g hg
      obtain rfl := s.db.nodes.eq_of_key hr₂ hr₀ (hid₂.trans hgid)
      obtain rfl : g.parentNode = n := Option.some.inj (hpar₂.symm.trans hpar)
      obtain ⟨q, hq, hqid⟩ := hwf.hasKey_parent hn
      rw [h.depth g hg r₂ hr₂ hid₂,
        h.depth_of_parentAt hwf hcalls (h.sent g hg) (hwf.parentAt g hg) hq hqid]
      exact (h.depth_of_parentAt hwf hcalls hc hn hq hqid).symm
    · rfl

theorem step (h : DepthInv calls s) (hwf : WellFormed s) (hcalls : ConsistentCalls calls)
    {e : Event} (hstep : Step s e t) (he : ∀ c ∈ e.recorded, c ∈ calls) : DepthInv calls t := by
  have hpush : ∀ c : Call, c ∈ calls → DepthInv calls (s.push c) := fun c hc =>
    { h with versions := fun d hd => (List.mem_cons.mp hd).elim (fun h => h ▸ hc) (h.versions d) }
  cases hstep with
  | skip _ => exact h
  | @fold c n hnew _ hn =>
    have hc : c ∈ calls := he c (List.mem_singleton.mpr rfl)
    exact (hpush c hc).fold (hwf.push hnew) hcalls hc hn
  | @park c _ _ _ _ =>
    exact { hpush c (he c (List.mem_singleton.mpr rfl)) with }
  | @resolve p depth n hp _ hn hd =>
    obtain ⟨c, hc, hpc⟩ := Option.map_eq_some_iff.mp (hwf.pendingVersion p hp)
    have hmem : c ∈ calls := h.versions c (List.mem_of_find?_eq_some hc)
    obtain rfl : PendingCall.ofCall c = p := hpc
    obtain rfl : depth = c.depth := h.depth_of_depthBelow hwf hcalls hmem hn hd
    have hunpark : DepthInv calls (s.unpark (.ofCall c)) := { h with }
    exact hunpark.fold (hwf.unpark _) hcalls hmem hn

lemma run (h : DepthInv calls s) (hwf : WellFormed s) (hcalls : ConsistentCalls calls)
    {es : List Event} (hrun : Run Step s es t) (hes : ∀ e ∈ es, ∀ c ∈ e.recorded, c ∈ calls) :
    DepthInv calls t := by
  induction hrun with
  | nil => exact h
  | cons hstep _ ih =>
    simp only [List.mem_cons, forall_eq_or_imp] at hes
    exact ih (h.step hwf hcalls hstep hes.1) (hstep.wellFormed hwf) hes.2

end DepthInv

/-! ### Sums in the index -/

/-- Wall times that sum up to less than `2 ^ 63` are added without overflow. -/
lemma toInt_foldl_wall (calls : List Call) {n : Int64} (h0 : 0 ≤ n.toInt)
    (h : n.toInt + (calls.map (·.wall.toInt)).sum < 2 ^ 63) :
    (calls.foldl (fun n c => n + c.wall) n).toInt = n.toInt + (calls.map (·.wall.toInt)).sum := by
  induction calls generalizing n with
  | nil => simp
  | cons c calls ih =>
    rw [List.map_cons, List.sum_cons] at h ⊢
    have hc := c.toInt_wall_nonneg
    have hrest : 0 ≤ (calls.map (·.wall.toInt)).sum := by
      apply List.sum_nonneg
      intro x hx
      obtain ⟨d, -, rfl⟩ := List.mem_map.mp hx
      exact d.toInt_wall_nonneg
    have hadd : (n + c.wall).toInt = n.toInt + c.wall.toInt :=
      InI64.toInt_add ⟨by omega, by omega⟩
    rw [List.foldl_cons, ih (by omega) (by omega), hadd, Int.add_assoc]

/-- A batch adds the wall times of the calls that it records, if their sum fits. -/
lemma totalWallNsDelta_eq {s t : Traced} {calls : List Call} {es : List Event}
    (hrun : Run Step s es t) (hversions : t.versions = calls ++ s.versions)
    (hfits : (calls.map (·.wall.toInt)).sum < 2 ^ 63) :
    (es.foldl AggregateOutcome.record {}).totalWallNsDelta.toInt =
      (calls.map (·.wall.toInt)).sum := by
  have hsum := ((recorded_perm_of_run hrun hversions).map (·.wall.toInt)).sum_eq
  have hfold := toInt_foldl_wall (es.flatMap Event.recorded) (n := 0) (by simp)
    (by rw [hsum]; simpa using hfits)
  rw [totalWallNsDelta_foldl, hfold, hsum, Int64.toInt_zero, Int.zero_add]

/-- What is known about a trace to which only consistent calls were delivered. -/
structure Consistent (calls : List Call) (row : Option TraceRow) (s : Traced) : Prop
    extends DepthInv calls s where
  nodup : (s.versions.map Call.callId).Nodup
  known : ∀ c ∈ s.versions, CallIdAlreadyKnown s.db c.callId
  anomalies : ∀ a ∈ s.db.anomalies, a.kind = .invertedTime
  callCount : row.elim 0 TraceRow.callCount = s.versions.length
  totalWallNs : (row.elim (.integer 0) TraceRow.totalWallNs).toInt? =
    some (s.versions.map (·.wall.toInt)).sum
  anomalyCount : row.elim 0 TraceRow.anomalyCount = s.db.anomalies.length
  cpuSnapshotAvailable : ∀ r ∈ row, r.cpuSnapshotAvailable = true

namespace Consistent

variable {calls : List Call} {row : Option TraceRow} {key : TraceKey} {s t : Traced}
  {batch : Batch} {es₁ es₂ : List Event}

lemma empty (calls : List Call) : Consistent calls none ⟨.fresh, [], []⟩ where
  versions := by simp
  sent := by simp
  depth := by simp
  nodup := by simp
  known := by simp
  anomalies := by simp [TraceDb.fresh]
  callCount := rfl
  totalWallNs := rfl
  anomalyCount := rfl
  cpuSnapshotAvailable := by simp

lemma depthInv_record (h : DepthInv calls s) (hcalls : ConsistentCalls calls) (hinv : TraceInv s)
    (hrec : TraceRecorded key s batch es₁ es₂ t) (hbatch : ∀ c ∈ batch.calls, c ∈ calls) :
    DepthInv calls t := by
  have hprep : DepthInv calls ⟨prepareTrace key s.db batch, s.log, s.versions⟩ := by
    refine ⟨h.versions, h.sent, ?_⟩
    rcases hinv with ⟨-, hlog⟩ | ⟨hwf, -⟩
    · simp [hlog]
    · rw [hwf.prepareTrace_eq key batch]
      exact h.depth
  apply hprep.run (hinv.wellFormed_prepareTrace key batch) hcalls hrec.aggregated.run
  intro e he c hc
  have hmem := hrec.recorded_perm.subset (List.mem_flatMap.mpr ⟨e, he, hc⟩)
  exact hbatch c (newCalls_sublist.subset hmem)

/-- No new call has the id of a known one. -/
lemma nodup_record (h : Consistent calls row s) (hrec : TraceRecorded key s batch es₁ es₂ t) :
    (t.versions.map Call.callId).Nodup := by
  rw [hrec.versions, List.map_append]
  apply nodup_newCalls.append h.nodup
  intro id hid hid'
  obtain ⟨c, hc, rfl⟩ := List.mem_map.mp hid
  obtain ⟨d, hd, heq⟩ := List.mem_map.mp hid'
  exact not_known_of_mem_newCalls hc (heq ▸ h.known d hd)

/-- One more batch. -/
theorem record (h : Consistent calls row s) (hcalls : ConsistentCalls calls)
    (hwall : FitsI64 (calls.map (·.wall.toInt))) (hinv : TraceInv s)
    (hrec : TraceRecorded key s batch es₁ es₂ t) (hbatch : ∀ c ∈ batch.calls, c ∈ calls)
    (now : Int64) :
    Consistent calls (some (.upserted row key batch.metaBlock now (outcomeOf (es₁ ++ es₂) t)))
      t := by
  obtain ⟨new, hnew⟩ := appended_of_run hrec.aggregated.run
  have hdepth := depthInv_record h.toDepthInv hcalls hinv hrec hbatch
  have hnodup := h.nodup_record hrec
  have hfits : FitsI64 (t.versions.map (·.wall.toInt)) :=
    hwall.subperm (subperm_map (List.subperm_of_subset hnodup.of_map hdepth.versions) _)
  have hdelta : (outcomeOf (es₁ ++ es₂) t).totalWallNsDelta.toInt =
      ((newCalls s.db batch.calls).map (·.wall.toInt)).sum := by
    apply totalWallNsDelta_eq hrec.aggregated.run hrec.versions
    refine (hfits.subperm ?_).sum.2
    rw [hrec.versions]
    exact ((List.sublist_append_left _ _).map _).subperm
  refine
    { toDepthInv := hdepth
      nodup := hnodup
      known := fun c hc => ?_
      anomalies := ?_
      callCount := ?_
      totalWallNs := ?_
      anomalyCount := ?_
      cpuSnapshotAvailable := ?_ }
  · rw [hrec.known]
    rw [hrec.versions] at hc
    exact (List.mem_append.mp hc).symm.imp (h.known c) fun hc => List.mem_map_of_mem hc
  · rw [hnew.anomalies]
    intro a ha
    rcases List.mem_append.mp ha with ha | ha
    · exact h.anomalies a ha
    · obtain ⟨f, -, rfl⟩ := List.mem_map.mp ha
      rfl
  · rw [Option.elim_some, TraceRow.callCount_upserted, h.callCount, hrec.callCountDelta_eq,
      hrec.versions, List.length_append, Nat.add_comm]
  · have hsum := hfits.sum
    rw [hrec.versions, List.map_append, List.sum_append, Int.add_comm] at hsum ⊢
    rw [Option.elim_some, TraceRow.totalWallNs_upserted]
    exact NumCell.toInt?_add h.totalWallNs (by rw [NumCell.toInt?_integer, hdelta]) hsum
  · rw [Option.elim_some, TraceRow.anomalyCount_upserted, h.anomalyCount]
    exact hnew.length_anomalies.symm
  · rintro r ⟨⟩
    cases hrow : row with
    | none => rfl
    | some r => exact h.cpuSnapshotAvailable r hrow

end Consistent

/-! ### Every run -/

/-- Deliver consistent calls to a new trace, in any batches: all of them are recorded, each as it
was sent. -/
theorem consistent_of_run [Engine] {key : TraceKey} {s t : Storage} {as : List Attempt}
    {calls : List Call} (hempty : s.traces key = none) (hnew : s.index.find? key = none)
    (hrun : Run Attempt.Step s as t) (honly : OnlyRecorded key as)
    (hcalls : ConsistentCalls calls) (hwall : FitsI64 (calls.map (·.wall.toInt)))
    (hperm : ((deliveries key as).flatMap Batch.calls).Perm calls) :
    ∃ u, Delivered key t (deliveries key as) u ∧ Consistent calls (t.index.find? key) u ∧
      u.versions.Perm calls := by
  obtain ⟨u, hu, hcons⟩ := delivered_of_run_with (Q := Consistent calls) hempty hrun honly
    (by rw [hnew]; exact Consistent.empty calls)
    fun row u batch now es₁ es₂ u' hbatch hinv hrec h =>
      h.record hcalls hwall hinv hrec
        (fun c hc => hperm.subset (List.mem_flatMap.mpr ⟨batch, hbatch, hc⟩)) now
  refine ⟨u, hu, hcons, ?_⟩
  refine (List.perm_ext_iff_of_nodup hcons.nodup.of_map hcalls.nodup.of_map).mpr fun c =>
    ⟨hcons.versions c, fun hc => ?_⟩
  obtain ⟨b, hb, hcb⟩ := List.mem_flatMap.mp (hperm.symm.subset hc)
  have hsome := isSome_recordedVersion hb hcb
  rw [← hu.version, Traced.version, List.find?_isSome] at hsome
  obtain ⟨d, hd, hid⟩ := hsome
  rwa [hcalls.eq_of_callId hc (hcons.versions d hd) (of_decide_eq_true hid).symm]

end PhpTreeViz
