import PhpTreeViz.Core.Interval
import PhpTreeViz.Core.Rounding
import PhpTreeViz.Storage.ContextTree

/-!
# Self time

The self time of a node is its total less the total of its children. The two totals are kept
independently, each fold adds to both, and nothing compares them. They are in order when the calls
are well nested: then the calls of one node do not overlap, and the calls below it divide their
intervals.
-/

namespace PhpTreeViz

open Core

/-! ### Well-nested calls -/

/-- The half-open intervals of two calls do not overlap. -/
abbrev Call.Apart : Call → Call → Prop := Core.Apart (·.tIn.toInt) (·.tOut.toInt)

/-- Calls lie inside their parents and next to their siblings. -/
structure Nested (calls : List Call) : Prop where
  nonneg : ∀ c ∈ calls, 0 ≤ c.tIn.toInt
  inside : ∀ c ∈ calls, ∀ p ∈ calls, c.parent = p.callId →
    p.tIn.toInt ≤ c.tIn.toInt ∧ c.tOut.toInt ≤ p.tOut.toInt
  apart : ∀ c ∈ calls, ∀ d ∈ calls, c.callId ≠ d.callId → c.parent = d.parent → c.Apart d

/-- Some of the calls are nested as well, whatever their depth. -/
lemma Nested.of_subset {calls calls' : List Call} (h : Nested calls)
    (hsub : ∀ c ∈ calls', ∃ d ∈ calls, c = { d with depth := c.depth }) : Nested calls' := by
  constructor
  · intro c hc
    obtain ⟨c', hc', heq⟩ := hsub c hc
    rw [heq]
    exact h.nonneg c' hc'
  · intro c hc p hp hparent
    obtain ⟨c', hc', heq⟩ := hsub c hc
    obtain ⟨p', hp', heq'⟩ := hsub p hp
    rw [heq, heq'] at hparent ⊢
    exact h.inside c' hc' p' hp' hparent
  · intro c hc d hd hne hparent
    obtain ⟨c', hc', heq⟩ := hsub c hc
    obtain ⟨d', hd', heq'⟩ := hsub d hd
    rw [heq, heq'] at hne hparent ⊢
    exact h.apart c' hc' d' hd' hne hparent

/-- Nested calls that do not exit before they enter. -/
structure WellNested (calls : List Call) : Prop extends Nested calls where
  ordered : ∀ c ∈ calls, c.tIn.toInt ≤ c.tOut.toInt

lemma WellNested.of_subset {calls calls' : List Call} (h : WellNested calls)
    (hsub : ∀ c ∈ calls', ∃ d ∈ calls, c = { d with depth := c.depth }) : WellNested calls' := by
  refine ⟨h.toNested.of_subset hsub, fun c hc => ?_⟩
  obtain ⟨c', hc', heq⟩ := hsub c hc
  rw [heq]
  exact h.ordered c' hc'

/-- The calls whose parent is `p` lie inside it, one after the other. -/
structure Call.Nests (p : Call) (calls : List Call) : Prop where
  inside : ∀ c ∈ calls, c.parent = p.callId → ¬ c.Inverted →
    p.tIn.toInt ≤ c.tIn.toInt ∧ c.tOut.toInt ≤ p.tOut.toInt
  apart : ∀ c ∈ calls, ∀ d ∈ calls, c.parent = p.callId → d.parent = p.callId →
    c.callId ≠ d.callId → c.Apart d

instance (p : Call) (calls : List Call) : Decidable (p.Nests calls) :=
  decidable_of_iff (_ ∧ _) ⟨fun h => ⟨h.1, h.2⟩, fun h => ⟨h.inside, h.apart⟩⟩

lemma Nested.nests {calls : List Call} (h : Nested calls) {p : Call} (hp : p ∈ calls) :
    p.Nests calls :=
  ⟨fun c hc hparent _ => h.inside c hc p hp hparent,
    fun c hc d hd hcp hdp hne => h.apart c hc d hd hne (hcp.trans hdp.symm)⟩

lemma Call.Nests.of_subset {p : Call} {calls calls' : List Call} (h : p.Nests calls)
    (hsub : ∀ c ∈ calls', ∃ d ∈ calls, c = { d with depth := c.depth }) : p.Nests calls' := by
  constructor
  · intro c hc hparent hord
    obtain ⟨c', hc', heq⟩ := hsub c hc
    rw [heq] at hparent hord ⊢
    exact h.inside c' hc' hparent hord
  · intro c hc d hd hcp hdp hne
    obtain ⟨c', hc', heq⟩ := hsub c hc
    obtain ⟨d', hd', heq'⟩ := hsub d hd
    rw [heq, heq'] at hne ⊢
    rw [heq] at hcp
    rw [heq'] at hdp
    exact h.apart c' hc' d' hd' hcp hdp hne

/-! ### The calls of one node -/

namespace WellFormed

variable {s : Traced} (h : WellFormed s)
include h

omit h in
/-- The time of each call of a node is stored exactly, if the node's total is a 64-bit integer. -/
lemma totalWall_values_eq {n : ℕ}
    (hfits : ((s.log.filter (·.node = n)).map fun f => f.call.exactWall).sum < 2 ^ 63) :
    Column.totalWall.values s.log n =
      (s.log.filter (·.node = n)).map fun f => f.call.exactWall := by
  have hall : FitsI64 ((s.log.filter (·.node = n)).map fun f => f.call.exactWall) := by
    refine FitsI64.of_nonneg (fun x hx => ?_) hfits
    obtain ⟨f, -, rfl⟩ := List.mem_map.mp hx
    exact f.call.exactWall_nonneg
  exact List.map_congr_left fun f hf =>
    Call.toInt_wall_of_fits (hall.mem (List.mem_map.mpr ⟨f, hf, rfl⟩))

/-- Folds of pairwise apart calls, those that are not inverted in an interval, take no longer than
it. -/
lemma sum_exactWall_le {l : List Folded} {lo hi : ℤ} (hl : l.Sublist s.log)
    (hapart : ∀ f ∈ l, ∀ g ∈ l, f.call.callId ≠ g.call.callId → f.call.Apart g.call)
    (hin : ∀ f ∈ l, ¬ f.call.Inverted → lo ≤ f.call.tIn.toInt ∧ f.call.tOut.toInt ≤ hi)
    (hlohi : lo ≤ hi) : (l.map fun f => f.call.exactWall).sum ≤ hi - lo := by
  have hids : l.Pairwise fun f g => f.call.callId ≠ g.call.callId :=
    List.pairwise_map.mp (h.nodup_log.sublist (hl.map _))
  exact sum_length_le (fun f : Folded => f.call.tIn.toInt) (fun f : Folded => f.call.tOut.toInt)
    (hids.imp_of_mem fun hf hg hne => hapart _ hf _ hg hne)
    (fun f hf hlt => hin f hf (Call.not_inverted_iff.mpr hlt.le)) hlohi

/-- The children of a call take no longer than the call. -/
lemma sum_children_of_call {g : Folded} (hn : g.call.Nests (s.log.map Folded.call))
    (hord : ¬ g.call.Inverted) :
    ((s.log.filter (·.call.parent = g.call.callId)).map fun f => f.call.exactWall).sum ≤
      g.call.exactWall := by
  have hchild : ∀ f ∈ s.log.filter (·.call.parent = g.call.callId),
      f.call ∈ s.log.map Folded.call ∧ f.call.parent = g.call.callId := by
    intro f hf
    obtain ⟨hf, hp⟩ := List.mem_filter.mp hf
    exact ⟨List.mem_map_of_mem hf, of_decide_eq_true hp⟩
  have hle := h.sum_exactWall_le List.filter_sublist
    (fun f hf f' hf' hne =>
      hn.apart _ (hchild f hf).1 _ (hchild f' hf').1 (hchild f hf).2 (hchild f' hf').2 hne)
    (fun f hf hf' => hn.inside _ (hchild f hf).1 (hchild f hf).2 hf')
    (Call.not_inverted_iff.mp hord)
  exact hle.trans (le_max_right _ _)

/-- The calls below a node take no longer than the calls of the node, if these contain them. -/
lemma sum_childrenTotalWall_le_of_nests {n : ℕ} (hroot : n ≠ syntheticRootNodeId)
    (hn : ∀ g ∈ s.log, g.node = n →
      ¬ g.call.Inverted ∧ g.call.Nests (s.log.map Folded.call)) :
    (Column.childrenTotalWall.values s.log n).sum ≤
      ((s.log.filter (·.node = n)).map fun f => f.call.exactWall).sum := by
  have hids : ((s.log.filter (·.node = n)).map fun f => f.call.callId).Nodup :=
    h.nodup_log.sublist (List.filter_sublist.map _)
  have hmem : ∀ f ∈ s.log.filter (·.parentNode = n),
      f.call.parent ∈ (s.log.filter (·.node = n)).map fun g => g.call.callId := by
    intro f hf
    obtain ⟨hflog, hp⟩ := List.mem_filter.mp hf
    have hfn : f.parentNode = n := of_decide_eq_true hp
    rcases h.parentAt_iff.mp (h.parentAt f hflog) with ⟨-, hr⟩ | ⟨g, hg, hid, hnode⟩
    · exact absurd (hfn.symm.trans hr) hroot
    · exact List.mem_map.mpr ⟨g, List.mem_filter.mpr ⟨hg, by simp [hnode, hfn]⟩, hid⟩
  -- the calls below `n`, caller by caller
  have hperm := (perm_flatMap_groups (g := fun f : Folded => f.call.parent) hids hmem).map
    fun f => f.call.exactWall
  have hcaller : ∀ g ∈ s.log.filter (·.node = n),
      (((s.log.filter (·.parentNode = n)).filter (·.call.parent = g.call.callId)).map
        fun f => f.call.exactWall).sum ≤ g.call.exactWall := by
    intro g hg
    obtain ⟨hg, hgn⟩ := List.mem_filter.mp hg
    obtain ⟨hord, hnests⟩ := hn g hg (of_decide_eq_true hgn)
    refine le_trans ?_ (h.sum_children_of_call hnests hord)
    have hsub : (((s.log.filter (·.parentNode = n)).filter
        (·.call.parent = g.call.callId)).map fun f => f.call.exactWall).Sublist
        ((s.log.filter (·.call.parent = g.call.callId)).map fun f => f.call.exactWall) :=
      (List.filter_sublist.filter _).map _
    refine hsub.sum_le_sum fun x hx => ?_
    obtain ⟨f, -, rfl⟩ := List.mem_map.mp hx
    exact f.call.exactWall_nonneg
  calc (Column.childrenTotalWall.values s.log n).sum
    _ ≤ ((s.log.filter (·.parentNode = n)).map fun f => f.call.exactWall).sum :=
        List.sum_le_sum fun f _ => f.call.toInt_wall_le
    _ = ((s.log.filter (·.node = n)).map fun g => (((s.log.filter (·.parentNode = n)).filter
          (·.call.parent = g.call.callId)).map fun f => f.call.exactWall).sum).sum := by
        rw [hperm.sum_eq, List.map_flatMap, List.flatMap_map, List.flatMap_def, List.sum_flatten,
          List.map_map]
        rfl
    _ ≤ ((s.log.filter (·.node = n)).map fun f => f.call.exactWall).sum := List.sum_le_sum hcaller

/-- The totals of a node other than the root are in order, if its calls contain what they call. -/
theorem childrenTotalWall_le_totalWall {r : NodeRow} (hr : r ∈ s.db.nodes.rows)
    (hroot : r.nodeId ≠ syntheticRootNodeId)
    (hn : ∀ g ∈ s.log, g.node = r.nodeId →
      ¬ g.call.Inverted ∧ g.call.Nests (s.log.map Folded.call))
    (hfits : ((s.log.filter (·.node = r.nodeId)).map fun f => f.call.exactWall).sum < 2 ^ 63) :
    r.childrenTotalWallNs.value ≤ r.totalWallNs.value := by
  have hle := h.sum_childrenTotalWall_le_of_nests hroot hn
  rw [← totalWall_values_eq hfits] at hle hfits
  have hnonneg : ∀ col : Column, col.value = Call.wall →
      ∀ n ∈ col.values s.log r.nodeId, 0 ≤ n := by
    intro col hcol n hn
    obtain ⟨f, -, rfl⟩ := List.mem_map.mp hn
    rw [hcol]
    exact f.call.toInt_wall_nonneg
  have htotal := h.sums .totalWall r hr (FitsI64.of_nonneg (hnonneg _ rfl) hfits)
  have hchildren := h.sums .childrenTotalWall r hr
    (FitsI64.of_nonneg (hnonneg _ rfl) (lt_of_le_of_lt hle hfits))
  calc r.childrenTotalWallNs.value
    _ = (Column.childrenTotalWall.values s.log r.nodeId).sum := NumCell.value_of_toInt? hchildren
    _ ≤ (Column.totalWall.values s.log r.nodeId).sum := hle
    _ = r.totalWallNs.value := (NumCell.value_of_toInt? htotal).symm

section WellNested

variable (hn : WellNested (s.log.map Folded.call))
include hn

/-- Calls in the same node do not overlap, because their parents do not. -/
lemma apart_of_node {f g : Folded} (hf : f ∈ s.log) (hg : g ∈ s.log)
    (hne : f.call.callId ≠ g.call.callId) (hnode : f.node = g.node) : f.call.Apart g.call := by
  induction hk : f.node using Nat.strong_induction_on generalizing f g with
  | _ k ih =>
    have hfc := List.mem_map_of_mem (f := Folded.call) hf
    have hgc := List.mem_map_of_mem (f := Folded.call) hg
    have hparents : f.parentNode = g.parentNode := by
      obtain ⟨r, hr, hid, hp, -⟩ := h.tree.placed f hf
      obtain ⟨r', hr', hid', hp', -⟩ := h.tree.placed g hg
      obtain rfl := s.db.nodes.eq_of_key hr hr' (hid.trans (hnode.trans hid'.symm))
      exact Option.some.inj (hp.symm.trans hp')
    rcases h.parentAt_iff.mp (h.parentAt f hf) with ⟨hf0, hfroot⟩ | ⟨f', hf', hfid, hfnode⟩ <;>
      rcases h.parentAt_iff.mp (h.parentAt g hg) with ⟨hg0, hgroot⟩ | ⟨g', hg', hgid, hgnode⟩
    · exact hn.apart _ hfc _ hgc hne (hf0.trans hg0.symm)
    · exact absurd (hgnode.trans (hparents.symm.trans hfroot)) (h.tree.node_ne_root hg')
    · exact absurd (hfnode.trans (hparents.trans hgroot)) (h.tree.node_ne_root hf')
    · by_cases hsame : f'.call.callId = g'.call.callId
      · exact hn.apart _ hfc _ hgc hne (by rw [← hfid, ← hgid, hsame])
      · have hlt := (h.tree.parentNode_lt hf).1
        have hup := ih f'.node (by omega) hf' hg' hsame (by rw [hfnode, hgnode, hparents]) rfl
        exact hup.mono (hn.inside _ hfc _ (List.mem_map_of_mem hf') hfid.symm)
          (hn.inside _ hgc _ (List.mem_map_of_mem hg') hgid.symm)

/-- The total of a node is a 64-bit integer. -/
lemma sum_exactWall_lt (n : ℕ) :
    ((s.log.filter (·.node = n)).map fun f => f.call.exactWall).sum < 2 ^ 63 := by
  have hapart : ∀ f ∈ s.log.filter (·.node = n), ∀ g ∈ s.log.filter (·.node = n),
      f.call.callId ≠ g.call.callId → f.call.Apart g.call := by
    intro f hf g hg hne
    obtain ⟨hf, hfn⟩ := List.mem_filter.mp hf
    obtain ⟨hg, hgn⟩ := List.mem_filter.mp hg
    exact h.apart_of_node hn hf hg hne
      ((of_decide_eq_true hfn).trans (of_decide_eq_true hgn).symm)
  have hin : ∀ f ∈ s.log.filter (·.node = n), ¬ f.call.Inverted →
      0 ≤ f.call.tIn.toInt ∧ f.call.tOut.toInt ≤ 2 ^ 63 - 1 := fun f hf _ =>
    ⟨hn.nonneg _ (List.mem_map_of_mem (List.mem_filter.mp hf).1),
      Int.le_sub_one_of_lt f.call.tOut.toInt_lt⟩
  have hle := h.sum_exactWall_le List.filter_sublist hapart hin (by decide)
  exact lt_of_le_of_lt hle (by decide)

omit h in
lemma nests_of_wellNested {g : Folded} (hg : g ∈ s.log) :
    ¬ g.call.Inverted ∧ g.call.Nests (s.log.map Folded.call) := by
  have hmem := List.mem_map_of_mem (f := Folded.call) hg
  exact ⟨Call.not_inverted_iff.mpr (hn.ordered _ hmem), hn.toNested.nests hmem⟩

/-- The totals of a node of well-nested calls are in order. -/
theorem childrenTotalWall_le_of_wellNested {r : NodeRow} (hr : r ∈ s.db.nodes.rows)
    (hroot : r.nodeId ≠ syntheticRootNodeId) :
    r.childrenTotalWallNs.value ≤ r.totalWallNs.value :=
  h.childrenTotalWall_le_totalWall hr hroot (fun _ hg _ => nests_of_wellNested hn hg)
    (h.sum_exactWall_lt hn _)

end WellNested

end WellFormed

/-! ### Every run -/

/-- The calls that are folded into `nodes`. -/
def foldedCalls (db : TraceDb) (version : UInt32 → Option Call) : List Call :=
  db.callToNode.rows.filterMap fun m => version m.callId

lemma WellFormed.log_subset {s : Traced} (h : WellFormed s) :
    ∀ c ∈ s.log.map Folded.call, ∃ d ∈ foldedCalls s.db s.version,
      c = { d with depth := c.depth } := by
  intro c hc
  obtain ⟨f, hf, rfl⟩ := List.mem_map.mp hc
  obtain ⟨d, hd⟩ := h.exists_version hf
  refine ⟨_, List.mem_filterMap.mpr ⟨f.row, ?_, hd⟩, rfl⟩
  rw [h.mapped]
  exact List.mem_map_of_mem hf

lemma WellFormed.foldedCalls_subset {s : Traced} (h : WellFormed s) :
    ∀ c ∈ foldedCalls s.db s.version, ∃ f ∈ s.log, c = { f.call with depth := c.depth } := by
  intro c hc
  obtain ⟨m, hm, hv⟩ := List.mem_filterMap.mp hc
  rw [h.mapped] at hm
  obtain ⟨f, hf, rfl⟩ := List.mem_map.mp hm
  obtain ⟨d, hd⟩ := h.exists_version hf
  obtain rfl := Option.some.inj (hv.symm.trans hd)
  exact ⟨f, hf, rfl⟩

lemma WellFormed.exists_invertedTime_iff {s : Traced} (h : WellFormed s) :
    (∃ a ∈ s.db.anomalies, a.kind = .invertedTime) ↔
      ∃ c ∈ foldedCalls s.db s.version, c.Inverted := by
  have hrows : (∃ a ∈ s.db.anomalies, a.kind = .invertedTime) ↔ ∃ f ∈ s.log, f.call.Inverted := by
    have := congrArg (· = []) h.inverted
    simp only [List.filter_eq_nil_iff, List.map_eq_nil_iff, eq_iff_iff, decide_eq_true_eq] at this
    simpa using not_congr this
  rw [hrows]
  constructor
  · rintro ⟨f, hf, hinv⟩
    obtain ⟨c, hc, heq⟩ := h.log_subset _ (List.mem_map_of_mem hf)
    rw [heq] at hinv
    exact ⟨c, hc, hinv⟩
  · rintro ⟨c, hc, hinv⟩
    obtain ⟨f, hf, heq⟩ := h.foldedCalls_subset c hc
    rw [heq] at hinv
    exact ⟨f, hf, hinv⟩

lemma WellFormed.mem_anomalies {s : Traced} (h : WellFormed s) {f : Folded} (hf : f ∈ s.log)
    (hinv : f.call.Inverted) : .invertedTime f.node f.call ∈ s.db.anomalies := by
  have hf' : f ∈ s.log.filter (·.call.Inverted) := List.mem_filter.mpr ⟨hf, decide_eq_true hinv⟩
  have hmem :=
    List.mem_map_of_mem (f := fun f : Folded => AnomalyRow.invertedTime f.node f.call) hf'
  rw [← h.inverted] at hmem
  exact List.mem_of_mem_filter hmem

lemma WellFormed.exists_mem_mappedCalls {s : Traced} (h : WellFormed s) {f : Folded}
    (hf : f ∈ s.log) {n : ℕ} (hnode : f.node = n) :
    ∃ d, { f.call with depth := d } ∈ mappedCalls s.db s.version n := by
  obtain ⟨d, hd⟩ := h.exists_version hf
  refine ⟨d, List.mem_filterMap.mpr ⟨f.row, ?_, (if_pos hnode).trans hd⟩⟩
  rw [h.mapped]
  exact List.mem_map_of_mem hf

/-- No call but those in `calls` is delivered to the trace. -/
def DeliversOnly (key : TraceKey) (as : List Attempt) (calls : List Call) : Prop :=
  ∀ a ∈ as, ∀ batch now fault, a.op = .record key batch now fault → ∀ c ∈ batch.calls, c ∈ calls

/-- Whatever is delivered of a well-nested trace, in whatever order, the children of a node never
have a larger total than the node. -/
theorem childrenTotalWall_le_of_run [Engine] {as : List Attempt} {s : Storage} {key : TraceKey}
    {calls : List Call} {db : TraceDb} (hrun : Run Attempt.Step .empty as s)
    (hn : WellNested calls) (hcalls : DeliversOnly key as calls) (hdb : s.traces key = some db) :
    ∀ r ∈ db.nodes.rows, r.nodeId ≠ syntheticRootNodeId →
      r.childrenTotalWallNs.value ≤ r.totalWallNs.value := by
  obtain ⟨recorded, hobs⟩ := Observed.exists_run hrun key []
  have hrecorded := recorded_forall hobs hcalls (by simp)
  rcases Observed.wellFormed_of_run rfl hobs hdb with rfl | ⟨log, hwf⟩
  · simp [TraceDb.fresh]
  · refine fun r hr hroot =>
      hwf.childrenTotalWall_le_of_wellNested (hn.of_subset fun c hc => ?_) hr hroot
    obtain ⟨f, hf, rfl⟩ := List.mem_map.mp hc
    obtain ⟨d, hd⟩ := hwf.exists_mem_versions hf
    exact ⟨_, hrecorded _ hd, rfl⟩

/-- A call with two calls one after the other below it, the second in a later batch. -/
theorem childrenTotalWall_le_of_run_two_batches :
    letI := Engine.stored
    ∃ as s db, Run Attempt.Step .empty as s ∧ s.traces default = some db ∧
      (db.nodes.rows.map fun r => (r.nodeId, r.totalWallNs.toInt?, r.childrenTotalWallNs.toInt?)) =
        [(1, some 0, some 9), (2, some 9, some 7), (3, some 7, some 0)] ∧
      ∀ r ∈ db.nodes.rows, r.nodeId ≠ syntheticRootNodeId →
        r.childrenTotalWallNs.value ≤ r.totalWallNs.value := by
  let _ := Engine.stored
  let calls : List Call := [{ (default : Call) with callId := 1, fnId := 7, tOut := 9 },
    { (default : Call) with callId := 2, parent := 1, fnId := 7, tIn := 1, tOut := 4 },
    { (default : Call) with callId := 3, parent := 1, fnId := 7, tIn := 4, tOut := 8 }]
  let op (batch : List Call) : Op := .record default
    ⟨{ (default : Meta) with sapi := "cli" }, [{ (default : DictEntry) with fnId := 7 }], batch⟩
    0 .none
  let as : List Attempt := [⟨op (calls.take 2), true⟩, ⟨op (calls.drop 2), true⟩]
  let s₁ : Storage := ((op (calls.take 2)).exec .empty).1
  let s : Storage := ((op (calls.drop 2)).exec s₁).1
  have hrun : Run Attempt.Step .empty as s :=
    .cons (t := s₁) (Attempt.step_exec (by decide +kernel))
      (.single (Attempt.step_exec (by decide +kernel)))
  have hn : WellNested calls := ⟨⟨by decide, by decide, by decide⟩, by decide⟩
  have hrows : (s.traces default).map (fun db => db.nodes.rows.map fun r =>
      (r.nodeId, r.totalWallNs.toInt?, r.childrenTotalWallNs.toInt?)) =
      some [(1, some 0, some 9), (2, some 9, some 7), (3, some 7, some 0)] := by
    decide +kernel
  obtain ⟨db, hdb, hrows⟩ := Option.map_eq_some_iff.mp hrows
  refine ⟨as, s, db, hrun, hdb, hrows, childrenTotalWall_le_of_run hrun hn ?_ hdb⟩
  rintro a ha batch now fault hop c hc
  simp only [as, List.mem_cons, List.not_mem_nil, or_false] at ha
  rcases ha with rfl | rfl
  · cases hop
    exact List.mem_of_mem_take hc
  · cases hop
    exact List.mem_of_mem_drop hc

/-- An inverted call leaves an anomaly. If the other calls of a node contain what they call, one
after the other, the children's total of the node exceeds its total only where such an anomaly of
the node explains it. -/
theorem explained_of_run [Engine] {key : TraceKey} {o : Observed} {as : List Attempt}
    {db : TraceDb} (hrun : Run (Observed.Step key) ⟨.empty, []⟩ as o)
    (hdb : o.storage.traces key = some db) :
    ((∃ a ∈ db.anomalies, a.kind = .invertedTime) ↔ ∃ c ∈ foldedCalls db o.version, c.Inverted) ∧
      ∀ r ∈ db.nodes.rows, r.nodeId ≠ syntheticRootNodeId →
        (∀ p ∈ mappedCalls db o.version r.nodeId, ¬ p.Inverted →
          p.Nests (foldedCalls db o.version)) →
        ((mappedCalls db o.version r.nodeId).map Call.exactWall).sum < 2 ^ 63 →
        r.totalWallNs.value < r.childrenTotalWallNs.value →
          ∃ a ∈ db.anomalies, a.kind = .invertedTime ∧ a.nodeId = some r.nodeId := by
  rcases Observed.wellFormed_of_run rfl hrun hdb with rfl | ⟨log, hwf⟩
  · simp [TraceDb.fresh, foldedCalls]
  refine ⟨hwf.exists_invertedTime_iff, fun r hr hroot hnests hfits hlt => ?_⟩
  by_contra hnone
  refine absurd hlt (not_lt.mpr (hwf.childrenTotalWall_le_totalWall hr hroot ?_ ?_))
  · intro g hg hnode
    have hord : ¬ g.call.Inverted := fun hinv =>
      hnone ⟨_, hwf.mem_anomalies hg hinv, rfl, congrArg some hnode⟩
    obtain ⟨d, hmapped⟩ := hwf.exists_mem_mappedCalls hg hnode
    have hg' := hnests _ hmapped hord
    exact ⟨hord, (⟨hg'.inside, hg'.apart⟩ : g.call.Nests _).of_subset hwf.log_subset⟩
  · exact hwf.map_mappedCalls (g := Call.exactWall) (fun _ _ => rfl) r.nodeId ▸ hfits

/-- Two calls of one function, of which one contains what it calls and the other is inverted. -/
theorem explained_of_run_two_callers :
    letI := Engine.stored
    ∃ as o db r, Run (Observed.Step default) ⟨.empty, []⟩ as o ∧
      o.storage.traces default = some db ∧ r ∈ db.nodes.rows ∧
      r.totalWallNs.value < r.childrenTotalWallNs.value ∧
      ((∃ a ∈ db.anomalies, a.kind = .invertedTime) ↔
        ∃ c ∈ foldedCalls db o.version, c.Inverted) ∧
      ∃ a ∈ db.anomalies, a.kind = .invertedTime ∧ a.nodeId = some r.nodeId := by
  let _ := Engine.stored
  let op : Op := .record default ⟨{ (default : Meta) with sapi := "cli" },
    [{ (default : DictEntry) with fnId := 7 }],
    [{ (default : Call) with callId := 1, fnId := 7, tOut := 5 },
      { (default : Call) with callId := 2, parent := 1, fnId := 7, tIn := 1, tOut := 4 },
      { (default : Call) with callId := 3, fnId := 7, tIn := 9, tOut := 8 },
      { (default : Call) with callId := 4, parent := 3, fnId := 7, tIn := 9, tOut := 20 }]⟩ 0 .none
  let o : Observed := ⟨(op.exec .empty).1, recordedBy default .empty op⟩
  have hrun : Run (Observed.Step default) ⟨.empty, []⟩ [⟨op, true⟩] o :=
    .single ⟨Attempt.step_exec (by decide +kernel), rfl⟩
  have hrow : (o.storage.traces default).map (fun db => decide (∃ r ∈ db.nodes.rows,
      r.nodeId ≠ syntheticRootNodeId ∧
      (∀ p ∈ mappedCalls db o.version r.nodeId, ¬ p.Inverted →
        p.Nests (foldedCalls db o.version)) ∧
      ((mappedCalls db o.version r.nodeId).map Call.exactWall).sum < 2 ^ 63 ∧
      r.totalWallNs.value < r.childrenTotalWallNs.value)) = some true := by
    decide +kernel
  obtain ⟨db, hdb, hrow⟩ := Option.map_eq_some_iff.mp hrow
  obtain ⟨r, hr, hroot, hnests, hfits, hlt⟩ := of_decide_eq_true hrow
  obtain ⟨hiff, hexplained⟩ := explained_of_run hrun hdb
  exact ⟨_, o, db, r, hrun, hdb, hr, hlt, hiff, hexplained r hr hroot hnests hfits hlt⟩

/-- A call that outlives its caller. The trace is finalized, the children of the caller have a
larger total than the caller, and there is no anomaly. -/
theorem not_inverted_and_violated :
    letI := Engine.stored
    ∃ as s db, Run Attempt.Step .empty as s ∧ s.traces default = some db ∧
      (as.getLast?.map fun a => (a.op, a.ok)) = some (.finalize default 1 true .none, true) ∧
      (∃ r ∈ db.nodes.rows, r.nodeId ≠ syntheticRootNodeId ∧
        r.totalWallNs.value < r.childrenTotalWallNs.value) ∧ db.anomalies = [] := by
  let _ := Engine.stored
  let record : Op := .record default ⟨{ (default : Meta) with sapi := "cli" },
    [{ (default : DictEntry) with fnId := 7 }],
    [{ (default : Call) with callId := 1, fnId := 7, tOut := 5 },
      { (default : Call) with callId := 2, parent := 1, fnId := 7, tOut := 9 }]⟩ 0 .none
  let finalize : Op := .finalize default 1 true .none
  let s : Storage := (record.exec .empty).1
  let t : Storage := (finalize.exec s).1
  have hrun : Run Attempt.Step .empty [⟨record, true⟩, ⟨finalize, true⟩] t :=
    .cons (t := s) (Attempt.step_exec (by decide +kernel))
      (.single (Attempt.step_exec (by decide +kernel)))
  have hdb : (t.traces default).map (fun db => (decide (∃ r ∈ db.nodes.rows,
      r.nodeId ≠ syntheticRootNodeId ∧ r.totalWallNs.value < r.childrenTotalWallNs.value),
      db.anomalies)) = some (true, []) := by
    decide +kernel
  obtain ⟨db, hdb, heq⟩ := Option.map_eq_some_iff.mp hdb
  obtain ⟨hviolated, hnone⟩ := Prod.mk.inj heq
  exact ⟨_, t, db, hrun, hdb, rfl, of_decide_eq_true hviolated, hnone⟩

end PhpTreeViz
