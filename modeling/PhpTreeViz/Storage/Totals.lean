import PhpTreeViz.Core.Rounding
import PhpTreeViz.Storage.Runs

/-!
# Totals of any size

The totals of a node are exact as long as they are 64-bit integers. What is known of them beyond
that comes from the folds one by one: a property of the tree that every fold keeps holds in every
run.
-/

namespace PhpTreeViz

open Core

/-! ### Properties that folds keep -/

/-- Every fold keeps the property `J` of a tree and the folds that made it. -/
structure FoldInvariant (J : Table NodeRow.nodeId → List Folded → Prop) : Prop where
  seeded : J (Table.empty.insertOrIgnore .syntheticRoot) []
  fold : ∀ {nodes log} (p : ℕ) (c : Call), TreeInv nodes log → J nodes log →
    J (foldNodes nodes p c) (log ++ [foldOf nodes p c])

/-- The property holds of the tree, if there is one yet. -/
def TraceDb.Keeps (J : Table NodeRow.nodeId → List Folded → Prop) (db : TraceDb)
    (log : List Folded) : Prop := db ≠ .fresh → J db.nodes log

namespace FoldInvariant

variable {J : Table NodeRow.nodeId → List Folded → Prop} (hJ : FoldInvariant J)
include hJ

lemma step {s t : Traced} {e : Event} (hstep : Step s e t) (h : WellFormed s)
    (hs : J s.db.nodes s.log) : J t.db.nodes t.log := by
  cases hstep with
  | skip _          => exact hs
  | fold _ _ _      => exact hJ.fold _ _ h.tree hs
  | park _ _ _      => exact hs
  | resolve _ _ _ _ => exact hJ.fold _ _ h.tree hs

lemma run {s t : Traced} {es : List Event} (hrun : Run Step s es t) (h : WellFormed s)
    (hs : J s.db.nodes s.log) : J t.db.nodes t.log := by
  refine (hrun.invariant (I := fun s => WellFormed s ∧ J s.db.nodes s.log) (P := fun _ => True)
    ?_ (fun _ _ => trivial) ⟨h, hs⟩).2
  rintro s e t - hstep ⟨h, hs⟩
  exact ⟨hstep.wellFormed h, hJ.step hstep h hs⟩

/-- The transaction of a batch keeps the property. -/
lemma traceRecorded {key : TraceKey} {s t : Traced} {batch : Batch} {es₁ es₂ : List Event}
    (hrec : TraceRecorded key s batch es₁ es₂ t) (hinv : TraceInv s)
    (hs : s.db.Keeps J s.log) : J t.db.nodes t.log := by
  refine hJ.run hrec.aggregated.run (hinv.wellFormed_prepareTrace key batch) ?_
  by_cases hfresh : s.db = .fresh
  · have hlog : s.log = [] := by
      rcases hinv with ⟨-, hlog⟩ | ⟨hwf, -⟩
      · exact hlog
      · have hroot := hwf.tree.hasKey_root
        rw [hfresh] at hroot
        simp [TraceDb.fresh] at hroot
    show J (prepareTrace key s.db batch).nodes s.log
    rw [hfresh, hlog]
    exact hJ.seeded
  · have hnodes : (prepareTrace key s.db batch).nodes = s.db.nodes := by
      rcases hinv with ⟨hdb, -⟩ | ⟨hwf, -⟩
      · exact absurd hdb hfresh
      · rw [hwf.prepareTrace_eq]
    show J (prepareTrace key s.db batch).nodes s.log
    rw [hnodes]
    exact hs hfresh

variable [Engine]

theorem attempt {s t : Storage} {a : Attempt} {key : TraceKey} {versions : List Call}
    (hstep : Attempt.Step s a t)
    (h : ∃ log, TraceInv ⟨s.ensureTraceConn key, log, versions⟩ ∧
      (s.ensureTraceConn key).Keeps J log) :
    ∃ log, TraceInv ⟨t.ensureTraceConn key, log, recordedBy key s a.op ++ versions⟩ ∧
      (t.ensureTraceConn key).Keeps J log := by
  obtain ⟨log, hinv, hkeeps⟩ := h
  cases hstep.effect hinv with
  | other hk hsame =>
    rw [recordedBy_of_ne hk, hsame.ensureTraceConn]
    exact ⟨log, hinv, hkeeps⟩
  | commit htraces _ =>
    exact ⟨log, by rw [Storage.ensureTraceConn, htraces]; exact ⟨hinv, hkeeps⟩⟩
  | recordLost hf hconn _ =>
    rw [recordedBy, if_neg (by simp [hf]), hconn]
    exact ⟨log, hinv, hkeeps⟩
  | @recordTrace _ _ _ _ _ _ u hf hrec htraces _ | @record _ _ _ _ _ _ u hf hrec htraces _ _ =>
    rw [ensureTraceConn_of_traces htraces, recordedBy, if_pos ⟨rfl, hf⟩, ← hrec.versions]
    exact ⟨u.log, hrec.inv, fun _ => hJ.traceRecorded hrec hinv hkeeps⟩
  | finalizeLost hconn _ =>
    rw [hconn]
    exact ⟨log, hinv, hkeeps⟩
  | finalizeTrace hfin htraces _ | finalize hfin htraces _ =>
    rw [ensureTraceConn_of_traces htraces]
    refine ⟨log, hfin.inv hinv, fun hne => ?_⟩
    rw [hfin.nodes]
    refine hkeeps fun hfresh => hne ?_
    rw [hfresh] at hfin
    exact hfin.eq_fresh
  | deleteLost => exact ⟨log, hinv, hkeeps⟩
  | deleteFiles htraces _ | delete htraces _ =>
    rw [ensureTraceConn_of_none htraces]
    exact ⟨[], TraceInv.fresh _, fun hne => absurd rfl hne⟩

/-- What every fold keeps holds in every reachable state. -/
theorem of_run {key : TraceKey} {o : Observed} {as : List Attempt}
    (hrun : Run (Observed.Step key) ⟨.empty, []⟩ as o) :
    ∃ log, TraceInv ⟨o.storage.ensureTraceConn key, log, o.recorded⟩ ∧
      (o.storage.ensureTraceConn key).Keeps J log := by
  refine hrun.invariant (P := fun _ => True)
    (I := fun o : Observed => ∃ log, TraceInv ⟨o.storage.ensureTraceConn key, log, o.recorded⟩ ∧
      (o.storage.ensureTraceConn key).Keeps J log) ?_ (fun _ _ => trivial)
    ⟨[], TraceInv.fresh _, fun hne => absurd rfl hne⟩
  rintro o a o' - ⟨hstep, hrec⟩ h
  rw [hrec]
  exact hJ.attempt hstep h

end FoldInvariant

lemma FoldInvariant.and {J K : Table NodeRow.nodeId → List Folded → Prop} (hJ : FoldInvariant J)
    (hK : FoldInvariant K) : FoldInvariant fun nodes log => J nodes log ∧ K nodes log where
  seeded := ⟨hJ.seeded, hK.seeded⟩
  fold p c htree h := ⟨hJ.fold p c htree h.1, hK.fold p c htree h.2⟩

/-! ### The function of the root -/

lemma mem_seeded {r : NodeRow} :
    r ∈ ((Table.empty : Table NodeRow.nodeId).insertOrIgnore .syntheticRoot).rows ↔
      r = .syntheticRoot := by
  rw [Table.rows_insertOrIgnore (Table.not_hasKey_empty _)]
  simp

/-- The root is a node of the function 0. -/
def RootFn (nodes : Table NodeRow.nodeId) (_ : List Folded) : Prop :=
  ∀ r ∈ nodes.rows, r.nodeId = syntheticRootNodeId → r.fnId = 0

lemma rootFn : FoldInvariant RootFn where
  seeded := by
    intro r hr _
    rw [mem_seeded.mp hr]
    rfl
  fold := by
    intro nodes log p c htree h r hr hroot
    obtain ⟨r₀, hr₀, rfl⟩ := mem_foldNodes.mp hr
    rw [NodeRow.nodeId_touch] at hroot
    rw [NodeRow.fnId_touch]
    rcases mem_ensureNode.mp hr₀ with hr₀ | ⟨-, rfl⟩
    · exact h r₀ hr₀ hroot
    · have hnext : nextNodeId nodes = syntheticRootNodeId := hroot
      exact absurd (hnext ▸ htree.hasKey_root) (not_hasKey_nextNodeId nodes)

/-! ### Positive totals -/

/-- A node with a call that took time has a positive total, however large. -/
def WallsCounted (nodes : Table NodeRow.nodeId) (log : List Folded) : Prop :=
  ∀ r ∈ nodes.rows, 0 ≤ r.totalWallNs.value ∧
    ∀ f ∈ log, f.node = r.nodeId → 0 < f.call.wall.toInt → 0 < r.totalWallNs.value

lemma wallsCounted : FoldInvariant WallsCounted where
  seeded := by
    intro r hr
    rw [mem_seeded.mp hr]
    exact ⟨le_rfl, by simp⟩
  fold := by
    intro nodes log p c htree h r hr
    obtain ⟨r₀, hr₀, rfl⟩ := mem_foldNodes.mp hr
    have hold : 0 ≤ r₀.totalWallNs.value ∧
        ∀ f ∈ log, f.node = r₀.nodeId → 0 < f.call.wall.toInt → 0 < r₀.totalWallNs.value := by
      rcases mem_ensureNode.mp hr₀ with hr₀ | ⟨-, rfl⟩
      · exact h r₀ hr₀
      · exact ⟨le_rfl, fun f hf hnode => absurd hnode (htree.node_ne_next hf)⟩
    have htouch := Column.totalWall.get_touch (foldOf nodes p c) r₀
    show 0 ≤ (Column.totalWall.get _).value ∧ ∀ f ∈ _, _ → _ → 0 < (Column.totalWall.get _).value
    rw [htouch, NodeRow.nodeId_touch]
    have hwall : 0 ≤ (Column.totalWall.value (foldOf nodes p c).call).toInt := c.toInt_wall_nonneg
    split_ifs with hnode
    · refine ⟨hold.1.trans (NumCell.value_le_add _ hwall), fun f hf hfn hpos => ?_⟩
      rcases List.mem_append.mp hf with hf | hf
      · exact (hold.2 f hf hfn hpos).trans_le (NumCell.value_le_add _ hwall)
      · obtain rfl := List.mem_singleton.mp hf
        exact NumCell.value_add_pos hold.1 hpos
    · refine ⟨hold.1, fun f hf hfn hpos => ?_⟩
      rcases List.mem_append.mp hf with hf | hf
      · exact hold.2 f hf hfn hpos
      · obtain rfl := List.mem_singleton.mp hf
        exact absurd hfn hnode

end PhpTreeViz
