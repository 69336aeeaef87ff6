import PhpTreeViz.Storage.Aggregate.Batch
import PhpTreeViz.Storage.Basic

/-!
# The life of a per-trace database

A per-trace database is new, or it agrees with its history and nothing in it can be resolved.
`record_batch` and `finalize_trace` keep this. The lemmas here say what each of the two
transactions does to the tables, so that the results about whole runs need not look at them again.
-/

namespace PhpTreeViz

open Core

/-- The invariant of a per-trace database between two transactions. -/
def TraceInv (s : Traced) : Prop := (s.db = .fresh ∧ s.log = []) ∨ (WellFormed s ∧ Saturated s.db)

lemma TraceInv.fresh (versions : List Call) : TraceInv ⟨.fresh, [], versions⟩ := Or.inl ⟨rfl, rfl⟩

lemma TraceInv.saturated {s : Traced} (h : TraceInv s) : Saturated s.db := by
  rcases h with ⟨hdb, -⟩ | ⟨-, hsat⟩
  · rw [hdb]
    intro p hp
    simp [TraceDb.fresh] at hp
  · exact hsat

/-! ### Before the aggregation -/

lemma hasKey_insertDict {dict : Table DictRow.fnId} {e : DictEntry} {fn : UInt32} :
    (insertDict dict e).HasKey fn ↔ dict.HasKey fn ∨ (KindAllowed e.kind ∧ e.fnId = fn) := by
  rw [insertDict]
  split_ifs with hk
  · simp only [Table.hasKey_insertOrIgnore, hk, true_and, eq_comm (a := fn)]
    rfl
  · simp [hk]

/-- The functions that a list of `dict` entries defines. -/
def Defines (entries : List DictEntry) (fn : UInt32) : Prop :=
  ∃ e ∈ entries, KindAllowed e.kind ∧ e.fnId = fn

lemma hasKey_foldl_insertDict {entries : List DictEntry} {dict : Table DictRow.fnId}
    {fn : UInt32} :
    (entries.foldl insertDict dict).HasKey fn ↔ dict.HasKey fn ∨ Defines entries fn := by
  induction entries generalizing dict with
  | nil => simp [Defines]
  | cons e entries ih =>
    rw [List.foldl_cons, ih, hasKey_insertDict, or_assoc]
    simp [Defines]

/-- Entries that are all known or invalid leave `dict` as it is. -/
lemma foldl_insertDict_of_known {entries : List DictEntry} {dict : Table DictRow.fnId}
    (h : ∀ e ∈ entries, KindAllowed e.kind → dict.HasKey e.fnId) :
    entries.foldl insertDict dict = dict := by
  induction entries with
  | nil => rfl
  | cons e entries ih =>
    simp only [List.mem_cons, forall_eq_or_imp] at h
    have he : insertDict dict e = dict := by
      rw [insertDict]
      split_ifs with hk
      · exact Table.insertOrIgnore_of_hasKey (h.1 hk)
      · rfl
    rw [List.foldl_cons, he, ih h.2]

section prepareTrace

variable (key : TraceKey) {db : TraceDb} (batch : Batch) {log : List Folded} {versions : List Call}

@[simp] lemma pendingCalls_prepareTrace :
    (prepareTrace key db batch).pendingCalls = db.pendingCalls := rfl

lemma hasKey_dict_prepareTrace {fn : UInt32} : (prepareTrace key db batch).dict.HasKey fn ↔
    db.dict.HasKey fn ∨ Defines batch.dict fn ∨ fn = 0 := by
  simp only [prepareTrace, seedSyntheticRoot, Table.hasKey_insertOrIgnore,
    hasKey_foldl_insertDict, or_assoc]

/-- The root rows of a database in use are there already. -/
lemma WellFormed.prepareTrace_eq (h : WellFormed ⟨db, log, versions⟩) :
    prepareTrace key db batch =
      { db with
        traceMeta := some (.mirror key batch.metaBlock)
        dict := batch.dict.foldl insertDict db.dict } := by
  have hdict : (batch.dict.foldl insertDict db.dict).HasKey 0 :=
    hasKey_foldl_insertDict.mpr (Or.inl h.rootFn)
  have hroot : db.nodes.HasKey NodeRow.syntheticRoot.nodeId := h.tree.hasKey_root
  simp only [prepareTrace, seedSyntheticRoot]
  rw [Table.insertOrIgnore_of_hasKey hdict, Table.insertOrIgnore_of_hasKey hroot]

lemma TraceInv.wellFormed_prepareTrace (h : TraceInv ⟨db, log, versions⟩) :
    WellFormed ⟨prepareTrace key db batch, log, versions⟩ := by
  have hroot : (prepareTrace key db batch).dict.HasKey 0 :=
    (hasKey_dict_prepareTrace key batch).mpr (Or.inr (Or.inr rfl))
  rcases h with ⟨hdb, hlog⟩ | ⟨hwf, -⟩
  · obtain rfl : db = .fresh := hdb
    obtain rfl : log = [] := hlog
    have hnodes : (prepareTrace key .fresh batch).nodes =
        Table.empty.insertOrIgnore .syntheticRoot := rfl
    constructor
    · rw [hnodes]
      exact TreeInv.seeded
    · intro col
      rw [hnodes]
      exact col.inv_seeded
    · rfl
    · simp
    · simp
    · exact hroot
    · simp [TraceDb.fresh]
    · simp
    · simp [TraceDb.fresh]
    · rfl
  · have hnodes : (prepareTrace key db batch).nodes = db.nodes := by
      rw [hwf.prepareTrace_eq]
    constructor
    · rw [hnodes]
      exact hwf.tree
    · intro col
      rw [hnodes]
      exact hwf.sums col
    · exact hwf.mapped
    · exact hwf.parentAt
    · exact fun f hf => (hasKey_dict_prepareTrace key batch).mpr (Or.inl (hwf.hasFn f hf))
    · exact hroot
    · exact hwf.disjoint
    · exact hwf.logVersion
    · exact hwf.pendingVersion
    · exact hwf.inverted

/-- Without new `dict` entries nothing becomes resolvable. -/
lemma TraceInv.saturated_prepareTrace (h : TraceInv ⟨db, log, versions⟩)
    (hdict : ∀ fn, Defines batch.dict fn → db.dict.HasKey fn) :
    Saturated (prepareTrace key db batch) := by
  rintro p hp ⟨hfn, hpar⟩
  rcases h with ⟨hdb, -⟩ | ⟨hwf, hsat⟩
  · obtain rfl : db = .fresh := hdb
    simp [TraceDb.fresh] at hp
  · refine hsat p hp ⟨?_, hpar⟩
    rcases (hasKey_dict_prepareTrace key batch).mp hfn with hk | hk | h0
    · exact hk
    · exact hdict _ hk
    · rw [h0]
      exact hwf.rootFn

end prepareTrace

/-! ### The transaction of a batch -/

/-- The state of a trace after the transaction of a batch, and what led there. -/
structure TraceRecorded (key : TraceKey) (s : Traced) (batch : Batch) (es₁ es₂ : List Event)
    (t : Traced) : Prop where
  aggregated :
    Aggregated ⟨prepareTrace key s.db batch, s.log, s.versions⟩ batch.calls es₁ es₂ t
  wellFormed : WellFormed t
  saturated : Saturated t.db

/-- The transaction of a batch always succeeds. -/
theorem recordTrace_spec [Engine] {s : Traced} (h : TraceInv s) (key : TraceKey) (batch : Batch) :
    ∃ es₁ es₂ t, recordTrace key s.db batch = .ok (t.db, outcomeOf (es₁ ++ es₂) t) ∧
      TraceRecorded key s batch es₁ es₂ t := by
  have hwf := h.wellFormed_prepareTrace key batch
  obtain ⟨es₁, es₂, t, heq, hagg, hsat⟩ := aggregateCalls_spec hwf batch
  refine ⟨es₁, es₂, t, heq, hagg, wellFormed_of_run hagg.run hwf, hsat ?_⟩
  by_cases hdict : batch.dict = []
  · exact Or.inr (h.saturated_prepareTrace key batch (by simp [hdict, Defines]))
  · exact Or.inl hdict

namespace TraceRecorded

variable {key : TraceKey} {s t : Traced} {batch : Batch} {es₁ es₂ : List Event}

lemma inv (h : TraceRecorded key s batch es₁ es₂ t) : TraceInv t :=
  Or.inr ⟨h.wellFormed, h.saturated⟩

lemma newCalls_prepareTrace (db : TraceDb) (calls : List Call) :
    newCalls (prepareTrace key db batch) calls = newCalls db calls := by
  induction calls with
  | nil => rfl
  | cons c calls ih =>
    rw [newCalls, newCalls, ih]
    rfl

lemma versions (h : TraceRecorded key s batch es₁ es₂ t) :
    t.versions = newCalls s.db batch.calls ++ s.versions := by
  rw [h.aggregated.versions, newCalls_prepareTrace]

lemma known (h : TraceRecorded key s batch es₁ es₂ t) (id : UInt32) :
    CallIdAlreadyKnown t.db id ↔
      CallIdAlreadyKnown s.db id ∨ id ∈ (newCalls s.db batch.calls).map Call.callId := by
  rw [h.aggregated.known, newCalls_prepareTrace]
  rfl

lemma dict_of_run {s t : Traced} {es : List Event} (h : Run Step s es t) :
    t.db.dict = s.db.dict := (grows_of_run h).dict

lemma traceMeta_of_run {s t : Traced} {es : List Event} (h : Run Step s es t) :
    t.db.traceMeta = s.db.traceMeta := by
  induction h with
  | nil => rfl
  | cons hstep _ ih => rw [ih, hstep.traceMeta]

lemma dict (h : TraceRecorded key s batch es₁ es₂ t) :
    t.db.dict = (prepareTrace key s.db batch).dict := dict_of_run h.aggregated.run

lemma hasKey_dict (h : TraceRecorded key s batch es₁ es₂ t) {fn : UInt32} :
    t.db.dict.HasKey fn ↔ s.db.dict.HasKey fn ∨ Defines batch.dict fn ∨ fn = 0 := by
  rw [h.dict, hasKey_dict_prepareTrace]

lemma traceMeta (h : TraceRecorded key s batch es₁ es₂ t) :
    t.db.traceMeta = some (.mirror key batch.metaBlock) := traceMeta_of_run h.aggregated.run

end TraceRecorded

/-! ### The transaction of a finalize -/

/-- A successful finalize empties `pending_calls` into `anomalies` and changes no tree. -/
structure TraceFinalized [Engine] (db db' : TraceDb) (o : FinalizeOutcome) : Prop where
  dict : db'.dict = db.dict
  nodes : db'.nodes = db.nodes
  callToNode : db'.callToNode = db.callToNode
  pendingCalls : db'.pendingCalls = .empty
  anomalies : db'.anomalies =
    db.anomalies ++ (scan db.pendingCalls.rows).map (residualAnomaly (knownFnIds db))
  traceMeta : db'.traceMeta = db.traceMeta.map fun m =>
    { m with state := .finalized, cpuSnapshotAvailable := o.cpuSnapshotAvailable }
  cpu : computeCpuSnapshotAvailable db.nodes = .ok o.cpuSnapshotAvailable
  pendingDq : o.pendingDq1 + o.pendingDq2 = db.pendingCalls.rows.length
  rawBytesFreed : o.rawBytesFreed = 0

theorem finalizeTraceDb_spec [Engine] {db db' : TraceDb} {o : FinalizeOutcome}
    (h : finalizeTraceDb db = .ok (db', o)) : TraceFinalized db db' o := by
  rw [finalizeTraceDb] at h
  cases hcpu : computeCpuSnapshotAvailable db.nodes with
  | error e => simp [bind, Except.bind, hcpu] at h
  | ok cpu =>
    simp only [bind, Except.bind, hcpu, pure, Except.pure, Except.ok.injEq, Prod.mk.injEq] at h
    obtain ⟨rfl, rfl⟩ := h
    refine ⟨rfl, rfl, rfl, rfl, rfl, rfl, hcpu, ?_, rfl⟩
    rw [← length_scan db.pendingCalls.rows,
      List.length_eq_countP_add_countP fun p : PendingCall => p.fnId ∈ knownFnIds db, Nat.add_comm]
    simp only [decide_eq_true_eq, decide_not]

lemma finalizeTraceDb_eq_ok [Engine] {db : TraceDb} {cpu : Bool}
    (h : computeCpuSnapshotAvailable db.nodes = .ok cpu) :
    ∃ db' o, finalizeTraceDb db = .ok (db', o) := by
  rw [finalizeTraceDb, h]
  exact ⟨_, _, rfl⟩

lemma kind_residualAnomaly (known : List UInt32) (p : PendingCall) :
    (residualAnomaly known p).kind ≠ .invertedTime := by
  rw [residualAnomaly]
  split_ifs <;> simp

namespace TraceFinalized

variable [Engine] {db db' : TraceDb} {o : FinalizeOutcome} {log : List Folded}
  {versions : List Call}

lemma eq_fresh (h : TraceFinalized .fresh db' o) : db' = .fresh := by
  have hanom : db'.anomalies = [] := by
    rw [h.anomalies, List.append_eq_nil_iff, List.map_eq_nil_iff, ← List.length_eq_zero_iff
      (l := scan _), length_scan]
    exact ⟨rfl, rfl⟩
  cases db' with
  | mk traceMeta dict nodes callToNode pendingCalls anomalies =>
    obtain ⟨rfl, rfl, rfl, rfl, -, rfl, -, -, -⟩ := h
    obtain rfl : _ = [] := hanom
    rfl

lemma inv (h : TraceFinalized db db' o) (hinv : TraceInv ⟨db, log, versions⟩) :
    TraceInv ⟨db', log, versions⟩ := by
  rcases hinv with ⟨hdb, hlog⟩ | ⟨hwf, -⟩
  · obtain rfl : db = .fresh := hdb
    exact Or.inl ⟨h.eq_fresh, hlog⟩
  · have hsat : Saturated db' := by
      intro p hp
      rw [h.pendingCalls] at hp
      simp at hp
    refine Or.inr ⟨?_, hsat⟩
    constructor
    · exact h.nodes.symm ▸ hwf.tree
    · exact h.nodes.symm ▸ hwf.sums
    · exact h.callToNode.symm ▸ hwf.mapped
    · intro f hf
      rw [ParentAt, h.callToNode]
      exact hwf.parentAt f hf
    · exact h.dict.symm ▸ hwf.hasFn
    · exact h.dict.symm ▸ hwf.rootFn
    · simp [h.pendingCalls]
    · exact hwf.logVersion
    · simp [h.pendingCalls]
    · have hnone : ((scan db.pendingCalls.rows).map (residualAnomaly (knownFnIds db))).filter
          (·.kind = .invertedTime) = [] := by
        apply List.filter_eq_nil_iff.mpr
        intro a ha
        obtain ⟨p, -, rfl⟩ := List.mem_map.mp ha
        simpa using kind_residualAnomaly _ p
      show db'.anomalies.filter _ = _
      rw [h.anomalies, List.filter_append, hnone, List.append_nil]
      exact hwf.inverted

end TraceFinalized

end PhpTreeViz
