import PhpTreeViz.Storage.Counters
import PhpTreeViz.Storage.Delivery
import Mathlib.Data.Finset.Card
import Mathlib.Data.List.Nodup

/-!
# Calls delivered more than once

A call is skipped when it is folded or pending. A finalize takes the pending calls out of the only
table that remembers them, so a call that it gave up is recorded and counted a second time when its
batch is delivered again. Apart from this, the call count of the index is the number of distinct
calls delivered.
-/

namespace PhpTreeViz

open Core

/-- The ids of the calls delivered to the trace `key`. -/
def deliveredIds (key : TraceKey) (as : List Attempt) : List UInt32 :=
  (deliveries key as).flatMap fun b => b.calls.map Call.callId

/-- The calls that a finalize gave up. -/
def TraceDb.givenUp (db : TraceDb) : List UInt32 :=
  (db.anomalies.filter (·.Residual)).map AnomalyRow.sampleCallId

/-- The attempt delivers no call that a finalize gave up. -/
def Careful (key : TraceKey) (s : Storage) (a : Attempt) : Prop :=
  ∀ b ∈ a.batch key, ∀ c ∈ b.calls, c.callId ∉ (s.ensureTraceConn key).givenUp

instance (key : TraceKey) (s : Storage) (a : Attempt) : Decidable (Careful key s a) :=
  inferInstanceAs (Decidable (∀ b ∈ a.batch key, ∀ c ∈ b.calls, c.callId ∉ _))

/-- An attempt that delivers no call that a finalize gave up. -/
structure CarefulStep [Engine] (key : TraceKey) (s : Storage) (a : Attempt) (t : Storage) :
    Prop where
  step : Attempt.Step s a t
  careful : Careful key s a

/-! ### One batch -/

lemma callIdAlreadyKnown_iff_mem {db : TraceDb} {id : UInt32} : CallIdAlreadyKnown db id ↔
    id ∈ db.callToNode.rows.map CallToNodeRow.callId ++
      db.pendingCalls.rows.map PendingCall.callId := by
  simp [CallIdAlreadyKnown, Table.HasKey]

lemma mem_places {db : TraceDb} {id : UInt32} :
    id ∈ db.places ↔ CallIdAlreadyKnown db id ∨ id ∈ db.givenUp := by
  rw [TraceDb.places, ← List.append_assoc, List.mem_append, callIdAlreadyKnown_iff_mem,
    TraceDb.givenUp]

lemma nodup_append_newCalls_iff {db : TraceDb} {recorded calls : List Call}
    (hplaces : (recorded.map Call.callId).Perm db.places) :
    ((newCalls db calls ++ recorded).map Call.callId).Nodup ↔
      (recorded.map Call.callId).Nodup ∧ ∀ c ∈ calls, c.callId ∉ db.givenUp := by
  have hmem : ∀ id, id ∈ recorded.map Call.callId ↔
      CallIdAlreadyKnown db id ∨ id ∈ db.givenUp := fun id => by
    rw [hplaces.mem_iff, mem_places]
  rw [List.map_append, List.nodup_append']
  constructor
  · rintro ⟨-, hrec, hdisj⟩
    refine ⟨hrec, fun c hc hgiven => ?_⟩
    have hcases : CallIdAlreadyKnown db c.callId ∨ c.callId ∈ (newCalls db calls).map Call.callId :=
      known_or_mem_newCalls hc
    rcases hcases with hknown | hnew
    · -- the places of a call are distinct
      rw [hplaces.nodup_iff, TraceDb.places, ← List.append_assoc, List.nodup_append'] at hrec
      exact hrec.2.2 (callIdAlreadyKnown_iff_mem.mp hknown) hgiven
    · exact hdisj hnew ((hmem _).mpr (Or.inr hgiven))
  · rintro ⟨hrec, hcalls⟩
    refine ⟨nodup_newCalls, hrec, fun id hnew hold => ?_⟩
    obtain ⟨c, hc, rfl⟩ := List.mem_map.mp hnew
    rcases (hmem _).mp hold with hknown | hgiven
    · exact not_known_of_mem_newCalls hc hknown
    · exact hcalls c (newCalls_sublist.subset hc) hgiven

/-! ### One attempt -/

section step

variable [Engine] {key : TraceKey} {o o' : Observed} {a : Attempt}

/-- An attempt on the trace `key` that succeeds is a batch that is recorded, or it records and
delivers nothing. -/
lemma recordedBy_cases {s t : Storage} {log : List Folded} {versions : List Call}
    (hinv : TraceInv ⟨s.ensureTraceConn key, log, versions⟩) (hstep : Attempt.Step s a t)
    (ha : a.op.key = key → ((a.op.IsRecord ∨ a.op.IsFinalize) ∧ a.ok = true) ∨ a.op.IsCommit) :
    (recordedBy key s a.op = [] ∧ a.batch key = []) ∨
      ∃ b, recordedBy key s a.op = newCalls (s.ensureTraceConn key) b.calls ∧
        a.batch key = [b] := by
  cases hstep.effect hinv with
  | other hk _ => exact Or.inl ⟨recordedBy_of_ne hk, Attempt.batch_of_ne hk⟩
  | @record batch _ _ _ _ _ _ hf _ _ _ _ =>
    exact Or.inr ⟨batch, if_pos ⟨rfl, hf⟩, if_pos rfl⟩
  | recordLost _ _ _ | recordTrace _ _ _ _ =>
    rcases ha rfl with ⟨-, hok⟩ | hcommit
    · cases hok
    · exact hcommit.elim
  | _ => exact Or.inl ⟨rfl, rfl⟩

variable (hinv : ∃ log, TraceInv ⟨o.storage.ensureTraceConn key, log, o.recorded⟩)
  (hstep : Observed.Step key o a o')
  (ha : a.op.key = key → ((a.op.IsRecord ∨ a.op.IsFinalize) ∧ a.ok = true) ∨ a.op.IsCommit)
include hinv hstep ha

/-- A careful attempt records no call a second time. -/
lemma nodup_recorded_iff
    (hplaces : (o.recorded.map Call.callId).Perm (o.storage.ensureTraceConn key).places) :
    (o'.recorded.map Call.callId).Nodup ↔
      (o.recorded.map Call.callId).Nodup ∧ Careful key o.storage a := by
  obtain ⟨log, hinv⟩ := hinv
  rw [hstep.2, Careful]
  rcases recordedBy_cases hinv hstep.1 ha with ⟨hrec, hbatch⟩ | ⟨b, hrec, hbatch⟩
  · simp [hrec, hbatch]
  · rw [hrec, hbatch, nodup_append_newCalls_iff hplaces]
    simp

/-- What is delivered is recorded, now or before. -/
lemma mem_recorded_iff
    (hplaces : (o.recorded.map Call.callId).Perm (o.storage.ensureTraceConn key).places)
    (id : UInt32) : id ∈ o'.recorded.map Call.callId ↔
      id ∈ o.recorded.map Call.callId ∨ ∃ b ∈ a.batch key, id ∈ b.calls.map Call.callId := by
  obtain ⟨log, hinv⟩ := hinv
  rw [hstep.2, List.map_append, List.mem_append, or_comm]
  rcases recordedBy_cases hinv hstep.1 ha with ⟨hrec, hbatch⟩ | ⟨b, hrec, hbatch⟩
  · simp [hrec, hbatch]
  · rw [hrec, hbatch]
    simp only [List.mem_singleton, exists_eq_left]
    constructor
    · refine Or.imp_right fun hnew => ?_
      exact (newCalls_sublist.map _).subset hnew
    · rintro (hold | hid)
      · exact Or.inl hold
      · obtain ⟨c, hc, rfl⟩ := List.mem_map.mp hid
        refine (known_or_mem_newCalls hc).imp_left fun hknown => ?_
        exact hplaces.mem_iff.mpr (mem_places.mpr (Or.inl hknown))

end step

/-! ### Runs -/

section runs

variable [Engine] {key : TraceKey} {o o' : Observed} {s t : Storage} {as : List Attempt}

lemma Counted.step {a : Attempt} (h : Counted key o) (hstep : Observed.Step key o a o')
    (ha : a.op.key = key → ((a.op.IsRecord ∨ a.op.IsFinalize) ∧ a.ok = true) ∨ a.op.IsCommit) :
    Counted key o' := by
  refine counted_of_run (.single hstep) (fun b hb => ?_) h
  rw [List.mem_singleton.mp hb]
  exact ha

lemma nodup_recorded_of_run (hrun : Run (Observed.Step key) o as o') (hok : OnlySucceeds key as)
    (h : Counted key o) : (o'.recorded.map Call.callId).Nodup ↔
      (o.recorded.map Call.callId).Nodup ∧ Run (CarefulStep key) o.storage as o'.storage := by
  induction hrun with
  | nil o => simp
  | @cons o o₁ o₂ a as hstep _ ih =>
    simp only [OnlySucceeds, List.mem_cons, forall_eq_or_imp] at hok
    rw [ih hok.2 (h.step hstep hok.1), nodup_recorded_iff h.inv hstep hok.1 h.places, and_assoc,
      Run.cons_iff]
    apply and_congr_right
    intro _
    constructor
    · rintro ⟨hcareful, hrest⟩
      exact ⟨o₁.storage, ⟨hstep.1, hcareful⟩, hrest⟩
    · rintro ⟨u, ⟨hstep', hcareful⟩, hrest⟩
      obtain rfl : u = o₁.storage := congrArg Prod.fst (hstep'.symm.trans hstep.1)
      exact ⟨hcareful, hrest⟩

lemma mem_recorded_of_run (hrun : Run (Observed.Step key) o as o') (hok : OnlySucceeds key as)
    (h : Counted key o) (id : UInt32) : id ∈ o'.recorded.map Call.callId ↔
      id ∈ o.recorded.map Call.callId ∨ id ∈ deliveredIds key as := by
  induction hrun with
  | nil o => simp [deliveredIds, deliveries]
  | @cons o o₁ o₂ a as hstep _ ih =>
    simp only [OnlySucceeds, List.mem_cons, forall_eq_or_imp] at hok
    rw [ih hok.2 (h.step hstep hok.1), mem_recorded_iff h.inv hstep hok.1 h.places, or_assoc]
    simp only [deliveredIds, deliveries, List.flatMap_cons, List.flatMap_append, List.mem_append,
      List.mem_flatMap]

/-- The call count of a trace that is recorded to and finalized is the number of distinct calls
delivered exactly as long as no call is delivered that a finalize gave up. -/
theorem callCount_eq_iff_of_run (htr : s.traces key = none) (hidx : s.index.find? key = none)
    (hrun : Run Attempt.Step s as t) (hok : OnlySucceeds key as) :
    (t.index.find? key).elim 0 TraceRow.callCount = (deliveredIds key as).toFinset.card ↔
      Run (CarefulStep key) s as t := by
  obtain ⟨recorded, hobs⟩ := Observed.exists_run hrun key []
  have h₀ : Counted key ⟨s, []⟩ := Counted.empty htr hidx
  have hmem := mem_recorded_of_run hobs hok h₀
  have hset : (recorded.map Call.callId).toFinset = (deliveredIds key as).toFinset := by
    ext id
    simpa using hmem id
  have hnodup := nodup_recorded_of_run hobs hok h₀
  rw [(counted_of_run hobs hok h₀).counters.2, ← hset, ← List.length_map Call.callId]
  constructor
  · intro hcard
    have hrec : (recorded.map Call.callId).Nodup :=
      Multiset.coe_nodup.mp (Multiset.toFinset_card_eq_card_iff_nodup.mp hcard.symm)
    exact (hnodup.mp hrec).2
  · intro hcareful
    exact (List.toFinset_card_of_nodup (hnodup.mpr ⟨List.nodup_nil, hcareful⟩)).symm

end runs

/-- A call that is folded is delivered twice, before and after a finalize. -/
theorem callCount_eq_iff_of_run_folded :
    letI := Engine.stored
    ∃ as t, Run Attempt.Step .empty as t ∧ OnlySucceeds default as ∧
      deliveredIds default as = [1, 1] ∧ (∃ a ∈ as, a.op.IsFinalize) ∧
      (t.index.find? default).elim 0 TraceRow.callCount =
        (deliveredIds default as).toFinset.card := by
  let _ := Engine.stored
  let batch : Batch :=
    { metaBlock := { (default : Meta) with sapi := "cli" }
      dict := [{ (default : DictEntry) with fnId := 7 }]
      calls := [{ (default : Call) with callId := 1, fnId := 7 }] }
  let record : Op := .record default batch 0 .none
  let finalize : Op := .finalize default 5 true .none
  let s₁ : Storage := (record.exec .empty).1
  let s₂ : Storage := (finalize.exec s₁).1
  let t : Storage := (record.exec s₂).1
  have hrun : Run Attempt.Step .empty [⟨record, true⟩, ⟨finalize, true⟩, ⟨record, true⟩] t :=
    .cons (t := s₁) rfl (.cons (t := s₂) rfl
      (.single (Attempt.step_exec (by decide +kernel))))
  have hok : OnlySucceeds default [⟨record, true⟩, ⟨finalize, true⟩, ⟨record, true⟩] :=
    OnlySucceeds.nil.record.finalize.record
  have hcareful : Run (CarefulStep default) .empty
      [⟨record, true⟩, ⟨finalize, true⟩, ⟨record, true⟩] t :=
    .cons (t := s₁) ⟨rfl, by decide⟩ (.cons (t := s₂) ⟨rfl, by decide⟩
      (.single ⟨Attempt.step_exec (by decide +kernel), by decide⟩))
  exact ⟨_, t, hrun, hok, rfl, ⟨_, List.mem_cons_of_mem _ List.mem_cons_self, trivial⟩,
    (callCount_eq_iff_of_run rfl rfl hrun hok).mpr hcareful⟩

/-- A parked call is counted again when it is delivered again after a forced finalize. -/
theorem not_callCount_eq :
    letI := Engine.stored
    ¬ ∀ key as t, Run Attempt.Step .empty as t → OnlySucceeds key as →
      (t.index.find? key).elim 0 TraceRow.callCount = (deliveredIds key as).toFinset.card := by
  let _ := Engine.stored
  intro h
  let batch : Batch :=
    { metaBlock := { (default : Meta) with schemaVersion := 1, sapi := "cli" }
      dict := []
      calls := [{ (default : Call) with callId := 1, fnId := 7, depth := 1 }] }
  let record : Op := .record default batch 0 .none
  let finalize : Op := .finalize default 5 true .none
  let s₁ : Storage := (record.exec .empty).1
  let s₂ : Storage := (finalize.exec s₁).1
  let t : Storage := (record.exec s₂).1
  have hrun : Run Attempt.Step .empty [⟨record, true⟩, ⟨finalize, true⟩, ⟨record, true⟩] t :=
    .cons (t := s₁) rfl (.cons (t := s₂) rfl (.single rfl))
  have hcount := h default _ t hrun OnlySucceeds.nil.record.finalize.record
  revert hcount
  decide

end PhpTreeViz
