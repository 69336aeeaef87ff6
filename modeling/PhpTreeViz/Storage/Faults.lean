import PhpTreeViz.Storage.Counters
import PhpTreeViz.Storage.Delivery

/-!
# Between the two commits

`record_batch` commits the per-trace transaction before it touches the index. Two things can go
wrong in between: the index refuses the row, because only its schema checks `sapi`, or its commit
is lost. In both cases the per-trace database is ahead of the index, and a redelivery does not close
the gap, since it only counts what the per-trace database does not have yet.
-/

namespace PhpTreeViz

open Core

/-! ### Batches that write nothing -/

/-- The database has every row that the batch would write. -/
structure AlreadyWritten (db : TraceDb) (key : TraceKey) (batch : Batch) : Prop where
  traceMeta : db.traceMeta = some (.mirror key batch.metaBlock)
  dict : ∀ fn, Defines batch.dict fn → db.dict.HasKey fn
  calls : ∀ c ∈ batch.calls, CallIdAlreadyKnown db c.callId

namespace TraceRecorded

variable {key : TraceKey} {s t : Traced} {batch : Batch} {es₁ es₂ : List Event}

lemma eq_self_iff (h : TraceRecorded key s batch es₁ es₂ t) (hinv : TraceInv s) :
    t.db = s.db ↔ AlreadyWritten s.db key batch := by
  constructor
  · intro hdb
    refine ⟨by rw [← hdb, h.traceMeta], fun fn hfn => ?_, fun c hc => ?_⟩
    · rw [← hdb]
      exact h.hasKey_dict.mpr (Or.inr (Or.inl hfn))
    · have hknown := (h.known c.callId).mpr (known_or_mem_newCalls hc)
      rwa [hdb] at hknown
  · intro hw
    have hwf : WellFormed s := by
      rcases hinv with ⟨hfresh, -⟩ | ⟨hwf, -⟩
      · have hmeta := hw.traceMeta
        rw [hfresh] at hmeta
        cases hmeta
      · exact hwf
    rw [(h.of_known hinv hwf hw.dict hw.calls).1, ← hw.traceMeta]

end TraceRecorded

/-! ### A batch without faults -/

section recordBatch

variable [Engine] {s t : Storage} {key : TraceKey} {log : List Folded} {versions : List Call}

/-- What `record_batch` does when no commit is lost. -/
lemma recordBatch_none (hinv : TraceInv ⟨s.ensureTraceConn key, log, versions⟩) (batch : Batch)
    (now : Int64) : ∃ es₁ es₂ u,
      TraceRecorded key ⟨s.ensureTraceConn key, log, versions⟩ batch es₁ es₂ u ∧
      recordBatch s key batch now =
        if SapiAllowed batch.metaBlock.sapi then
          ({ s.setTrace key u.db with
              index := s.index.upsert
                (.ofBatch key batch.metaBlock now (outcomeOf (es₁ ++ es₂) u))
                (.addBatch batch.metaBlock now (outcomeOf (es₁ ++ es₂) u))
                (TraceRow.traceKey_addBatch _ _ _) }, .ok (outcomeOf (es₁ ++ es₂) u))
        else (s.setTrace key u.db, .error (.query "upsert traces row")) := by
  obtain ⟨es₁, es₂, u, heq, htr⟩ := recordTrace_spec hinv key batch
  exact ⟨es₁, es₂, u, htr, recordBatch_eq heq _ _⟩

omit [Engine] in
lemma setTrace_eq_self_iff {db : TraceDb} : s.setTrace key db = s ↔ s.traces key = some db := by
  constructor
  · intro h
    rw [← h, traces_setTrace]
  · intro h
    rw [Storage.setTrace, ← h, Function.update_eq_self]

/-- A fault-free `record_batch` that fails leaves both databases as they were. -/
def RecordsAtomically (s : Storage) (key : TraceKey) (batch : Batch) : Prop :=
  ∀ now t e, recordBatch s key batch now = (t, .error e) → t = s

/-- The index takes the row of the batch, or the batch writes nothing that it could miss. -/
def IndexKeepsUp (s : Storage) (key : TraceKey) (batch : Batch) : Prop :=
  SapiAllowed batch.metaBlock.sapi ∨ ∃ db, s.traces key = some db ∧ AlreadyWritten db key batch

lemma recordsAtomically_iff (hinv : TraceInv ⟨s.ensureTraceConn key, log, versions⟩)
    (batch : Batch) : RecordsAtomically s key batch ↔ IndexKeepsUp s key batch := by
  by_cases hsapi : SapiAllowed batch.metaBlock.sapi
  · refine iff_of_true (fun now t e h => ?_) (Or.inl hsapi)
    obtain ⟨es₁, es₂, u, -, heq⟩ := recordBatch_none hinv batch now
    rw [heq, if_pos hsapi] at h
    cases (Prod.mk.inj h).2
  have herr : ∀ now, ∃ es₁ es₂ u,
      TraceRecorded key ⟨s.ensureTraceConn key, log, versions⟩ batch es₁ es₂ u ∧
      recordBatch s key batch now =
        (s.setTrace key u.db, .error (.query "upsert traces row")) := by
    intro now
    obtain ⟨es₁, es₂, u, htr, heq⟩ := recordBatch_none hinv batch now
    rw [if_neg hsapi] at heq
    exact ⟨es₁, es₂, u, htr, heq⟩
  constructor
  · intro hatomic
    obtain ⟨es₁, es₂, u, htr, heq⟩ := herr 0
    have hdb := setTrace_eq_self_iff.mp (hatomic 0 _ _ heq)
    refine Or.inr ⟨u.db, hdb, ?_⟩
    have hw := (htr.eq_self_iff hinv).mp (ensureTraceConn_of_traces hdb).symm
    rwa [ensureTraceConn_of_traces hdb] at hw
  · rintro (h | ⟨db, hdb, hw⟩) now t e h'
    · exact absurd h hsapi
    · obtain ⟨es₁, es₂, u, htr, heq⟩ := herr now
      obtain ⟨rfl, -⟩ := Prod.mk.inj (heq.symm.trans h')
      rw [setTrace_eq_self_iff, hdb]
      rw [← ensureTraceConn_of_traces hdb] at hw
      rw [(htr.eq_self_iff hinv).mpr hw, ensureTraceConn_of_traces hdb]

end recordBatch

/-! ### Databases without an index row -/

/-- No I/O fault in the operation. -/
def Op.FaultFree : Op → Prop
  | .record _ _ _ fault | .finalize _ _ _ fault => fault = .none
  | .delete _ fault                             => fault = .none
  | .commit _ _ fault                           => fault = .none

/-- What the collector does without I/O faults: it finalizes traces that the index lists, and the
index keeps up with the batches that it records. -/
structure FaultFreeStep [Engine] (s : Storage) (a : Attempt) (t : Storage) : Prop where
  step : Attempt.Step s a t
  faultFree : a.op.FaultFree
  finalizesListed : a.op.IsFinalize → s.index.HasKey a.op.key
  keepsUp : ∀ key batch now fault, a.op = .record key batch now fault → IndexKeepsUp s key batch

/-- Every per-trace database is listed. -/
def Listed (s : Storage) : Prop := ∀ key db, s.traces key = some db → s.index.HasKey key

section listed

variable [Engine] {s t : Storage} {a : Attempt}

lemma FaultFreeStep.listed (hstep : FaultFreeStep s a t)
    (hinv : ∀ key, ∃ log versions, TraceInv ⟨s.ensureTraceConn key, log, versions⟩)
    (h : Listed s) : Listed t := by
  obtain ⟨hstep, hfault, hfin, hrec⟩ := hstep
  intro key db hdb
  obtain ⟨log, versions, hinv⟩ := hinv key
  cases hstep.effect hinv with
  | other hk hsame =>
    rw [← Table.isSome_find?, hsame.index, Table.isSome_find?]
    exact h key db (hsame.traces.symm.trans hdb)
  | commit htraces hindex =>
    rw [hindex]
    exact h key db (htraces.symm.trans hdb)
  | recordLost hf _ _ =>
    obtain rfl : _ = CommitFault.none := hfault
    exact absurd trivial hf
  | @recordTrace batch now fault _ _ _ _ _ _ _ _ =>
    obtain rfl : fault = .none := hfault
    have hatomic := (recordsAtomically_iff hinv batch).mpr (hrec key batch now .none rfl)
    obtain ⟨hst, hres⟩ := Prod.mk.inj hstep
    cases hr : (recordBatch s key batch now).2 with
    | ok o => simp [hr, Except.isOk, Except.toBool] at hres
    | error e =>
      obtain rfl := hatomic now t e (Prod.ext hst hr)
      exact h key db hdb
  | record _ _ _ _ hrow =>
    rw [← Table.isSome_find?, hrow]
    rfl
  | finalizeLost _ hindex | finalizeTrace _ _ hindex =>
    rw [hindex]
    exact hfin trivial
  | finalize _ _ hrow =>
    have hkey : s.index.HasKey key := hfin trivial
    rw [← Table.isSome_find?, hrow, Option.isSome_map, Table.isSome_find?]
    exact hkey
  | deleteLost => exact h key db hdb
  | deleteFiles htraces _ | delete htraces _ =>
    rw [htraces] at hdb
    cases hdb

lemma listed_of_run {as : List Attempt}
    (h : Run FaultFreeStep Storage.empty as s) :
    Listed s := by
  refine (h.invariant (P := fun _ => True)
    (I := fun s => (∃ as, Run Attempt.Step Storage.empty as s) ∧ Listed s) ?_ (fun _ _ => trivial)
    ⟨⟨[], .nil _⟩, by simp [Listed, Storage.empty]⟩).2
  rintro s a t - hstep ⟨⟨as, hrun⟩, hlisted⟩
  exact ⟨⟨as ++ [a], hrun.append (.single hstep.step)⟩, hstep.listed (traceInv_of_run hrun) hlisted⟩

end listed

/-- A fault-free `record_batch` is atomic exactly when the index keeps up. As long as it does, every
per-trace database is listed in the index. -/
theorem recordsAtomically_iff_of_run [Engine] :
    (∀ as s key batch, Run Attempt.Step Storage.empty as s →
      (RecordsAtomically s key batch ↔ IndexKeepsUp s key batch)) ∧
    ∀ as s, Run FaultFreeStep Storage.empty as s → Listed s := by
  refine ⟨fun as s key batch hrun => ?_, fun as s hrun => listed_of_run hrun⟩
  obtain ⟨log, versions, hinv⟩ := traceInv_of_run hrun key
  exact recordsAtomically_iff hinv batch

/-- One accepted batch. -/
theorem recordsAtomically_iff_of_run_cli :
    letI := Engine.stored
    ∃ as s batch, Run FaultFreeStep Storage.empty as s ∧ IndexKeepsUp s default batch ∧
      RecordsAtomically s default batch ∧ (∃ db, s.traces default = some db) ∧ Listed s := by
  let _ := Engine.stored
  let batch : Batch := ⟨{ (default : Meta) with schemaVersion := 1, sapi := "cli" }, [], []⟩
  let op : Op := .record default batch 0 .none
  have hkeeps : ∀ s, IndexKeepsUp s default batch := fun s => Or.inl (Or.inl rfl)
  have hrun : Run FaultFreeStep .empty [⟨op, true⟩] (op.exec .empty).1 := by
    refine .single ⟨rfl, rfl, False.elim, ?_⟩
    rintro key batch now fault ⟨⟩
    exact hkeeps _
  refine ⟨_, _, batch, hrun, hkeeps _, ?_, ⟨_, rfl⟩, recordsAtomically_iff_of_run.2 _ _ hrun⟩
  have hstep : Run Attempt.Step .empty [⟨op, true⟩] (op.exec .empty).1 := .single rfl
  exact (recordsAtomically_iff_of_run.1 _ _ _ _ hstep).mpr (hkeeps _)

/-- A batch whose `sapi` only the index checks leaves a database that no index row lists. -/
theorem not_recordsAtomically :
    letI := Engine.stored
    ∃ batch : Batch, batch.metaBlock.schemaVersion = 1 ∧
      ¬ RecordsAtomically .empty default batch ∧
      ¬ Listed (recordBatch .empty default batch 0).1 := by
  let _ := Engine.stored
  let batch : Batch := ⟨{ (default : Meta) with schemaVersion := 1, sapi := "apache" }, [], []⟩
  let t : Storage := (recordBatch .empty default batch 0).1
  obtain ⟨db, hdb⟩ : ∃ db, t.traces default = some db := ⟨_, rfl⟩
  refine ⟨batch, rfl, fun hatomic => ?_, fun hlisted => ?_⟩
  · have hsame : t = .empty := hatomic 0 t (.query "upsert traces row") rfl
    rw [hsame] at hdb
    cases hdb
  · have hkey := hlisted default db hdb
    revert hkey
    decide

/-! ### What a batch of known calls resolves -/

/-- The mapped calls and the pending calls that the `dict` entries make resolvable, one after the
other. -/
def resolvedWith (db : TraceDb) (entries : List DictEntry) : Set UInt32 :=
  {id | Resolves PendingCall.callId PendingCall.need
    {p | p ∈ db.pendingCalls.rows ∧ (db.dict.HasKey p.fnId ∨ Defines entries p.fnId)}
    {k | db.callToNode.HasKey k} id}

/-- Recording the batch adds nothing to the counters that the index sums up. -/
structure AddsNothing (db : TraceDb) (batch : Batch) : Prop where
  calls : ∀ c ∈ batch.calls, CallIdAlreadyKnown db c.callId
  inverted : ∀ p ∈ db.pendingCalls.rows, p.tOutNs < p.tInNs →
    p.callId ∉ resolvedWith db batch.dict

namespace TraceRecorded

variable {key : TraceKey} {s t : Traced} {batch : Batch} {es₁ es₂ : List Event}

lemma callCountDelta_eq_zero_iff (h : TraceRecorded key s batch es₁ es₂ t) :
    (outcomeOf (es₁ ++ es₂) t).callCountDelta = 0 ↔
      ∀ c ∈ batch.calls, CallIdAlreadyKnown s.db c.callId := by
  rw [h.callCountDelta_eq, List.length_eq_zero_iff, newCalls_eq_nil_iff]

lemma totalWallNsDelta_of_known (h : TraceRecorded key s batch es₁ es₂ t)
    (hknown : ∀ c ∈ batch.calls, CallIdAlreadyKnown s.db c.callId) :
    (outcomeOf (es₁ ++ es₂) t).totalWallNsDelta = 0 := by
  have hperm := h.recorded_perm
  rw [newCalls_eq_nil_iff.mpr hknown, List.perm_nil] at hperm
  exact (totalWallNsDelta_foldl _ _).trans (by rw [hperm]; rfl)

variable (h : TraceRecorded key s batch es₁ es₂ t) (hinv : TraceInv s)
  (hknown : ∀ c ∈ batch.calls, CallIdAlreadyKnown s.db c.callId)
include h hknown

lemma version_of_known : t.version = s.version := by
  funext id
  rw [Traced.version, h.versions, newCalls_eq_nil_iff.mpr hknown, List.nil_append, Traced.version]

lemma known_of_known (id : UInt32) :
    CallIdAlreadyKnown t.db id ↔ CallIdAlreadyKnown s.db id := by
  rw [h.known, newCalls_eq_nil_iff.mpr hknown]
  simp

include hinv

/-- A pending call is folded as it was parked. -/
lemma ofCall_of_pending {p : PendingCall} (hp : p ∈ s.db.pendingCalls.rows) {f : Folded}
    (hf : f ∈ t.log) (hid : f.call.callId = p.callId) : PendingCall.ofCall f.call = p := by
  have hlog := h.wellFormed.logVersion f hf
  have hpend := (hinv.wellFormed_prepareTrace key batch).pendingVersion p hp
  rw [h.version_of_known hknown, hid] at hlog
  exact Option.some.inj (hlog.symm.trans hpend)

/-- A call that was folded now was pending before. -/
lemma pending_of_fold {f : Folded} (hf : f ∈ t.log)
    (hnew : ¬ s.db.callToNode.HasKey f.call.callId) :
    PendingCall.ofCall f.call ∈ s.db.pendingCalls.rows := by
  have hmapped : t.db.callToNode.HasKey f.call.callId := h.wellFormed.hasKey_iff.mpr ⟨f, hf, rfl⟩
  obtain ⟨p, hp, hid⟩ := ((h.known_of_known hknown _).mp (Or.inl hmapped)).resolve_left hnew
  rwa [h.ofCall_of_pending hinv hknown hp hf hid.symm]

/-- Without new calls, the mapped calls are those that the `dict` entries resolve. -/
theorem mapped_iff (id : UInt32) :
    t.db.callToNode.HasKey id ↔ id ∈ resolvedWith s.db batch.dict := by
  constructor
  · intro hid
    obtain ⟨f, hf, rfl⟩ := h.wellFormed.hasKey_iff.mp hid
    refine h.wellFormed.resolves _ _ (fun g hg => ?_) f hf
    by_cases hold : s.db.callToNode.HasKey g.call.callId
    · exact Or.inl hold
    · have hp := h.pending_of_fold hinv hknown hg hold
      refine Or.inr ⟨hp, ?_⟩
      rcases h.hasKey_dict.mp (h.wellFormed.hasFn g hg) with hk | hk | h0
      · exact Or.inl hk
      · exact Or.inr hk
      · rcases hinv with ⟨hfresh, -⟩ | ⟨hwf, -⟩
        · simp [hfresh, TraceDb.fresh] at hp
        · left
          rw [PendingCall.ofCall, h0]
          exact hwf.rootFn
  · intro hid
    have hgrows := grows_of_run h.aggregated.run
    refine Resolves.mem_of_closed (S := {k | t.db.callToNode.HasKey k})
      (fun k hk => hgrows.hasKey hk) ?_ hid
    rintro p ⟨hp, hfn⟩ hneed
    by_contra hnot
    obtain ⟨q, hq, hqid⟩ :=
      ((h.known_of_known hknown p.callId).mpr (Or.inr ⟨p, hp, rfl⟩)).resolve_left hnot
    -- the row is pending as it was, and could be resolved
    have hqp : q = p := by
      have hq' := h.wellFormed.pendingVersion q hq
      have hp' := (hinv.wellFormed_prepareTrace key batch).pendingVersion p hp
      rw [h.version_of_known hknown, hqid] at hq'
      exact Option.some.inj (hq'.symm.trans hp')
    refine h.saturated q hq ⟨?_, ?_⟩
    · rw [hqp, h.hasKey_dict]
      exact hfn.imp_right Or.inl
    · rw [hqp]
      by_cases h0 : p.parentCallId = 0
      · exact Or.inl h0
      · exact Or.inr (hneed _ (if_neg h0))

/-- Anomalies are only added for inverted calls that become resolvable. -/
lemma anomaliesAdded_eq_zero_iff : (outcomeOf (es₁ ++ es₂) t).anomaliesAdded = 0 ↔
    ∀ p ∈ s.db.pendingCalls.rows, p.tOutNs < p.tInNs → p.callId ∉ resolvedWith s.db batch.dict := by
  obtain ⟨new, hnew⟩ := appended_of_run h.aggregated.run
  have hwf := hinv.wellFormed_prepareTrace key batch
  have hcount : (outcomeOf (es₁ ++ es₂) t).anomaliesAdded =
      new.countP fun f => f.call.Inverted := (hnew.anomaliesAdded {}).trans (Nat.zero_add _)
  have hlog : t.log = s.log ++ new := hnew.log
  rw [hcount, List.countP_eq_zero]
  constructor
  · intro hnone p hp hinverted hres
    obtain ⟨f, hf, hid⟩ := h.wellFormed.hasKey_iff.mp ((h.mapped_iff hinv hknown _).mpr hres)
    have hofCall := h.ofCall_of_pending hinv hknown hp hf hid
    rw [hlog, List.mem_append] at hf
    rcases hf with hf | hf
    · exact hwf.disjoint p hp (hwf.hasKey_iff.mpr ⟨f, hf, hid⟩)
    · rw [← hofCall] at hinverted
      have hinverted' : f.call.Inverted := hinverted
      exact hnone f hf (decide_eq_true hinverted')
  · intro hnone f hf hinverted
    have hmem : f ∈ t.log := by
      rw [hlog]
      exact List.mem_append_right _ hf
    have hfresh : ¬ s.db.callToNode.HasKey f.call.callId := by
      intro hk
      obtain ⟨g, hg, hid⟩ := hwf.hasKey_iff.mp hk
      have hnodup := h.wellFormed.nodup_log
      rw [hlog, List.map_append, List.nodup_append] at hnodup
      exact hnodup.2.2 _ (List.mem_map.mpr ⟨g, hg, hid⟩) _ (List.mem_map.mpr ⟨f, hf, rfl⟩) rfl
    apply hnone _ (h.pending_of_fold hinv hknown hmem hfresh) (of_decide_eq_true hinverted)
    exact (h.mapped_iff hinv hknown _).mp (h.wellFormed.hasKey_iff.mpr ⟨f, hmem, rfl⟩)

end TraceRecorded

/-! ### A lost index commit -/

/-- The counters of an index row and its state, without the number of batches. -/
structure SameCounters (row row' : TraceRow) : Prop where
  callCount : row.callCount = row'.callCount
  totalWallNs : row.totalWallNs = row'.totalWallNs
  anomalyCount : row.anomalyCount = row'.anomalyCount
  pendingCount : row.pendingCount = row'.pendingCount
  state : row.state = row'.state

/-- When the index commit of a batch is lost and the batch is later recorded again, the index row
ends up as after one delivery without faults. Other traces may be worked on in between. -/
def RedeliveryConverges [Engine] (s : Storage) (key : TraceKey) (batch : Batch) : Prop :=
  ∀ now now' now'' as s₁ s₂ s₃ t e o o',
    recordBatch s key batch now .index = (s₁, .error e) →
    Run Attempt.Step s₁ as s₂ → (∀ a ∈ as, a.op.key ≠ key) →
    recordBatch s₂ key batch now' = (s₃, .ok o) →
    recordBatch s key batch now'' = (t, .ok o') →
    ∃ row row', s₃.index.find? key = some row ∧ t.index.find? key = some row' ∧
      SameCounters row row'

section convergence

variable [Engine] {s : Storage} {key : TraceKey} {log : List Folded} {versions : List Call}

omit [Engine] in
lemma sameCounters_upserted_iff (row : Option TraceRow) (key : TraceKey) (m : Meta)
    (now now' : Int64) {o o' : AggregateOutcome} (hcall : o.callCountDelta = 0)
    (hwall : o.totalWallNsDelta = 0) (hanom : o.anomaliesAdded = 0)
    (hpend : o.pendingTotal = o'.pendingTotal)
    (hwall' : o'.callCountDelta = 0 → o'.totalWallNsDelta = 0) :
    SameCounters (.upserted row key m now o) (.upserted row key m now' o') ↔
      o'.callCountDelta = 0 ∧ o'.anomaliesAdded = 0 := by
  constructor
  · intro h
    have hc := h.callCount
    have ha := h.anomalyCount
    simp only [TraceRow.callCount_upserted, TraceRow.anomalyCount_upserted, hcall, hanom] at hc ha
    omega
  · rintro ⟨hc, ha⟩
    refine ⟨?_, ?_, ?_, ?_, ?_⟩
    · rw [TraceRow.callCount_upserted, TraceRow.callCount_upserted, hcall, hc]
    · rw [TraceRow.totalWallNs_upserted, TraceRow.totalWallNs_upserted, hwall, hwall' hc]
    · rw [TraceRow.anomalyCount_upserted, TraceRow.anomalyCount_upserted, hanom, ha]
    · rw [TraceRow.pendingCount_upserted, TraceRow.pendingCount_upserted, hpend]
    · rw [TraceRow.state_upserted, TraceRow.state_upserted]

/-- The index row after a successful `record_batch`. -/
lemma find?_of_recordBatch_ok {t : Storage} {batch : Batch} {now : Int64} {db : TraceDb}
    {o r : AggregateOutcome} (heq : recordTrace key (s.ensureTraceConn key) batch = .ok (db, o))
    (h : recordBatch s key batch now = (t, .ok r)) : SapiAllowed batch.metaBlock.sapi ∧
      t.index.find? key = some (.upserted (s.index.find? key) key batch.metaBlock now o) := by
  have hrec := (recordBatch_eq heq now .none).symm.trans h
  by_cases hsapi : SapiAllowed batch.metaBlock.sapi
  · simp only [if_pos hsapi] at hrec
    obtain ⟨rfl, -⟩ := Prod.mk.inj hrec
    exact ⟨hsapi, find?_upsert_traceRow _ _ _ _ _⟩
  · simp only [if_neg hsapi] at hrec
    cases (Prod.mk.inj hrec).2

/-- A batch that was just recorded has nothing more to give. -/
lemma TraceRecorded.recordTrace_again {s t : Traced} {batch : Batch} {es₁ es₂ : List Event}
    (h : TraceRecorded key s batch es₁ es₂ t) : ∃ db, recordTrace key t.db batch = .ok (db,
      { redeliveredSkipped := batch.calls.length
        pendingTotal := t.db.pendingCalls.rows.length }) := by
  obtain ⟨es₁', es₂', u, heq, htr⟩ := recordTrace_spec h.inv key batch
  obtain ⟨-, hout⟩ := htr.of_known h.inv h.wellFormed
    (fun fn hfn => h.hasKey_dict.mpr (Or.inr (Or.inl hfn)))
    (fun c hc => (h.known _).mpr (known_or_mem_newCalls hc))
  rw [hout] at heq
  exact ⟨u.db, heq⟩

/-- The counters converge exactly when the lost commit had nothing to add to them. -/
lemma redeliveryConverges_iff (hinv : TraceInv ⟨s.ensureTraceConn key, log, versions⟩)
    (batch : Batch) : RedeliveryConverges s key batch ↔
      (SapiAllowed batch.metaBlock.sapi → AddsNothing (s.ensureTraceConn key) batch) := by
  obtain ⟨es₁, es₂, u, heq, htr⟩ := recordTrace_spec hinv key batch
  obtain ⟨db, hagain⟩ := htr.recordTrace_again
  have hlost : ∀ now, recordBatch s key batch now .index =
      (s.setTrace key u.db, .error (.query "index commit")) := fun now => recordBatch_eq heq now _
  have hsame : ∀ row now now',
      SameCounters (.upserted row key batch.metaBlock now
          { redeliveredSkipped := batch.calls.length
            pendingTotal := u.db.pendingCalls.rows.length })
        (.upserted row key batch.metaBlock now' (outcomeOf (es₁ ++ es₂) u)) ↔
      AddsNothing (s.ensureTraceConn key) batch := by
    intro row now now'
    refine Iff.trans (sameCounters_upserted_iff row key batch.metaBlock now now' ?_ ?_ ?_ ?_
      fun hzero => htr.totalWallNsDelta_of_known (htr.callCountDelta_eq_zero_iff.mp hzero)) ?_
    iterate 4 rfl
    constructor
    · rintro ⟨hcalls, hanom⟩
      have hknown := htr.callCountDelta_eq_zero_iff.mp hcalls
      exact ⟨hknown, (htr.anomaliesAdded_eq_zero_iff hinv hknown).mp hanom⟩
    · rintro ⟨hknown, hanom⟩
      exact ⟨htr.callCountDelta_eq_zero_iff.mpr hknown,
        (htr.anomaliesAdded_eq_zero_iff hinv hknown).mpr hanom⟩
  constructor
  · intro hconv hsapi
    have hconn : (s.setTrace key u.db).ensureTraceConn key = u.db :=
      ensureTraceConn_of_traces (traces_setTrace _)
    have hretry := recordBatch_eq (s := s.setTrace key u.db)
      (by rw [hconn]; exact hagain) 0 .none
    have hfirst := recordBatch_eq (s := s) heq 0 .none
    simp only [if_pos hsapi] at hretry hfirst
    obtain ⟨row, row', hrow, hrow', hcounters⟩ := hconv 0 0 0 [] _ _ _ _ _ _ _ (hlost 0) (.nil _)
      (by simp) hretry hfirst
    have hrow₁ := (find?_of_recordBatch_ok (by rw [hconn]; exact hagain) hretry).2.symm.trans hrow
    have hrow₂ := (find?_of_recordBatch_ok heq hfirst).2.symm.trans hrow'
    rw [← Option.some.inj hrow₁, ← Option.some.inj hrow₂] at hcounters
    exact (hsame _ _ _).mp hcounters
  · intro hadds now now' now'' as s₁ s₂ s₃ t e o o' hlost' hrun hother hretry hfirst
    obtain ⟨rfl, -⟩ := Prod.mk.inj ((hlost now).symm.trans hlost')
    have hframe := sameTrace_of_run hrun hother
    have hconn : s₂.ensureTraceConn key = u.db := by
      rw [hframe.ensureTraceConn]
      exact ensureTraceConn_of_traces (traces_setTrace _)
    obtain ⟨hsapi, hrow⟩ := find?_of_recordBatch_ok (by rw [hconn]; exact hagain) hretry
    obtain ⟨-, hrow'⟩ := find?_of_recordBatch_ok heq hfirst
    refine ⟨_, _, hrow, hrow', ?_⟩
    rw [hframe.index]
    exact (hsame _ _ _).mpr (hadds hsapi)

end convergence

/-- In every reachable state, a lost index commit heals exactly for a batch whose counters had
nothing to add. -/
theorem redeliveryConverges_iff_of_run [Engine] {as : List Attempt} {s : Storage}
    (hrun : Run Attempt.Step Storage.empty as s) (key : TraceKey) (batch : Batch) :
    RedeliveryConverges s key batch ↔
      (SapiAllowed batch.metaBlock.sapi → AddsNothing (s.ensureTraceConn key) batch) := by
  obtain ⟨log, versions, hinv⟩ := traceInv_of_run hrun key
  exact redeliveryConverges_iff hinv batch

/-- A batch with only its meta block has nothing to add. -/
theorem redeliveryConverges_iff_of_run_no_calls :
    letI := Engine.stored
    ∃ batch : Batch, SapiAllowed batch.metaBlock.sapi ∧
      RedeliveryConverges .empty default batch := by
  let _ := Engine.stored
  let batch : Batch := ⟨{ (default : Meta) with sapi := "cli" }, [], []⟩
  refine ⟨batch, Or.inl rfl,
    (redeliveryConverges_iff_of_run (.nil _) default batch).mpr fun _ => ?_⟩
  exact ⟨by simp [batch], by simp [Storage.ensureTraceConn, Storage.empty, TraceDb.fresh]⟩

/-- One call, counted by the delivery whose index commit is lost and by no other. -/
theorem not_redeliveryConverges :
    letI := Engine.stored
    ¬ ∀ as s key batch, Run Attempt.Step Storage.empty as s → RedeliveryConverges s key batch := by
  let _ := Engine.stored
  intro h
  let batch : Batch :=
    ⟨{ (default : Meta) with schemaVersion := 1, sapi := "cli" },
      [{ (default : DictEntry) with fnId := 1 }],
      [{ (default : Call) with callId := 1, fnId := 1, depth := 1 }]⟩
  let s₁ : Storage := (recordBatch .empty default batch 0 .index).1
  obtain ⟨row, row', hrow, hrow', hcounters⟩ := h [] .empty default batch (.nil _) 0 0 0 [] s₁ s₁
    (recordBatch s₁ default batch 0).1 (recordBatch .empty default batch 0).1 _ _ _ rfl (.nil _)
    (by simp) rfl rfl
  have hcount : row.callCount = 0 := by
    obtain rfl := Option.some.inj hrow
    rfl
  have hcount' : row'.callCount = 1 := by
    obtain rfl := Option.some.inj hrow'
    rfl
  have := hcounters.callCount
  omega

end PhpTreeViz
