import PhpTreeViz.Core.Resolution
import PhpTreeViz.Storage.ContextTree

/-!
# Traces that are only recorded to

While a trace only receives batches, its tables are a function of what was delivered: the recorded
version of a call is its last occurrence in the first batch that carries it, a recorded call is
mapped as soon as its function is known and its caller is mapped, and the other recorded calls are
pending. Delivering a batch once more changes nothing.
-/

namespace PhpTreeViz

open Core

/-! ### What was delivered -/

/-- The batch of the trace `key` that an attempt delivers. -/
def Attempt.batch (key : TraceKey) (a : Attempt) : List Batch :=
  match a.op with
  | .record k batch _ _ => if k = key then [batch] else []
  | _                   => []

lemma Attempt.batch_of_ne {key : TraceKey} {a : Attempt} (hk : a.op.key ≠ key) :
    a.batch key = [] := by
  obtain ⟨op, ok⟩ := a
  cases op with
  | record k batch now fault => exact if_neg hk
  | _ => rfl

/-- The batches of the trace `key`, in the order of delivery. -/
def deliveries (key : TraceKey) (as : List Attempt) : List Batch := as.flatMap (Attempt.batch key)

/-- The trace `key` is only recorded to, each time with success. -/
def OnlyRecorded (key : TraceKey) (as : List Attempt) : Prop :=
  ∀ a ∈ as, a.op.key = key → (a.op.IsRecord ∧ a.ok = true) ∨ a.op.IsCommit

/-- The last occurrence of a call in the first batch that carries it. -/
def recordedVersion (bs : List Batch) (callId : UInt32) : Option Call :=
  (bs.find? fun b => b.calls.any (·.callId = callId)).bind fun b =>
    b.calls.reverse.find? (·.callId = callId)

lemma isSome_find?_reverse {calls : List Call} {id : UInt32} :
    (calls.reverse.find? (·.callId = id)).isSome ↔ ∃ c ∈ calls, c.callId = id := by
  simp [List.find?_isSome]

lemma recordedVersion_append (bs : List Batch) (b : Batch) (id : UInt32) :
    recordedVersion (bs ++ [b]) id =
      (recordedVersion bs id).or (b.calls.reverse.find? (·.callId = id)) := by
  simp only [recordedVersion, List.find?_append]
  cases hf : bs.find? fun b => b.calls.any (·.callId = id) with
  | some b₀ =>
    have hb₀ := List.find?_some hf
    have hsome : (b₀.calls.reverse.find? (·.callId = id)).isSome :=
      isSome_find?_reverse.mpr (by simpa using hb₀)
    simp only [Option.some_or, Option.bind_some]
    rw [Option.or_of_isSome hsome]
  | none =>
    simp only [Option.none_or, Option.bind_none]
    by_cases hb : b.calls.any (·.callId = id)
    · rw [List.find?_cons_of_pos (p := fun b : Batch => b.calls.any (·.callId = id)) hb,
        Option.bind_some]
    · have hnone : b.calls.reverse.find? (·.callId = id) = none := by
        rw [← Option.not_isSome_iff_eq_none, isSome_find?_reverse]
        simpa using hb
      rw [List.find?_cons_of_neg (p := fun b : Batch => b.calls.any (·.callId = id)) hb, hnone]
      rfl

/-- The tables of a trace after the batches `bs` and nothing else. -/
structure Delivered (key : TraceKey) (s : Storage) (bs : List Batch) (u : Traced) : Prop where
  traces : s.traces key = if bs = [] then none else some u.db
  inv : TraceInv u
  version : ∀ id, u.version id = recordedVersion bs id
  known : ∀ id, CallIdAlreadyKnown u.db id ↔ (recordedVersion bs id).isSome
  dict : ∀ fn, u.db.dict.HasKey fn ↔ (bs ≠ [] ∧ fn = 0) ∨ ∃ b ∈ bs, Defines b.dict fn
  sapi : ∀ b ∈ bs, SapiAllowed b.metaBlock.sapi
  row : bs ≠ [] → ∃ row, s.index.find? key = some row ∧ row.state = .active ∧
    row.pendingCount = u.db.pendingCalls.rows.length

section delivered

variable {key : TraceKey} {s t : Storage} {bs : List Batch} {u : Traced} {batch : Batch}

lemma Delivered.empty (h : s.traces key = none) : Delivered key s [] ⟨.fresh, [], []⟩ where
  traces := by rw [if_pos rfl, h]
  inv := TraceInv.fresh []
  version _ := rfl
  known _ := by simp [CallIdAlreadyKnown, TraceDb.fresh, recordedVersion]
  dict _ := by simp [TraceDb.fresh]
  sapi := by simp
  row h := absurd rfl h

lemma Delivered.ensureTraceConn (h : Delivered key s bs u) (hne : bs ≠ []) :
    s.ensureTraceConn key = u.db := by
  rw [Storage.ensureTraceConn, h.traces, if_neg hne, Option.getD_some]

/-- One more batch is delivered with success. -/
lemma Delivered.record (h : Delivered key s bs u) {es₁ es₂ : List Event} {u' : Traced}
    {row : TraceRow} (htr : TraceRecorded key u batch es₁ es₂ u')
    (htraces : t.traces key = some u'.db) (hsapi : SapiAllowed batch.metaBlock.sapi)
    (hrow : t.index.find? key = some row) (hstate : row.state = .active)
    (hpending : row.pendingCount = u'.db.pendingCalls.rows.length) :
    Delivered key t (bs ++ [batch]) u' := by
  have hversions : u'.versions = newCalls u.db batch.calls ++ u.versions := htr.versions
  have hver : ∀ id, u'.version id = recordedVersion (bs ++ [batch]) id := by
    intro id
    rw [Traced.version, hversions, List.find?_append, find?_newCalls, recordedVersion_append,
      ← h.version]
    by_cases hk : CallIdAlreadyKnown u.db id
    · have hsome : (u.version id).isSome := by
        rw [h.version]
        exact (h.known id).mp hk
      rw [if_pos hk, Option.none_or, Option.or_of_isSome hsome]
      rfl
    · have hnone : u.version id = none := by
        rw [h.version, ← Option.not_isSome_iff_eq_none, ← h.known]
        exact hk
      rw [if_neg hk, hnone, Option.none_or, ← Traced.version, hnone, Option.or_none]
  refine ⟨?_, htr.inv, hver, fun id => ?_, fun fn => ?_, ?_, fun _ => ⟨row, hrow, hstate, hpending⟩⟩
  · rw [if_neg (by simp), htraces]
  · rw [htr.known, ← hver, Traced.version, hversions, List.find?_append, ← Traced.version,
      h.version, Option.isSome_or, Bool.or_eq_true, h.known, or_comm]
    apply or_congr_left
    simp [List.find?_isSome]
  · rw [htr.hasKey_dict, h.dict]
    simp only [List.mem_append, List.mem_singleton, or_and_right, exists_or, exists_eq_left]
    constructor
    · rintro ((⟨-, h0⟩ | hb) | hb | h0)
      · exact Or.inl ⟨by simp, h0⟩
      · exact Or.inr (Or.inl hb)
      · exact Or.inr (Or.inr hb)
      · exact Or.inl ⟨by simp, h0⟩
    · rintro (⟨-, h0⟩ | hb | hb)
      · exact Or.inr (Or.inr h0)
      · exact Or.inl (Or.inr hb)
      · exact Or.inr (Or.inl hb)
  · intro b hb
    rcases List.mem_append.mp hb with hb | hb
    · exact h.sapi b hb
    · rw [List.mem_singleton.mp hb]
      exact hsapi

lemma Delivered.wellFormed (h : Delivered key s bs u) (hne : bs ≠ []) :
    WellFormed u ∧ Saturated u.db := by
  apply h.inv.resolve_left
  rintro ⟨hdb, -⟩
  have h0 : u.db.dict.HasKey 0 := (h.dict 0).mpr (Or.inl ⟨hne, rfl⟩)
  rw [hdb] at h0
  simp [TraceDb.fresh] at h0

lemma Delivered.congr (h : Delivered key s bs u) (hst : SameTrace key s t) :
    Delivered key t bs u :=
  { h with
    traces := hst.traces.trans h.traces
    row := by rw [hst.index]; exact h.row }

/-- The database that the next batch finds. -/
lemma Delivered.ensureTraceConn_eq (h : Delivered key s bs u) : s.ensureTraceConn key = u.db := by
  by_cases hne : bs = []
  · have hnone : s.traces key = none := by rw [h.traces, if_pos hne]
    rw [ensureTraceConn_of_none hnone]
    rcases h.inv with ⟨hdb, -⟩ | ⟨hwf, -⟩
    · exact hdb.symm
    · rcases (h.dict 0).mp hwf.rootFn with ⟨hne', -⟩ | ⟨b, hb, -⟩
      · exact absurd hne hne'
      · simp [hne] at hb
  · exact h.ensureTraceConn hne

/-- The tables of a trace that is only recorded to are those of its deliveries. What holds of the
index row and the tables at first, and is kept by every batch delivered, holds of them too. -/
theorem delivered_of_run_with [Engine] {Q : Option TraceRow → Traced → Prop} {as : List Attempt}
    (hempty : s.traces key = none) (hrun : Run Attempt.Step s as t) (honly : OnlyRecorded key as)
    (hQ₀ : Q (s.index.find? key) ⟨.fresh, [], []⟩)
    (hQ : ∀ row u batch now es₁ es₂ u', batch ∈ deliveries key as → TraceInv u →
      TraceRecorded key u batch es₁ es₂ u' → Q row u →
      Q (some (.upserted row key batch.metaBlock now (outcomeOf (es₁ ++ es₂) u'))) u') :
    ∃ u, Delivered key t (deliveries key as) u ∧ Q (t.index.find? key) u := by
  have hP : ∀ a ∈ as, (a.op.key = key → (a.op.IsRecord ∧ a.ok = true) ∨ a.op.IsCommit) ∧
      a.batch key ⊆ deliveries key as := fun a ha =>
    ⟨honly a ha, fun b hb => List.mem_flatMap.mpr ⟨a, ha, hb⟩⟩
  rw [show deliveries key as = as.foldl (fun bs a => bs ++ a.batch key) [] from
    List.flatMap_eq_foldl]
  refine hrun.ghost (I := fun s bs => ∃ u, Delivered key s bs u ∧ Q (s.index.find? key) u) ?_ hP
    ⟨_, Delivered.empty hempty, hQ₀⟩
  rintro s a t bs ⟨ha, hsub⟩ hstep ⟨u, hu, hq⟩
  have hinv : TraceInv ⟨s.ensureTraceConn key, u.log, u.versions⟩ := by
    rw [hu.ensureTraceConn_eq]
    exact hu.inv
  cases hstep.effect hinv with
  | other hk hsame =>
    rw [Attempt.batch_of_ne hk, List.append_nil, hsame.index]
    exact ⟨u, hu.congr hsame, hq⟩
  | commit htraces hindex =>
    rw [show Attempt.batch key _ = [] from rfl, List.append_nil, hindex]
    refine ⟨u, { hu with traces := htraces.trans hu.traces, row := ?_ }, hq⟩
    rw [hindex]
    exact hu.row
  | @record batch now fault _ es₁ es₂ u' _ hrec htraces hsapi hrow =>
    have hbatch : Attempt.batch key ⟨.record key batch now fault, true⟩ = [batch] := if_pos rfl
    rw [hu.ensureTraceConn_eq] at hrec
    rw [hbatch] at hsub ⊢
    refine ⟨u', hu.record hrec htraces hsapi hrow (by simp) (by simp [outcomeOf]), ?_⟩
    rw [hrow]
    exact hQ _ u batch now es₁ es₂ u' (hsub (List.mem_singleton.mpr rfl)) hu.inv hrec hq
  | recordLost _ _ _ | recordTrace _ _ _ _ =>
    rcases ha rfl with ⟨-, hok⟩ | hcommit
    · cases hok
    · exact hcommit.elim
  | finalizeLost _ _ | finalizeTrace _ _ _ | finalize _ _ _
  | deleteLost | deleteFiles _ _ | delete _ _ =>
    rcases ha rfl with ⟨hrecord, -⟩ | hcommit
    · exact hrecord.elim
    · exact hcommit.elim

lemma delivered_of_run [Engine] {as : List Attempt} (hempty : s.traces key = none)
    (hrun : Run Attempt.Step s as t) (honly : OnlyRecorded key as) :
    ∃ u, Delivered key t (deliveries key as) u := by
  obtain ⟨u, hu, -⟩ := delivered_of_run_with (Q := fun _ _ => True) hempty hrun honly trivial
    fun _ _ _ _ _ _ _ _ _ _ _ => trivial
  exact ⟨u, hu⟩

end delivered

/-! ### Which calls are mapped -/

/-- The call that a pending call waits for. -/
def PendingCall.need (p : PendingCall) : Option UInt32 :=
  if p.parentCallId = 0 then none else some p.parentCallId

lemma PendingCall.need_ofCall {c : Call} {k : UInt32} :
    (PendingCall.ofCall c).need = some k ↔ c.parent ≠ 0 ∧ c.parent = k := by
  by_cases h : c.parent = 0 <;> simp [need, ofCall, h]

/-- The mapped calls are resolved one after the other, callers first: the node of a caller has the
smaller id. -/
lemma WellFormed.resolves {s : Traced} (h : WellFormed s) (rows : Set PendingCall)
    (base : Set UInt32)
    (hrows : ∀ f ∈ s.log, f.call.callId ∈ base ∨ PendingCall.ofCall f.call ∈ rows) :
    ∀ f ∈ s.log, Resolves PendingCall.callId PendingCall.need rows base f.call.callId := by
  intro f hf
  induction hn : f.node using Nat.strong_induction_on generalizing f with
  | _ n ih =>
    rcases hrows f hf with hbase | hrow
    · exact .base hbase
    · show Resolves _ _ _ _ (PendingCall.ofCall f.call).callId
      refine .row hrow fun k hk => ?_
      obtain ⟨h0, rfl⟩ := PendingCall.need_ofCall.mp hk
      rcases h.parentAt_iff.mp (h.parentAt f hf) with ⟨hzero, -⟩ | ⟨g, hg, hid, hnode⟩
      · exact absurd hzero h0
      · rw [← hid]
        have hlt := (h.tree.parentNode_lt hf).1
        exact ih g.node (by omega) g hg rfl

/-- The mapped calls are the least set that contains every recorded call whose function is known
and whose caller is the root or in the set. The other recorded calls are pending. -/
structure LeastResolution (db : TraceDb) (version : UInt32 → Option Call) : Prop where
  mapped : IsLeast
    {S : Set UInt32 | ∀ id, id ∈ S ↔ ∃ c, version id = some c ∧ db.dict.HasKey c.fnId ∧
      (c.parent = 0 ∨ c.parent ∈ S)}
    {id | db.callToNode.HasKey id}
  pending : ∀ p, p ∈ db.pendingCalls.rows ↔
    ∃ c, version p.callId = some c ∧ p = .ofCall c ∧ ¬ db.callToNode.HasKey p.callId
  disjoint : ∀ id, ¬ (db.callToNode.HasKey id ∧ db.pendingCalls.HasKey id)
  cyclic : ∀ X : Set UInt32,
    (∀ id ∈ X, ∀ c, version id = some c → c.parent ≠ 0 ∧ c.parent ∈ X) →
    ∀ id ∈ X, (version id).isSome → db.pendingCalls.HasKey id

namespace WellFormed

variable {s : Traced}

/-- A recorded call that is not mapped is pending. -/
lemma mem_pending_iff (h : WellFormed s)
    (hknown : ∀ id, CallIdAlreadyKnown s.db id ↔ (s.version id).isSome) (p : PendingCall) :
    p ∈ s.db.pendingCalls.rows ↔ ∃ c, s.version p.callId = some c ∧ p = .ofCall c ∧
      ¬ s.db.callToNode.HasKey p.callId := by
  constructor
  · intro hp
    obtain ⟨c, hc, hpc⟩ := Option.map_eq_some_iff.mp (h.pendingVersion p hp)
    exact ⟨c, hc, hpc.symm, h.disjoint p hp⟩
  · rintro ⟨c, hc, hpc, hnot⟩
    have hk : CallIdAlreadyKnown s.db p.callId := (hknown _).mpr (by rw [hc]; rfl)
    obtain ⟨q, hq, hid⟩ := hk.resolve_left hnot
    have hqc := h.pendingVersion q hq
    rw [hid, hc, Option.map_some, Option.some.injEq, ← hpc] at hqc
    rwa [hqc]

theorem leastResolution (h : WellFormed s) (hsat : Saturated s.db)
    (hknown : ∀ id, CallIdAlreadyKnown s.db id ↔ (s.version id).isSome) :
    LeastResolution s.db s.version := by
  have hmem : ∀ f ∈ s.log, ∃ c, s.version f.call.callId = some c ∧ s.db.dict.HasKey c.fnId ∧
      PendingCall.ofCall c = .ofCall f.call := by
    intro f hf
    obtain ⟨c, hc, hpc⟩ := Option.map_eq_some_iff.mp (h.logVersion f hf)
    exact ⟨c, hc, by rw [PendingCall.ofCall_inj hpc]; exact h.hasFn f hf, hpc⟩
  have hleast : ∀ S : Set UInt32, (∀ id, (∃ c, s.version id = some c ∧ s.db.dict.HasKey c.fnId ∧
      (c.parent = 0 ∨ c.parent ∈ S)) → id ∈ S) → ∀ id, s.db.callToNode.HasKey id → id ∈ S := by
    intro S hS id hid
    obtain ⟨f, hf, rfl⟩ := h.hasKey_iff.mp hid
    have hres := h.resolves {p | ∃ g ∈ s.log, PendingCall.ofCall g.call = p} ∅
      (fun g hg => Or.inr ⟨g, hg, rfl⟩) f hf
    refine Resolves.mem_of_closed (by simp) ?_ hres
    rintro p ⟨g, hg, rfl⟩ hneed
    obtain ⟨c, hc, hfn, hpc⟩ := hmem g hg
    refine hS _ ⟨c, hc, hfn, ?_⟩
    have hparent : c.parent = g.call.parent := congrArg PendingCall.parentCallId hpc
    by_cases h0 : c.parent = 0
    · exact Or.inl h0
    · refine Or.inr (hneed _ (PendingCall.need_ofCall.mpr ⟨?_, hparent.symm⟩))
      rwa [← hparent]
  refine ⟨⟨fun id => ⟨fun hid => ?_, ?_⟩, fun S hS id hid => ?_⟩, h.mem_pending_iff hknown, ?_, ?_⟩
  · obtain ⟨f, hf, rfl⟩ := h.hasKey_iff.mp hid
    obtain ⟨c, hc, hfn, hpc⟩ := hmem f hf
    have hparent : c.parent = f.call.parent := congrArg PendingCall.parentCallId hpc
    refine ⟨c, hc, hfn, ?_⟩
    rw [hparent]
    exact (h.parentAt f hf).imp And.left fun hm => ⟨_, hm, rfl⟩
  · rintro ⟨c, hc, hfn, hpar⟩
    by_contra hnot
    have hid : c.callId = id := by simpa using List.find?_some hc
    have hpend : PendingCall.ofCall c ∈ s.db.pendingCalls.rows :=
      (h.mem_pending_iff hknown _).mpr ⟨c, by rw [← hid] at hc; exact hc, rfl,
        by rw [PendingCall.ofCall, hid]; exact hnot⟩
    exact hsat _ hpend ⟨hfn, hpar⟩
  · exact hleast S (fun id hex => (hS id).mpr hex) id hid
  · rintro id ⟨hm, p, hp, rfl⟩
    exact h.disjoint p hp hm
  · intro X hX id hid hsome
    refine ((hknown id).mpr hsome).resolve_left fun hm => ?_
    refine hleast Xᶜ ?_ id hm hid
    rintro k ⟨c, hc, -, hpar⟩ hk
    obtain ⟨hne, hin⟩ := hX k hk c hc
    exact hpar.elim hne fun hout => hout hin

end WellFormed

/-- After any deliveries to a trace, the mapped calls are the least resolution of what was
delivered. -/
theorem leastResolution_of_run [Engine] {key : TraceKey} {s t : Storage} {as : List Attempt}
    {db : TraceDb} (hempty : s.traces key = none) (hrun : Run Attempt.Step s as t)
    (honly : OnlyRecorded key as) (hdb : t.traces key = some db) :
    LeastResolution db (recordedVersion (deliveries key as)) := by
  obtain ⟨u, hu⟩ := delivered_of_run hempty hrun honly
  have hne : deliveries key as ≠ [] := by
    intro hnil
    rw [hu.traces, if_pos hnil] at hdb
    cases hdb
  rw [hu.traces, if_neg hne, Option.some.injEq] at hdb
  obtain ⟨hwf, hsat⟩ := hu.wellFormed hne
  have hver : recordedVersion (deliveries key as) = u.version :=
    funext fun id => (hu.version id).symm
  rw [hver, ← hdb]
  exact hwf.leastResolution hsat fun id => by rw [hu.known, hu.version]

/-- A call that is its own caller, next to one that is not. -/
theorem leastResolution_of_run_self_parent :
    letI := Engine.stored
    ∃ as t db, Run Attempt.Step .empty as t ∧ OnlyRecorded default as ∧
      t.traces default = some db ∧ db.pendingCalls.HasKey 3 ∧ db.callToNode.HasKey 4 ∧
      LeastResolution db (recordedVersion (deliveries default as)) := by
  let _ := Engine.stored
  let op : Op := .record default
    { metaBlock := { (default : Meta) with sapi := "cli" }
      dict := [{ (default : DictEntry) with fnId := 7 }]
      calls := [{ (default : Call) with callId := 3, parent := 3, fnId := 7 },
        { (default : Call) with callId := 4, fnId := 7 }] } 0 .none
  have hrun : Run Attempt.Step .empty [⟨op, true⟩] (op.exec .empty).1 := .single rfl
  have honly : OnlyRecorded default [⟨op, true⟩] := fun a ha _ => by
    rw [List.mem_singleton.mp ha]
    exact Or.inl ⟨trivial, rfl⟩
  exact ⟨_, _, _, hrun, honly, rfl, by decide, by decide,
    leastResolution_of_run rfl hrun honly rfl⟩

/-! ### Redelivery -/

lemma isSome_recordedVersion {bs : List Batch} {b : Batch} {c : Call} (hb : b ∈ bs)
    (hc : c ∈ b.calls) : (recordedVersion bs c.callId).isSome := by
  have hany : b.calls.any (·.callId = c.callId) := List.any_eq_true.mpr ⟨c, hc, by simp⟩
  obtain ⟨b₀, hb₀⟩ := Option.isSome_iff_exists.mp <|
    List.find?_isSome (p := fun b : Batch => b.calls.any (·.callId = c.callId)).mpr ⟨b, hb, hany⟩
  rw [recordedVersion, hb₀, Option.bind_some, isSome_find?_reverse]
  simpa using List.find?_some hb₀

/-- A batch of known calls and known functions changes no table but `trace_meta`. -/
lemma TraceRecorded.of_known {key : TraceKey} {s t : Traced} {batch : Batch} {es₁ es₂ : List Event}
    (h : TraceRecorded key s batch es₁ es₂ t) (hinv : TraceInv s) (hwf : WellFormed s)
    (hdict : ∀ fn, Defines batch.dict fn → s.db.dict.HasKey fn)
    (hcalls : ∀ c ∈ batch.calls, CallIdAlreadyKnown s.db c.callId) :
    t.db = { s.db with traceMeta := some (.mirror key batch.metaBlock) } ∧
      outcomeOf (es₁ ++ es₂) t =
        { redeliveredSkipped := batch.calls.length
          pendingTotal := s.db.pendingCalls.rows.length } := by
  have hnew : newCalls (prepareTrace key s.db batch) batch.calls = [] := by
    rw [TraceRecorded.newCalls_prepareTrace]
    exact newCalls_eq_nil_iff.mpr hcalls
  obtain ⟨rfl, hrun⟩ := h.aggregated.of_newCalls_eq_nil hnew
  obtain rfl := eq_nil_of_saturated hrun h.aggregated.isResolve
    (hinv.saturated_prepareTrace key batch hdict)
  obtain rfl := Run.nil_iff.mp hrun
  have hprep : prepareTrace key s.db batch =
      { s.db with traceMeta := some (.mirror key batch.metaBlock) } := by
    rw [hwf.prepareTrace_eq key batch, foldl_insertDict_of_known]
    exact fun e he hk => hdict _ ⟨e, he, hk, rfl⟩
  refine ⟨hprep, ?_⟩
  simp only [outcomeOf, List.append_nil, foldl_record_skips, List.length_reverse,
    pendingCalls_prepareTrace, Nat.zero_add]

/-- A batch that was already recorded can be recorded again at any later point. All that moves is
the number of batches, the time of the last one and the columns that mirror its meta block. -/
theorem redelivery_of_run [Engine] {key : TraceKey} {s t : Storage} {as : List Attempt}
    {batch : Batch} (hempty : s.traces key = none) (hrun : Run Attempt.Step s as t)
    (honly : OnlyRecorded key as) (hbatch : batch ∈ deliveries key as) (now : Int64) :
    ∃ t' db row,
      recordBatch t key batch now = (t', .ok
        { redeliveredSkipped := batch.calls.length
          pendingTotal := db.pendingCalls.rows.length }) ∧
      t.traces key = some db ∧
      t'.traces key = some { db with traceMeta := some (.mirror key batch.metaBlock) } ∧
      t.index.find? key = some row ∧
      t'.index.find? key = some { row with
        batchCount := row.batchCount + 1
        lastBatchAtNs := now
        droppedRecords := batch.metaBlock.droppedRecords.toInt64 } ∧
      t'.raw = t.raw ∧ ∀ k, k ≠ key → SameTrace k t t' := by
  obtain ⟨u, hu⟩ := delivered_of_run hempty hrun honly
  have hne : deliveries key as ≠ [] := List.ne_nil_of_mem hbatch
  have hconn := hu.ensureTraceConn hne
  obtain ⟨row, hrow, hstate, hpending⟩ := hu.row hne
  obtain ⟨es₁, es₂, u', heq, htr⟩ := recordTrace_spec hu.inv key batch
  obtain ⟨hdb, hout⟩ := htr.of_known hu.inv (hu.wellFormed hne).1
    (fun fn hfn => (hu.dict fn).mpr (Or.inr ⟨batch, hbatch, hfn⟩))
    (fun c hc => (hu.known _).mpr (isSome_recordedVersion hbatch hc))
  rw [hdb, hout] at heq
  have hrec := recordBatch_eq (s := t) (by rw [hconn]; exact heq) now .none
  simp only [if_pos (hu.sapi batch hbatch)] at hrec
  refine ⟨_, u.db, row, hrec, ?_, traces_setTrace _, hrow, ?_, rfl, fun k hk => ?_⟩
  · rw [hu.traces, if_neg hne]
  · rw [find?_upsert_traceRow, hrow]
    simp [TraceRow.upserted, TraceRow.addBatch, hstate, hpending]
  · have := sameTrace_recordBatch (s := t) hk batch now .none
    rwa [hrec] at this

/-- A batch with a parked call, recorded twice. -/
theorem redelivery_of_run_parked :
    letI := Engine.stored
    ∃ as t batch t' db, Run Attempt.Step .empty as t ∧ OnlyRecorded default as ∧
      batch ∈ deliveries default as ∧ t.traces default = some db ∧
      db.pendingCalls.HasKey 3 ∧
      recordBatch t default batch 5 = (t', .ok { redeliveredSkipped := 1, pendingTotal := 1 }) ∧
      t'.traces default = some { db with traceMeta := some (.mirror default batch.metaBlock) } := by
  let _ := Engine.stored
  let batch : Batch :=
    { metaBlock := { (default : Meta) with sapi := "cli" }
      dict := []
      calls := [{ (default : Call) with callId := 3, fnId := 7 }] }
  let op : Op := .record default batch 0 .none
  have hrun : Run Attempt.Step .empty [⟨op, true⟩] (op.exec .empty).1 := .single rfl
  have honly : OnlyRecorded default [⟨op, true⟩] := fun a ha _ => by
    rw [List.mem_singleton.mp ha]
    exact Or.inl ⟨trivial, rfl⟩
  have hbatch : batch ∈ deliveries default [⟨op, true⟩] := List.mem_singleton.mpr rfl
  obtain ⟨t', db, row, hrec, hdb, hdb', -⟩ := redelivery_of_run rfl hrun honly hbatch 5
  have hparked : ∃ db', (op.exec .empty).1.traces default = some db' ∧
      db'.pendingCalls.HasKey 3 ∧ db'.pendingCalls.rows.length = 1 := ⟨_, rfl, by decide, rfl⟩
  obtain ⟨db', hdb'', hkey, hlen⟩ := hparked
  obtain rfl : db' = db := Option.some.inj (hdb''.symm.trans hdb)
  rw [hlen] at hrec
  exact ⟨_, _, batch, t', db', hrun, honly, hbatch, hdb, hkey, hrec, hdb'⟩

end PhpTreeViz
