import Mathlib.Data.Set.Card
import PhpTreeViz.Storage.Consistent
import PhpTreeViz.Storage.Mirror

/-!
# Summaries of traces

What the index row of a trace says when nothing but batches has happened to the trace: who made it,
according to the first batch, how many calls there are, each counted once, how long they took, how
many of them are not in the tree yet, and how many of the others end before they begin.
-/

namespace PhpTreeViz

open Core

/-! ### Plain calls -/

/-- Function 0 stands for the root of the tree. -/
def Known (bs : List Batch) (fnId : UInt32) : Prop := fnId = 0 ∨ ∃ b ∈ bs, Defines b.dict fnId

/-- The function of the call is known, and that of each of its callers up to a top-level call. -/
inductive Connected (bs : List Batch) : UInt32 → Prop where
  | top {id : UInt32} {c : Call} :
      recordedVersion bs id = some c → Known bs c.fnId → c.parent = 0 → Connected bs id
  | nested {id : UInt32} {c : Call} :
      recordedVersion bs id = some c → Known bs c.fnId → Connected bs c.parent → Connected bs id

lemma connected_iff {bs : List Batch} (id : UInt32) : Connected bs id ↔
    ∃ c, recordedVersion bs id = some c ∧ Known bs c.fnId ∧
      (c.parent = 0 ∨ Connected bs c.parent) := by
  constructor
  · intro h
    cases h with
    | top hc hknown h0         => exact ⟨_, hc, hknown, .inl h0⟩
    | nested hc hknown hparent => exact ⟨_, hc, hknown, .inr hparent⟩
  · rintro ⟨c, hc, hknown, h0 | hparent⟩
    · exact .top hc hknown h0
    · exact .nested hc hknown hparent

/-- The mapped calls are the connected ones. -/
lemma hasKey_iff_connected {db : TraceDb} {bs : List Batch}
    (h : LeastResolution db (recordedVersion bs))
    (hdict : ∀ fnId, db.dict.HasKey fnId ↔ Known bs fnId) (id : UInt32) :
    db.callToNode.HasKey id ↔ Connected bs id := by
  have hfixed := h.mapped.1
  constructor
  · intro hid
    have hset : {id | Connected bs id} ∈ {S : Set UInt32 | ∀ id, id ∈ S ↔
        ∃ c, recordedVersion bs id = some c ∧ db.dict.HasKey c.fnId ∧
          (c.parent = 0 ∨ c.parent ∈ S)} := by
      intro id
      simp only [hdict]
      exact connected_iff id
    exact h.mapped.2 hset hid
  · intro hid
    induction hid with
    | top hc hknown h0 => exact (hfixed _).mpr ⟨_, hc, (hdict _).mpr hknown, .inl h0⟩
    | nested hc hknown _ ih => exact (hfixed _).mpr ⟨_, hc, (hdict _).mpr hknown, .inr ih⟩

section delivered

variable {key : TraceKey} {s : Storage} {bs : List Batch} {u : Traced}

lemma Delivered.leastResolution (h : Delivered key s bs u) (hne : bs ≠ []) :
    LeastResolution u.db (recordedVersion bs) := by
  obtain ⟨hwf, hsat⟩ := h.wellFormed hne
  have hleast := hwf.leastResolution hsat fun id => by rw [h.known, h.version]
  rwa [show u.version = recordedVersion bs from funext h.version] at hleast

lemma Delivered.hasKey_iff_connected (h : Delivered key s bs u) (hne : bs ≠ []) (id : UInt32) :
    u.db.callToNode.HasKey id ↔ Connected bs id := by
  refine PhpTreeViz.hasKey_iff_connected (h.leastResolution hne) (fun fnId => ?_) id
  rw [h.dict, Known]
  simp only [hne, ne_eq, not_false_eq_true, true_and]

end delivered

/-! ### The summary -/

section row

variable [Engine] {key : TraceKey} {s t : Storage} {as : List Attempt}

/-- The columns that come from the meta blocks -/
structure FromMeta (bs : List Batch) (row : Option TraceRow) : Prop where
  isSome : row.isSome = true ↔ bs ≠ []
  first : ∀ r ∈ row, ∀ b ∈ bs.head?, Repeats r b.metaBlock
  last : ∀ r ∈ row, ∀ b ∈ bs.getLast?, r.droppedRecords = b.metaBlock.droppedRecords.toInt64
  state : ∀ r ∈ row, r.state = .active
  batchCount : row.elim 0 TraceRow.batchCount = bs.length

omit [Engine] in
lemma FromMeta.record {bs : List Batch} {row : Option TraceRow} (h : FromMeta bs row)
    (batch : Batch) (now : Int64) (o : AggregateOutcome) :
    FromMeta (bs ++ [batch]) (some (.upserted row key batch.metaBlock now o)) := by
  cases row with
  | none =>
    have hnil : bs = [] := by
      by_contra hne
      have := h.isSome.mpr hne
      cases this
    subst hnil
    refine ⟨by simp, ?_, ?_, ?_, rfl⟩
    · rintro r ⟨⟩ b ⟨⟩
      exact ⟨rfl, rfl, rfl, rfl, rfl, rfl, rfl⟩
    · rintro r ⟨⟩ b ⟨⟩
      rfl
    · rintro r ⟨⟩
      rfl
  | some r =>
    have hne : bs ≠ [] := h.isSome.mp rfl
    refine ⟨by simp, ?_, ?_, ?_, ?_⟩
    · rintro r' ⟨⟩ b hb
      rw [List.head?_append_of_ne_nil _ hne] at hb
      obtain ⟨htrace, hhost, hpid, hstart, hsapi, huri, hcpu⟩ := h.first r rfl b hb
      exact ⟨htrace, hhost, hpid, hstart, hsapi, huri, hcpu⟩
    · rintro r' ⟨⟩ b hb
      rw [List.getLast?_concat] at hb
      obtain rfl := Option.some.inj hb
      rfl
    · rintro r' ⟨⟩
      rfl
    · have hold := h.batchCount
      simp only [Option.elim_some] at hold
      simp [TraceRow.upserted, TraceRow.addBatch, hold]

end row

/-! ### The counters -/

lemma sum_wall_nonneg (calls : List Call) : 0 ≤ (calls.map (·.wall.toInt)).sum := by
  apply List.sum_nonneg
  intro n hn
  obtain ⟨c, -, rfl⟩ := List.mem_map.mp hn
  exact c.toInt_wall_nonneg

/-- What the counters of the row say about the calls recorded so far -/
structure Counts (row : Option TraceRow) (s : Traced) : Prop where
  nodup : (s.versions.map Call.callId).Nodup
  known : ∀ c ∈ s.versions, CallIdAlreadyKnown s.db c.callId
  anomalies : ∀ a ∈ s.db.anomalies, a.kind = .invertedTime
  callCount : row.elim 0 TraceRow.callCount = s.versions.length
  totalWallNs : (s.versions.map (·.wall.toInt)).sum < 2 ^ 63 →
    (row.elim (.integer 0) TraceRow.totalWallNs).toInt? =
      some (s.versions.map (·.wall.toInt)).sum
  anomalyCount : row.elim 0 TraceRow.anomalyCount = s.db.anomalies.length

namespace Counts

variable {row : Option TraceRow} {key : TraceKey} {s t : Traced} {batch : Batch}
  {es₁ es₂ : List Event}

lemma empty : Counts none ⟨.fresh, [], []⟩ where
  nodup := List.nodup_nil
  known := nofun
  anomalies := nofun
  callCount := rfl
  totalWallNs _ := rfl
  anomalyCount := rfl

lemma record (h : Counts row s) (hrec : TraceRecorded key s batch es₁ es₂ t) (now : Int64) :
    Counts (some (.upserted row key batch.metaBlock now (outcomeOf (es₁ ++ es₂) t))) t := by
  obtain ⟨new, hnew⟩ := appended_of_run hrec.aggregated.run
  refine
    { nodup := ?_
      known := fun c hc => ?_
      anomalies := fun a ha => ?_
      callCount := ?_
      totalWallNs := fun hlt => ?_
      anomalyCount := ?_ }
  · rw [hrec.versions, List.map_append]
    refine nodup_newCalls.append h.nodup fun id hid hid' => ?_
    obtain ⟨c, hc, rfl⟩ := List.mem_map.mp hid
    obtain ⟨d, hd, heq⟩ := List.mem_map.mp hid'
    exact not_known_of_mem_newCalls hc (heq ▸ h.known d hd)
  · rw [hrec.versions] at hc
    rw [hrec.known]
    exact (List.mem_append.mp hc).symm.imp (h.known c) List.mem_map_of_mem
  · rw [hnew.anomalies] at ha
    rcases List.mem_append.mp ha with ha | ha
    · exact h.anomalies a ha
    · obtain ⟨f, -, rfl⟩ := List.mem_map.mp ha
      rfl
  · rw [Option.elim_some, TraceRow.callCount_upserted, h.callCount, hrec.callCountDelta_eq,
      hrec.versions, List.length_append, Nat.add_comm]
  · -- neither the old nor the new calls alone reach the bound
    rw [hrec.versions, List.map_append, List.sum_append] at hlt ⊢
    have hold := sum_wall_nonneg s.versions
    have hbatch := sum_wall_nonneg (newCalls s.db batch.calls)
    have hdelta := totalWallNsDelta_eq hrec.aggregated.run hrec.versions (by omega)
    rw [Option.elim_some, TraceRow.totalWallNs_upserted, Int.add_comm]
    refine NumCell.toInt?_add (h.totalWallNs (by omega)) ?_ ⟨by omega, by omega⟩
    exact (NumCell.toInt?_integer _).trans (congrArg some hdelta)
  · rw [Option.elim_some, TraceRow.anomalyCount_upserted, h.anomalyCount]
    exact hnew.length_anomalies.symm

end Counts

/-! ### Every run -/

section runs

variable {key : TraceKey} {s : Storage} {bs : List Batch} {row : Option TraceRow} {u : Traced}

namespace Delivered

/-- Every folded call that ends before it begins has one anomaly. -/
lemma length_anomalies (h : Delivered key s bs u) (hne : bs ≠ []) (hcounts : Counts row u) :
    u.db.anomalies.length =
      {id | Connected bs id ∧ ∃ c, recordedVersion bs id = some c ∧ c.Inverted}.ncard := by
  obtain ⟨hwf, -⟩ := h.wellFormed hne
  have hall : u.db.anomalies.filter (·.kind = .invertedTime) = u.db.anomalies :=
    List.filter_eq_self.mpr fun a ha => decide_eq_true (hcounts.anomalies a ha)
  rw [← hall, hwf.inverted, List.length_map, ← List.length_map fun f => f.call.callId,
    ← List.toFinset_card_of_nodup (hwf.nodup_log.sublist (List.filter_sublist.map _)),
    ← Set.ncard_coe_finset]
  congr 1
  ext id
  simp only [List.coe_toFinset, List.mem_map, List.mem_filter, decide_eq_true_eq,
    Set.mem_ofPred_eq, ← h.hasKey_iff_connected hne, hwf.hasKey_iff]
  constructor
  · rintro ⟨f, ⟨hf, hinv⟩, rfl⟩
    obtain ⟨d, hd⟩ := hwf.exists_version hf
    exact ⟨⟨f, hf, rfl⟩, _, (h.version _).symm.trans hd, hinv⟩
  · rintro ⟨⟨f, hf, rfl⟩, c, hc, hinv⟩
    obtain ⟨d, hd⟩ := hwf.exists_version hf
    obtain rfl := Option.some.inj (hc.symm.trans ((h.version _).symm.trans hd))
    exact ⟨f, ⟨hf, hinv⟩, rfl⟩

end Delivered

variable [Engine] {as : List Attempt}

end runs

end PhpTreeViz
