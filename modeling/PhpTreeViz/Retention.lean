import PhpTreeViz.Core.Sweep
import PhpTreeViz.Storage.Runs

/-!
# The retention sweeper

One tick deletes every trace that started before the cutoff, `now` minus the retention period. The
period is a product of 64-bit integers that wraps around for more than 106751 days. The cutoff is
then wrong, whatever the time is.
-/

namespace PhpTreeViz

open Core

namespace Retention

/-- `(retention_days as i64) * 86_400 * 1_000_000_000` -/
def retentionNanos (retentionDays : UInt32) : Int64 :=
  Int64.ofNat retentionDays.toNat * 86400 * 1000000000

/-- What fails during a tick: the query, and the delete of each trace. -/
structure Faults where
  list : Bool := false
  delete : TraceKey → DeleteFault := fun _ => .none

/-- One iteration of the loop over the expired traces. -/
def deleteExpired [Engine] (fault : TraceKey → DeleteFault) (s : Storage) (key : TraceKey) :
    Option (Storage × Except StorageError DeleteOutcome) :=
  some (deleteTrace s key (fault key))

/-- One tick at the time `nowNs`, and what came of each expired trace. -/
def runOneTick [Engine] (s : Storage) (nowNs retentionNanos : Int64) (faults : Faults := {}) :
    Storage × List (TraceKey × Except StorageError DeleteOutcome) :=
  let cutoffNs := satSub nowNs retentionNanos
  if faults.list then (s, [])
  else sweep (deleteExpired faults.delete) (listExpiredTraces s cutoffNs) s

/-! ### The sweep -/

section sweep

variable [Engine] {s : Storage} {cutoff : Int64}

lemma mem_listExpiredTraces {key : TraceKey} : key ∈ listExpiredTraces s cutoff ↔
    ∃ row, s.index.find? key = some row ∧ row.startTimeNs < cutoff := by
  simp only [listExpiredTraces, List.mem_map, List.mem_filter, mem_scan, decide_eq_true_eq]
  constructor
  · rintro ⟨row, ⟨hrow, hstart⟩, rfl⟩
    exact ⟨row, Table.find?_of_mem hrow, hstart⟩
  · rintro ⟨row, hrow, hstart⟩
    obtain ⟨hmem, hkey⟩ := Table.find?_eq_some_iff.mp hrow
    exact ⟨row, ⟨hmem, hstart⟩, hkey⟩

lemma nodup_listExpiredTraces : (listExpiredTraces s cutoff).Nodup := by
  have hscan : ((scan s.index.rows).map TraceRow.traceKey).Nodup :=
    ((ScanOrder.scan_perm s.index.rows).map _).nodup_iff.mpr s.index.nodup
  exact hscan.sublist (List.filter_sublist.map _)

lemma framed_deleteExpired (fault : TraceKey → DeleteFault) :
    Framed id SameTrace (deleteExpired fault) where
  refl := SameTrace.refl
  trans _ _ _ _ := SameTrace.trans
  op s key t r k h hk := by
    obtain ⟨rfl, -⟩ := Prod.mk.inj (Option.some.inj h)
    exact sameTrace_deleteTrace hk _

end sweep

/-- A tick is a run of delete attempts on the expired traces. -/
lemma run_of_runOneTick [Engine] (s : Storage) (nowNs retentionNanos : Int64) (faults : Faults) :
    ∃ as, Run Attempt.Step s as (runOneTick s nowNs retentionNanos faults).1 ∧
      ∀ a ∈ as, ∃ key ∈ listExpiredTraces s (satSub nowNs retentionNanos),
        a.op = .delete key (faults.delete key) := by
  rw [runOneTick]
  split_ifs
  · exact ⟨[], .nil s, by simp⟩
  · refine ⟨_, run_of_sweep (fun key r => ⟨.delete key (faults.delete key), r.isOk⟩) ?_ _ _, ?_⟩
    · intro s key t r h
      obtain ⟨rfl, rfl⟩ := Prod.mk.inj (Option.some.inj h)
      rfl
    · intro a ha
      obtain ⟨p, hp, rfl⟩ := List.mem_map.mp ha
      exact ⟨p.1, mem_of_mem_sweep hp, rfl⟩

/-- The trace started more than the retention period before `nowNs`, over the integers. -/
def Expired (s : Storage) (nowNs : Int64) (retentionDays : UInt32) (key : TraceKey) : Prop :=
  ∃ row, s.index.find? key = some row ∧
    row.startTimeNs.toInt < nowNs.toInt - retentionDays.toNat * 86400 * 10 ^ 9

/-- Whatever the index holds and whichever deletes fail, a sweep leaves the other traces alone and
attempts to delete every expired one. -/
def PrunesExpired [Engine] (retentionDays : UInt32) (nowNs : Int64) : Prop :=
  ∀ s faults, faults.list = false →
    (∀ key, ¬ Expired s nowNs retentionDays key →
      SameTrace key s (runOneTick s nowNs (retentionNanos retentionDays) faults).1) ∧
    ∀ key, Expired s nowNs retentionDays key → ∃ u v r,
      SameTrace key s u ∧ deleteTrace u key (faults.delete key) = (v, r) ∧
        SameTrace key v (runOneTick s nowNs (retentionNanos retentionDays) faults).1 ∧
        (key, r) ∈ (runOneTick s nowNs (retentionNanos retentionDays) faults).2

/-- The sweep is right when its cutoff tells the expired traces from the others. -/
lemma prunesExpired_of_cutoff [Engine] {retentionDays : UInt32} {nowNs : Int64}
    (h : ∀ start : Int64, start < satSub nowNs (retentionNanos retentionDays) ↔
      start.toInt < nowNs.toInt - retentionDays.toNat * 86400 * 10 ^ 9) :
    PrunesExpired retentionDays nowNs := by
  intro s faults hlist
  have hmem : ∀ key, key ∈ listExpiredTraces s (satSub nowNs (retentionNanos retentionDays)) ↔
      Expired s nowNs retentionDays key := by
    intro key
    simp only [mem_listExpiredTraces, h, Expired]
  have hframed := framed_deleteExpired faults.delete
  rw [runOneTick, if_neg (by simp [hlist])]
  refine ⟨fun key hkey => ?_, fun key hkey => ?_⟩
  · refine hframed.sweep_of_not_mem ?_ s
    rw [List.map_id, hmem]
    exact hkey
  · obtain ⟨u, hu, ⟨hnone, -⟩ | ⟨v, r, hsome, hlog, hv⟩⟩ := hframed.sweep_of_mem
      (by rw [List.map_id]; exact nodup_listExpiredTraces) ((hmem key).mpr hkey) s
    · cases hnone
    · exact ⟨u, v, r, hu, Option.some.inj hsome, hv, (hlog r).mpr rfl⟩

/-! ### The cutoff -/

lemma toInt_retentionNanos (retentionDays : UInt32) : (retentionNanos retentionDays).toInt =
    Int.bmod (retentionDays.toNat * 86400 * 10 ^ 9) (2 ^ 64) := by
  have hdays : (Int64.ofNat retentionDays.toNat).toInt = retentionDays.toNat := by
    have := retentionDays.toNat_lt
    exact Int64.toInt_ofNat_of_lt (by omega)
  rw [retentionNanos, Int64.toInt_mul, Int64.toInt_mul, hdays]
  simp

/-- A period of more than 106751 days is shortened by a multiple of `2 ^ 64` nanoseconds. -/
lemma exists_toInt_retentionNanos (retentionDays : UInt32) : ∃ k : ℤ, 0 ≤ k ∧
    (retentionNanos retentionDays).toInt = retentionDays.toNat * 86400 * 10 ^ 9 - k * 2 ^ 64 ∧
    (k = 0 ↔ retentionDays.toNat ≤ 106751) := by
  have hdiv := Int.bdiv_add_bmod (retentionDays.toNat * 86400 * 10 ^ 9) (2 ^ 64)
  have hrange := inI64_toInt (retentionNanos retentionDays)
  obtain ⟨hlo, hhi⟩ := hrange
  have heq := toInt_retentionNanos retentionDays
  refine ⟨Int.bdiv (retentionDays.toNat * 86400 * 10 ^ 9) (2 ^ 64), ?_, ?_, ?_⟩
  · push_cast at hdiv heq ⊢
    omega
  · push_cast at hdiv heq ⊢
    omega
  · push_cast at hdiv heq ⊢
    omega

/-- The cutoff is right for up to 106751 days and for no more. -/
lemma cutoff_iff {nowNs : Int64} (hnow : 0 ≤ nowNs) (retentionDays : UInt32) :
    (∀ start : Int64, start < satSub nowNs (retentionNanos retentionDays) ↔
      start.toInt < nowNs.toInt - retentionDays.toNat * 86400 * 10 ^ 9) ↔
    retentionDays.toNat ≤ 106751 := by
  obtain ⟨k, hk, heq, hzero⟩ := exists_toInt_retentionNanos retentionDays
  have hcutoff := toInt_satSub nowNs (retentionNanos retentionDays)
  have hnow0 : 0 ≤ nowNs.toInt := by simpa using Int64.le_iff_toInt_le.mp hnow
  obtain ⟨-, hnow1⟩ := inI64_toInt nowNs
  obtain ⟨hlo, hhi⟩ := inI64_toInt (retentionNanos retentionDays)
  constructor
  · intro h
    by_contra hdays
    -- the first instant that is not expired, or the first there is
    have hstart : (Int64.ofInt (max (-2 ^ 63)
        (nowNs.toInt - retentionDays.toNat * 86400 * 10 ^ 9))).toInt =
        max (-2 ^ 63) (nowNs.toInt - retentionDays.toNat * 86400 * 10 ^ 9) :=
      InI64.toInt_ofInt ⟨by omega, by omega⟩
    have hiff := h (Int64.ofInt (max (-2 ^ 63)
      (nowNs.toInt - retentionDays.toNat * 86400 * 10 ^ 9)))
    rw [Int64.lt_iff_toInt_lt, hstart, hcutoff] at hiff
    omega
  · intro hdays start
    rw [Int64.lt_iff_toInt_lt, hcutoff]
    obtain rfl := hzero.mpr hdays
    omega

/-! ### Every sweep -/

/-- A storage whose index has one row, of a trace that started at `start`. -/
def oneTrace (start : Int64) : Storage :=
  { Storage.empty with
    index := Table.empty.insertOrIgnore
      (.ofBatch default { (default : Meta) with startTime := start } 0 {}) }

lemma find?_oneTrace (start : Int64) : ∃ row, (oneTrace start).index.find? default = some row ∧
    row.startTimeNs = start :=
  ⟨_, Table.find?_of_mem (Table.mem_insertOrIgnore.mpr
    (Or.inr ⟨rfl, Table.not_hasKey_empty _⟩)), rfl⟩

/-- A sweep that is right for every index has the right cutoff. -/
lemma cutoff_of_prunesExpired [Engine] {retentionDays : UInt32} {nowNs : Int64}
    (h : PrunesExpired retentionDays nowNs) (start : Int64) :
    start < satSub nowNs (retentionNanos retentionDays) ↔
      start.toInt < nowNs.toInt - retentionDays.toNat * 86400 * 10 ^ 9 := by
  obtain ⟨row, hrow, rfl⟩ := find?_oneTrace start
  obtain ⟨hkeeps, hdeletes⟩ := h (oneTrace row.startTimeNs) {} rfl
  have hunique : ∀ row', (oneTrace row.startTimeNs).index.find? default = some row' → row' = row :=
    fun row' hrow' => Option.some.inj (hrow'.symm.trans hrow)
  constructor
  · intro hlt
    by_contra hnot
    have hsame := hkeeps default fun ⟨row', hrow', hexp⟩ => hnot (hunique row' hrow' ▸ hexp)
    obtain ⟨u, hu, ⟨hnone, -⟩ | ⟨v, r, hsome, -, hv⟩⟩ :=
      (framed_deleteExpired fun _ => .none).sweep_of_mem
        (by rw [List.map_id]; exact nodup_listExpiredTraces)
        (mem_listExpiredTraces.mpr ⟨row, hrow, hlt⟩) (oneTrace row.startTimeNs)
    · cases hnone
    · obtain ⟨rfl, -⟩ := Prod.mk.inj (Option.some.inj hsome)
      have hgone := hv.index.trans (Table.find?_erase_self (t := u.index))
      have hkept := hsame.index.trans hrow
      rw [runOneTick, if_neg (by simp)] at hkept
      cases hkept.symm.trans hgone
  · intro hexp
    obtain ⟨u, v, r, -, -, -, hlog⟩ := hdeletes default ⟨row, hrow, hexp⟩
    rw [runOneTick, if_neg (by simp)] at hlog
    obtain ⟨row', hrow', hlt⟩ := mem_listExpiredTraces.mp (mem_of_mem_sweep hlog)
    rwa [hunique row' hrow'] at hlt

/-- Retention periods of up to 106751 days are kept to, longer ones at no time. -/
theorem prunesExpired_iff [Engine] {nowNs : Int64} (hnow : 0 ≤ nowNs) (retentionDays : UInt32) :
    PrunesExpired retentionDays nowNs ↔ retentionDays.toNat ≤ 106751 := by
  rw [← cutoff_iff hnow retentionDays]
  exact ⟨cutoff_of_prunesExpired, prunesExpired_of_cutoff⟩

/-- Thirty days. -/
theorem prunesExpired_iff_thirty_days :
    letI := Engine.stored
    PrunesExpired 30 1700000000000000000 := by
  let _ := Engine.stored
  exact (prunesExpired_iff (by decide) 30).mpr (by decide)

/-- With 106752 days, every trace counts as expired, also one that starts now. -/
theorem not_prunesExpired :
    letI := Engine.stored
    ¬ ∀ retentionDays nowNs, 1 ≤ retentionDays → 0 ≤ nowNs → PrunesExpired retentionDays nowNs := by
  let _ := Engine.stored
  intro h
  have hcutoff := cutoff_of_prunesExpired (h 106752 1700000000000000000 (by decide) (by decide))
    1700000000000000000
  revert hcutoff
  decide

end Retention

end PhpTreeViz
