import PhpTreeViz.Core.LockMap
import PhpTreeViz.Storage.Runs
import Mathlib.Data.Finset.Lattice.Fold
import Mathlib.Order.Lattice.Nat

/-!
# Concurrent commits

Ingest handlers commit to the raw directory of their trace under the mutex that `lock_for` hands
out. `commit_partial` scans the directory entry by entry and takes the next number; `rename` would
replace an entry of that name without a word. The cleanup of raw files takes no mutex and may remove
entries, or the directory, at any time.
-/

namespace PhpTreeViz

open Core

namespace Commit

/-! ### Names -/

/-- The name of a directory entry, which need not be UTF-8. -/
inductive FileName where
  | utf8 (s : String)
  | bytes (bs : List UInt8)
  deriving DecidableEq

/-- `OsStr::to_str` -/
def FileName.toStr : FileName → Option String
  | .utf8 s  => some s
  | .bytes _ => none

def FileName.number (name : FileName) : Option ℕ := name.toStr.bind parseBatchNumber

/-- The body of the loop in `next_batch_number`. -/
def bumpMaxSeen (maxSeen : ℕ) (name : FileName) : ℕ :=
  match name.number with
  | none   => maxSeen
  | some n => if n > maxSeen then n else maxSeen

/-- `batch-NNNN.msgpack` -/
def target (n : ℕ) : FileName := .utf8 (batchFileName n)

/-- The highest number of an entry, 0 without any. -/
def maxNumber (names : Finset FileName) : ℕ := names.sup fun name => name.number.getD 0

lemma bumpMaxSeen_eq (maxSeen : ℕ) (name : FileName) :
    bumpMaxSeen maxSeen name = max maxSeen (name.number.getD 0) := by
  rw [bumpMaxSeen]
  cases name.number with
  | none => simp
  | some n =>
    simp only [Option.getD_some]
    split_ifs with h
    · exact (max_eq_right h.le).symm
    · exact (max_eq_left (not_lt.mp h)).symm

lemma number_target {n : ℕ} (h : n ≤ batchMax) : (target n).number = some n := by
  simp only [FileName.number, target, FileName.toStr, Option.bind_some]
  exact parseBatchNumber_batchFileName h

lemma le_maxNumber_of_mem {names : Finset FileName} {n : ℕ} (h : n ≤ batchMax)
    (hmem : target n ∈ names) : n ≤ maxNumber names := by
  have hle := Finset.le_sup (f := fun name : FileName => name.number.getD 0) hmem
  rwa [number_target h] at hle

/-! ### One commit -/

inductive CommitError where
  | traceFull
  | tracesDir
  | rename
  | fsync
  deriving DecidableEq

/-- Where `commit_partial` is. -/
inductive Stage where
  | ensure
  | read
  | scan (rest : List FileName) (maxSeen : ℕ)
  | rename (next : ℕ)
  | sync (next : ℕ)
  | done (r : Except CommitError ℕ)

inductive CommitEvent where
  | ensure
  | read
  | next
  | full
  | choose
  | rename (next : ℕ)
  | sync
  | fail
  deriving DecidableEq

/-- The entries of a raw directory, if there is one. -/
abbrev Entries := Option (Finset FileName)

/-- One step of `commit_partial`. The directory is read in any order, and an entry that was removed
since it was opened may turn up or not. -/
inductive CommitStep : Entries → Stage → CommitEvent → Entries → Stage → Prop where
  | ensure {dir : Entries} : CommitStep dir .ensure .ensure (some (dir.getD ∅)) .read
  | ensureFail {dir : Entries} : CommitStep dir .ensure .fail dir (.done (.error .tracesDir))
  | ensureFailLate {dir : Entries} :
      CommitStep dir .ensure .fail (some (dir.getD ∅)) (.done (.error .tracesDir))
  | read {names : Finset FileName} {listing : List FileName} :
      listing.toFinset = names →
      CommitStep (some names) .read .read (some names) (.scan listing 0)
  | readFail {dir : Entries} : CommitStep dir .read .fail dir (.done (.error .tracesDir))
  | next {dir : Entries} {name : FileName} {rest : List FileName} {maxSeen : ℕ} :
      CommitStep dir (.scan (name :: rest) maxSeen) .next dir
        (.scan rest (bumpMaxSeen maxSeen name))
  | skip {dir : Entries} {name : FileName} {rest : List FileName} {maxSeen : ℕ} :
      name ∉ dir.getD ∅ →
      CommitStep dir (.scan (name :: rest) maxSeen) .next dir (.scan rest maxSeen)
  | nextFail {dir : Entries} {rest : List FileName} {maxSeen : ℕ} :
      CommitStep dir (.scan rest maxSeen) .fail dir (.done (.error .tracesDir))
  | full {dir : Entries} {maxSeen : ℕ} :
      maxSeen + 1 > batchMax →
      CommitStep dir (.scan [] maxSeen) .full dir (.done (.error .traceFull))
  | choose {dir : Entries} {maxSeen : ℕ} :
      ¬ maxSeen + 1 > batchMax →
      CommitStep dir (.scan [] maxSeen) .choose dir (.rename (maxSeen + 1))
  | rename {names : Finset FileName} {next : ℕ} :
      CommitStep (some names) (.rename next) (.rename next) (some (insert (target next) names))
        (.sync next)
  | renameFail {dir : Entries} {next : ℕ} :
      CommitStep dir (.rename next) .fail dir (.done (.error .rename))
  | sync {dir : Entries} {next : ℕ} : CommitStep dir (.sync next) .sync dir (.done (.ok next))
  | syncFail {dir : Entries} {next : ℕ} :
      CommitStep dir (.sync next) .fail dir (.done (.error .fsync))

def Stage.IsDone : Stage → Prop
  | .done _ => True
  | _       => False

/-- Entries are removed, or the directory with all of them. -/
def Removes (dir dir' : Entries) : Prop :=
  dir' = none ∨ ∃ names names', dir = some names ∧ dir' = some names' ∧ names' ⊆ names

/-- `commit_partial` as a critical section, with the changes `env` of the directory by others. -/
def commitPartialUnder (env : Entries → Entries → Prop) : Section Entries Stage CommitEvent where
  entry := .ensure
  step := CommitStep
  exit := Stage.IsDone
  env := env

/-- The ingest handlers, each with `lock_for`, `lock` and `commit_partial`, while raw files are
cleaned up. -/
abbrev Step {ι : Type*} [DecidableEq ι] :=
  LockMap.Step (ι := ι) (κ := TraceKey) (commitPartialUnder Removes)

abbrev State (ι : Type*) := LockMap.State ι TraceKey Entries Stage

abbrev Event (ι : Type*) := LockMap.Event ι TraceKey CommitEvent

/-! ### The number that is chosen -/

/-- What the commit knows of the directory: it has looked at every entry that is still there. -/
def Stage.Bounds (dir : Entries) : Stage → Prop
  | .scan rest maxSeen =>
    ∀ name ∈ dir.getD ∅, name.number.getD 0 ≤ maxSeen ∨ name ∈ rest
  | .rename next       => maxNumber (dir.getD ∅) < next ∧ next ≤ batchMax
  | _                  => True

lemma subset_of_removes {dir dir' : Entries} (h : Removes dir dir') :
    dir'.getD ∅ ⊆ dir.getD ∅ := by
  rcases h with rfl | ⟨names, names', rfl, rfl, hsub⟩
  · exact Finset.empty_subset _
  · exact hsub

lemma bounds_step {dir dir' : Entries} {st st' : Stage} {e : CommitEvent}
    (h : CommitStep dir st e dir' st') (hst : st.Bounds dir) : st'.Bounds dir' := by
  cases h with
  | read hlisting =>
    intro name hname
    rw [← hlisting, Option.getD_some, List.mem_toFinset] at hname
    exact .inr hname
  | next =>
    intro name hname
    rw [bumpMaxSeen_eq]
    rcases hst name hname with hle | hmem
    · exact .inl (le_max_of_le_left hle)
    · rcases List.mem_cons.mp hmem with rfl | hmem
      · exact .inl (le_max_right _ _)
      · exact .inr hmem
  | skip hgone =>
    intro name hname
    refine (hst name hname).imp_right fun hmem => ?_
    exact (List.mem_cons.mp hmem).resolve_left fun h => hgone (h ▸ hname)
  | choose hmax =>
    refine ⟨Nat.lt_succ_of_le (Finset.sup_le fun name hname => ?_), not_lt.mp hmax⟩
    exact (hst name hname).resolve_right List.not_mem_nil
  | ensure | ensureFail | ensureFailLate | readFail | nextFail | full | rename | renameFail | sync
  | syncFail => trivial

lemma bounds_removes {dir dir' : Entries} {st : Stage} (h : Removes dir dir')
    (hst : st.Bounds dir) : st.Bounds dir' := by
  have hsub := subset_of_removes h
  cases st with
  | scan => exact fun name hname => hst name (hsub hname)
  | rename => exact ⟨(Finset.sup_mono hsub).trans_lt hst.1, hst.2⟩
  | ensure | read | sync | done => trivial

def CommitEvent.renamed : CommitEvent → Option ℕ
  | .rename n => some n
  | _         => none

/-- The numbers that a commit has renamed files to when it is at a stage. -/
def Stage.Renamed : Stage → List ℕ → Prop
  | .sync n, ns | .done (.ok n), ns => ns = [n]
  | .done (.error .fsync), ns       => ∃ n, ns = [n]
  | _, ns                           => ns = []

section trace

variable {env : Entries → Entries → Prop} {dir : Entries} {st : Stage} {es : List CommitEvent}

lemma bounds_of_trace (henv : ∀ dir dir', env dir dir' → Removes dir dir')
    (h : (commitPartialUnder env).Trace es dir st) : st.Bounds dir := by
  induction h with
  | entry => trivial
  | step _ hstep ih => exact bounds_step hstep ih
  | env _ h ih => exact bounds_removes (henv _ _ h) ih

/-- A commit renames once if it gets that far, and not at all if the trace is full. -/
lemma renamed_of_trace (h : (commitPartialUnder env).Trace es dir st) :
    st.Renamed (es.filterMap CommitEvent.renamed) := by
  induction h with
  | entry => rfl
  | env _ _ ih => exact ih
  | step _ hstep ih =>
    rw [List.filterMap_append]
    cases hstep with
    | rename =>
      rw [show List.filterMap _ _ = [] from ih]
      rfl
    | syncFail =>
      rw [show List.filterMap _ _ = _ from ih]
      exact ⟨_, rfl⟩
    | ensure | ensureFail | ensureFailLate | read | readFail | next | skip | nextFail | full
    | choose | renameFail | sync =>
      rw [show List.filterMap _ _ = _ from ih]
      rfl

end trace

/-! ### Every run -/

section run

variable {ι : Type*} {k : TraceKey} {n : ℕ}

/-- The number that a step commits for the trace `k`. -/
def committed (k : TraceKey) : Event ι → Option ℕ
  | .work _ k' e => if k' = k then e.renamed else none
  | _            => none

/-- What a step commits is a rename. -/
lemma committed_eq_some {e : Event ι} (h : committed k e = some n) :
    ∃ i, e = .work i k (.rename n) := by
  cases e with
  | work i k' e =>
    rw [committed] at h
    split_ifs at h with hk
    cases e <;> cases h
    exact ⟨i, by rw [hk]⟩
  | request | lookup | insert | acquire | release | change => cases h

variable [DecidableEq ι] {dirs : TraceKey → Entries} {s t : State ι} {es : List (Event ι)} {i : ι}

/-- A rename creates the entry that it names, and the entries so far have lower numbers. -/
lemma rename_spec (hrun : Run Step (.start dirs) es s) (hstep : Step s (.work i k (.rename n)) t) :
    ∃ names, s.shared k = some names ∧ maxNumber names < n ∧ n ≤ batchMax ∧
      target n ∉ names ∧ t.shared k = some (insert (target n) names) := by
  cases hstep with
  | @work _ _ m st st' _ dir' hhold hsec =>
    have hbounds := bounds_of_trace (fun _ _ => id) (LockMap.trace_of_run hrun hhold)
    change CommitStep _ _ _ _ _ at hsec
    generalize hdir : s.shared k = dir at hsec hbounds
    cases hsec with
    | rename =>
      obtain ⟨hmax, hn⟩ := hbounds
      refine ⟨_, rfl, hmax, hn, fun hmem => ?_, Function.update_self ..⟩
      exact absurd (le_maxNumber_of_mem hn hmem) (not_le.mpr hmax)

/-- A step of a commit removes no entry. -/
lemma subset_of_commitStep {dir dir' : Entries} {st st' : Stage} {e : CommitEvent}
    (h : CommitStep dir st e dir' st') : dir.getD ∅ ⊆ dir'.getD ∅ := by
  cases h with
  | rename => exact Finset.subset_insert _ _
  | ensure | ensureFail | ensureFailLate | read | readFail | next | skip | nextFail | full | choose
  | renameFail | sync | syncFail => exact Finset.Subset.refl _

/-- Without a change from the outside the directory loses no entry. -/
lemma subset_of_step {e : Event ι} (hstep : Step s e t) (he : e ≠ .change k) :
    (s.shared k).getD ∅ ⊆ (t.shared k).getD ∅ := by
  cases hstep with
  | request | hit | miss | found | insert | acquire | release => exact Finset.Subset.refl _
  | @work i k' m st st' _ dir' _ hsec =>
    by_cases hk : k = k'
    · subst hk
      simpa [LockMap.State.setTask, LockMap.State.setShared] using subset_of_commitStep hsec
    · simp [LockMap.State.setTask, LockMap.State.setShared, hk]
  | @change k' dir' _ =>
    have hk : k ≠ k' := fun h => he (h ▸ rfl)
    simp [LockMap.State.setShared, hk]

/-- The numbers committed so far are in the directory, so the next one is higher. -/
lemma pairwise_committed {es' : List (Event ι)} {ns : List ℕ}
    (hrun : Run Step (.start dirs) es s) (hrun' : Run Step s es' t)
    (hes : ∀ e ∈ es', e ≠ .change k) (hns : ns.Pairwise (· < ·))
    (hmem : ∀ n ∈ ns, n ≤ batchMax ∧ target n ∈ (s.shared k).getD ∅) :
    (ns ++ es'.filterMap (committed k)).Pairwise (· < ·) := by
  induction hrun' generalizing es ns with
  | nil => simpa using hns
  | @cons s u t e es' hstep _ ih =>
    simp only [List.mem_cons, forall_eq_or_imp] at hes
    have hrun_u := hrun.append (.single hstep)
    have hsub := subset_of_step hstep hes.1
    cases hcom : committed k e with
    | none =>
      rw [List.filterMap_cons_none hcom]
      exact ih hrun_u hes.2 hns fun n hn => ⟨(hmem n hn).1, hsub (hmem n hn).2⟩
    | some n =>
      obtain ⟨i, rfl⟩ := committed_eq_some hcom
      obtain ⟨names, hs, hmax, hn, -, hu⟩ := rename_spec hrun hstep
      rw [List.filterMap_cons_some hcom, List.append_cons]
      refine ih hrun_u hes.2 ?_ ?_
      · refine List.pairwise_append.mpr ⟨hns, List.pairwise_singleton _ _, fun n' hn' _ hn'' => ?_⟩
        obtain rfl := List.mem_singleton.mp hn''
        obtain ⟨hle, hin⟩ := hmem n' hn'
        rw [hs] at hin
        exact (le_maxNumber_of_mem hle hin).trans_lt hmax
      · intro n' hn'
        rcases List.mem_append.mp hn' with hn' | hn'
        · exact ⟨(hmem n' hn').1, hsub (hmem n' hn').2⟩
        · obtain rfl := List.mem_singleton.mp hn'
          rw [hu]
          exact ⟨hn, Finset.mem_insert_self _ _⟩

/-- In every run of any number of handlers, whatever the directories held: the number that a commit
has chosen is free until it renames; without a cleanup in between, the numbers of a trace increase;
all handlers of a trace are handed one mutex and one of them at a time commits; a commit that finds
the trace full renames nothing. -/
theorem commits_of_run (hrun : Run Step (.start dirs) es s) :
    (∀ i k m n, s.tasks i = .holding k m (.rename n) → target n ∉ (s.shared k).getD ∅) ∧
    (∀ k es' t, Run Step s es' t → (∀ e ∈ es', e ≠ .change k) →
      (es'.filterMap (committed k)).Pairwise (· < ·)) ∧
    (∀ i k m, (s.tasks i).lock = some (k, m) → s.locks k = some m) ∧
    (∀ i j k m m' st st', s.tasks i = .holding k m st → s.tasks j = .holding k m' st' →
      m = m' ∧ i = j) ∧
    ∀ i k m, s.tasks i = .holding k m (.done (.error .traceFull)) →
      ∀ n, .rename n ∉ LockMap.sinceAcquire i es := by
  have hex := LockMap.exclusive_of_run hrun
  refine ⟨fun i k m n hi hmem => ?_, fun k es' t hrun' hes => ?_, hex.handed,
    fun i j k m m' st st' hi hj => hex.eq_of_holding hi hj, fun i k m hi n hmem => ?_⟩
  · obtain ⟨hmax, hn⟩ := bounds_of_trace (fun _ _ => id) (LockMap.trace_of_run hrun hi)
    exact absurd (le_maxNumber_of_mem hn hmem) (not_le.mpr hmax)
  · exact pairwise_committed hrun hrun' hes (List.Pairwise.nil (α := ℕ)) nofun
  · have hnone := renamed_of_trace (LockMap.trace_of_run hrun hi)
    have hnil : (LockMap.sinceAcquire i es).filterMap CommitEvent.renamed = [] := hnone
    exact absurd (List.filterMap_eq_nil_iff.mp hnil _ hmem) nofun

/-- Two handlers that both find no mutex for their trace. -/
theorem commits_of_run_race : ∃ (es : List (Event ℕ)) (s : State ℕ),
    Run Step (.start fun _ => some {.bytes [255]}) es s ∧
      es.filterMap (committed default) = [1, 2] ∧ s.locks default = some 0 ∧
      (es.filterMap (committed default)).Pairwise (· < ·) := by
  let other : FileName := .bytes [255]
  have hread₀ : CommitStep (some {other}) .read .read (some {other}) (.scan [other] 0) := .read rfl
  have hchoose₀ : CommitStep (some {other}) (.scan [] 0) .choose (some {other}) (.rename 1) :=
    .choose (by decide)
  have hrename₀ : CommitStep (some {other}) (.rename 1) (.rename 1) (some {target 1, other})
    (.sync 1) := .rename
  have hread₁ : CommitStep (some {target 1, other}) .read .read (some {target 1, other})
    (.scan [target 1, other] 0) := .read rfl
  have hnext₁ : CommitStep (some {target 1, other}) (.scan [target 1, other] 0) .next
      (some {target 1, other}) (.scan [other] 1) := by
    have h : CommitStep (some {target 1, other}) (.scan [target 1, other] 0) .next
      (some {target 1, other}) (.scan [other] (bumpMaxSeen 0 (target 1))) := .next
    rwa [bumpMaxSeen_eq, number_target (by decide)] at h
  have hchoose₁ : CommitStep (some {target 1, other}) (.scan [] 1) .choose
    (some {target 1, other}) (.rename 2) := .choose (by decide)
  have hrename₁ : CommitStep (some {target 1, other}) (.rename 2) (.rename 2)
    (some {target 2, target 1, other}) (.sync 2) := .rename
  obtain ⟨es, s, hrun, hcom, hlock, hes⟩ : ∃ (es : List (Event ℕ)) (s : State ℕ),
      Run Step (.start fun _ => some {.bytes [255]}) es s ∧
      es.filterMap (committed default) = [1, 2] ∧ (s.tasks 1).lock = some (default, 0) ∧
      ∀ e ∈ es, e ≠ .change default := by
    refine ⟨_, _,
      .cons (.request (i := 0) (k := default) rfl) <|
      .cons (.request (i := 1) (k := default) rfl) <|
      .cons (.miss (i := 0) rfl rfl) <| .cons (.miss (i := 1) rfl rfl) <|
      .cons (.insert (i := 0) rfl rfl) <| .cons (.found (i := 1) rfl rfl) <|
      .cons (.acquire (i := 0) rfl rfl) <| .cons (.work (i := 0) rfl .ensure) <|
      .cons (.work (i := 0) rfl (by exact hread₀)) <| .cons (.work (i := 0) rfl .next) <|
      .cons (.work (i := 0) rfl (by exact hchoose₀)) <|
      .cons (.work (i := 0) rfl (by exact hrename₀)) <|
      .cons (.work (i := 0) rfl .sync) <| .cons (.release (i := 0) rfl trivial) <|
      .cons (.acquire (i := 1) rfl rfl) <| .cons (.work (i := 1) rfl .ensure) <|
      .cons (.work (i := 1) rfl (by exact hread₁)) <|
      .cons (.work (i := 1) rfl (by exact hnext₁)) <|
      .cons (.work (i := 1) rfl .next) <| .cons (.work (i := 1) rfl (by exact hchoose₁)) <|
      .single (.work (i := 1) rfl (by exact hrename₁)), rfl, rfl, ?_⟩
    simp
  exact ⟨es, s, hrun, hcom, (commits_of_run hrun).2.2.1 1 default 0 hlock,
    (commits_of_run (.nil _)).2.1 default es s hrun hes⟩

end run

/-! ### Commits as single steps -/

/-- The names in a raw directory. -/
def names (dir : RawDir) : Finset FileName := (dir.rows.map (FileName.utf8 ·.name)).toFinset

/-- The directories hold the same entries, where one without entries need not be there. -/
def Shows (dirs : TraceKey → Entries) (raw : TraceKey → Option RawDir) : Prop :=
  ∀ k, (dirs k).getD ∅ = names ((raw k).getD .empty)

lemma utf8_mem_names {dir : RawDir} {name : String} :
    .utf8 name ∈ names dir ↔ dir.HasKey name := by
  simp [names, Table.HasKey]

lemma bytes_not_mem_names {dir : RawDir} {bs : List UInt8} : .bytes bs ∉ names dir := by
  simp [names]

lemma maxNumber_cons (name : FileName) (rest : List FileName) (maxSeen : ℕ) :
    max maxSeen (maxNumber (name :: rest).toFinset) =
      max (bumpMaxSeen maxSeen name) (maxNumber rest.toFinset) := by
  rw [maxNumber, List.toFinset_cons, Finset.sup_insert, bumpMaxSeen_eq, max_assoc]
  rfl

lemma foldl_bumpMaxSeen (listing : List FileName) (maxSeen : ℕ) :
    listing.foldl bumpMaxSeen maxSeen = max maxSeen (maxNumber listing.toFinset) := by
  induction listing generalizing maxSeen with
  | nil => simp [maxNumber]
  | cons name listing ih => rw [List.foldl_cons, ih, maxNumber_cons]

lemma foldl_max_eq_foldl_bumpMaxSeen (rows : List RawFile) (maxSeen : ℕ) :
    (rows.filterMap fun f => parseBatchNumber f.name).foldl max maxSeen =
      (rows.map (FileName.utf8 ·.name)).foldl bumpMaxSeen maxSeen := by
  induction rows generalizing maxSeen with
  | nil => rfl
  | cons f rows ih =>
    have hnumber : (FileName.utf8 f.name).number = parseBatchNumber f.name := rfl
    rw [List.map_cons, List.foldl_cons, bumpMaxSeen_eq, hnumber]
    cases hparse : parseBatchNumber f.name with
    | none => simpa [hparse] using ih maxSeen
    | some n => simpa [hparse] using ih (max maxSeen n)

lemma nextBatchNumber_eq (dir : RawDir) : nextBatchNumber dir = maxNumber (names dir) + 1 := by
  rw [nextBatchNumber, foldl_max_eq_foldl_bumpMaxSeen, foldl_bumpMaxSeen, names,
    max_eq_right (Nat.zero_le _)]

lemma names_rename {dir : RawDir} {n : ℕ} {bytes : List UInt8} :
    names (dir.rename (batchFileName n) bytes) = insert (target n) (names dir) := by
  ext name
  rw [Finset.mem_insert]
  cases name with
  | bytes bs => simp [bytes_not_mem_names, target]
  | utf8 name =>
    rw [utf8_mem_names, utf8_mem_names, target, FileName.utf8.injEq, RawDir.rename,
      Table.hasKey_upsert]
    exact or_comm

/-- What a commit without interference knows of the directory. -/
def Stage.Exact (dir : Entries) : Stage → Prop
  | .scan rest maxSeen =>
    rest.toFinset ⊆ dir.getD ∅ ∧ max maxSeen (maxNumber rest.toFinset) = maxNumber (dir.getD ∅)
  | .rename next       => next = maxNumber (dir.getD ∅) + 1 ∧ next ≤ batchMax
  | _                  => True

lemma exact_of_trace {dir : Entries} {st : Stage} {es : List CommitEvent}
    (h : (commitPartialUnder fun _ _ => False).Trace es dir st) : st.Exact dir := by
  induction h with
  | entry => trivial
  | env _ h => exact h.elim
  | step _ hstep ih =>
    cases hstep with
    | read hlisting =>
      obtain rfl := hlisting
      exact ⟨Finset.Subset.refl _, max_eq_right (Nat.zero_le _)⟩
    | next =>
      obtain ⟨hsub, hmax⟩ := ih
      rw [maxNumber_cons] at hmax
      rw [List.toFinset_cons] at hsub
      exact ⟨(Finset.subset_insert _ _).trans hsub, hmax⟩
    | skip hgone =>
      exact absurd (ih.1 (List.mem_toFinset.mpr List.mem_cons_self)) hgone
    | choose hmax =>
      refine ⟨?_, not_lt.mp hmax⟩
      rw [← ih.2]
      exact congrArg (· + 1) (max_eq_left (Nat.zero_le _)).symm
    | ensure | ensureFail | ensureFailLate | readFail | nextFail | full | rename | renameFail | sync
    | syncFail => trivial

/-- A commit renames, or it leaves the entries as they are. -/
lemma renamed_or_getD_eq {dir dir' : Entries} {st st' : Stage} {e : CommitEvent}
    (h : CommitStep dir st e dir' st') :
    (∃ n, st = .rename n ∧ dir'.getD ∅ = insert (target n) (dir.getD ∅)) ∨
      dir'.getD ∅ = dir.getD ∅ := by
  cases h with
  | rename => exact .inl ⟨_, rfl, rfl⟩
  | ensure | ensureFail | ensureFailLate | read | readFail | next | skip | nextFail | full | choose
  | renameFail | sync | syncFail => exact .inr rfl

section atomic

variable {ι : Type*} [DecidableEq ι] {dirs : TraceKey → Entries} {s t : State ι}
  {es : List (Event ι)} {e : Event ι} {storage : Storage}

/-- The handlers without a cleanup of raw files. -/
abbrev QuietStep :=
  LockMap.Step (ι := ι) (κ := TraceKey) (commitPartialUnder fun _ _ => False)

/-- A rename is one call of `commitPartial`, every other step none. -/
lemma shows_step [Engine] (hrun : Run QuietStep (.start dirs) es s) (hstep : QuietStep s e t)
    (hs : Shows s.shared storage.raw) :
    ∃ as storage', Run Attempt.Step storage as storage' ∧ Shows t.shared storage'.raw := by
  cases hstep with
  | request | hit | miss | found | insert | acquire | release => exact ⟨[], storage, .nil _, hs⟩
  | change h => exact h.elim
  | @work i k m st st' _ dir' hhold hsec =>
    rcases renamed_or_getD_eq hsec with ⟨n, rfl, hdir⟩ | hdir
    · obtain ⟨hn, hmax⟩ := exact_of_trace (LockMap.trace_of_run hrun hhold)
      rw [hs k, ← nextBatchNumber_eq] at hn
      subst hn
      obtain ⟨raw', hcommit, hraw'⟩ : ∃ raw',
          commitPartial storage.raw k [] = (raw', .ok ⟨k, batchFileName _⟩) ∧ raw' = _ :=
        ⟨_, commitPartial_of_le hmax, rfl⟩
      refine ⟨[⟨.commit k [] .none, true⟩], { storage with raw := raw' }, .single ?_, fun k' => ?_⟩
      · simp [Attempt.Step, Op.exec, hcommit, Except.isOk, Except.toBool]
      · by_cases hk : k' = k
        · subst hk
          simp [LockMap.State.setTask, LockMap.State.setShared, hraw', hdir, hs k', names_rename]
        · simp [LockMap.State.setTask, LockMap.State.setShared, hraw', hk, hs k']
    · refine ⟨[], storage, .nil _, fun k' => ?_⟩
      by_cases hk : k' = k
      · subst hk
        simp [LockMap.State.setTask, LockMap.State.setShared, hdir, hs k']
      · simp [LockMap.State.setTask, LockMap.State.setShared, hk, hs k']

/-- Without a cleanup in between, the concurrent commits are runs of `commitPartial`, one call for
each rename. -/
theorem exists_run_of_run [Engine] (hrun : Run QuietStep (.start dirs) es s)
    (hs : Shows dirs storage.raw) :
    ∃ as storage', Run Attempt.Step storage as storage' ∧ Shows s.shared storage'.raw := by
  suffices h : ∀ es₀ es s t, Run QuietStep (.start dirs) es₀ s → Run QuietStep s es t →
      ∀ storage : Storage, Shows s.shared storage.raw →
        ∃ as storage', Run Attempt.Step storage as storage' ∧ Shows t.shared storage'.raw from
    h [] es _ s (.nil _) hrun storage hs
  intro es₀ es s t hrun₀ hrun
  induction hrun generalizing es₀ with
  | nil => exact fun storage hs => ⟨[], storage, .nil _, hs⟩
  | cons hstep _ ih =>
    intro storage hs
    obtain ⟨as, storage', hrun', hs'⟩ := shows_step hrun₀ hstep hs
    obtain ⟨as', storage'', hrun'', hs''⟩ := ih _ (hrun₀.append (.single hstep)) storage' hs'
    exact ⟨as ++ as', storage'', hrun'.append hrun'', hs''⟩

end atomic

end Commit

end PhpTreeViz
