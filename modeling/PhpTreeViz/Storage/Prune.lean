import PhpTreeViz.Core.Syscall
import PhpTreeViz.Storage.Runs

/-!
# Pruning a trace

`delete_trace` call by call: the cached connection, the three files of the per-trace database, the
raw directory and the index row. Each call may fail, and the process may die in it. The row goes
last, so what is left of a trace can always be found by the next sweep.

The attempts here refine those of `PhpTreeViz.deleteTrace`, which sees only whether the database and
the raw directory are there.
-/

namespace PhpTreeViz

open Core

namespace Prune

/-! ### The disk -/

/-- `<key>.sqlite`, `<key>.sqlite-wal` and `<key>.sqlite-shm` -/
inductive DbFile where
  | sqlite
  | wal
  | shm
  deriving DecidableEq

/-- What `<key>.raw/` may hold. Only regular files have a length that is looked at. -/
inductive DirEntry where
  | file (len : ℕ)
  | dir (entries : List DirEntry)
  | other

/-- The artifacts of a trace, the files by their lengths. -/
structure TraceFiles where
  db : DbFile → Option ℕ
  raw : Option (List DirEntry)

def TraceFiles.IsEmpty (files : TraceFiles) : Prop := (∀ f, files.db f = none) ∧ files.raw = none

/-- The length of an entry that is counted. -/
def DirEntry.size : DirEntry → ℕ
  | .file len => len
  | _         => 0

/-- The bytes that `delete_trace` accounts for. -/
def TraceFiles.size (files : TraceFiles) : ℕ :=
  (files.db .sqlite).getD 0 + (files.db .wal).getD 0 + (files.db .shm).getD 0 +
    (files.raw.elim [] (·.map DirEntry.size)).sum

def TraceFiles.removeFile (f : DbFile) (files : TraceFiles) : TraceFiles :=
  { files with db := Function.update files.db f none }

/-- What closing a connection does to the files of its database: the checkpoint writes to the main
file, and the other two may be removed. -/
structure Closing where
  sqlite : ℕ → ℕ
  wal : ℕ → Option ℕ
  shm : ℕ → Option ℕ

def Closing.file (c : Closing) : DbFile → ℕ → Option ℕ
  | .sqlite => fun n => some (c.sqlite n)
  | .wal    => c.wal
  | .shm    => c.shm

def TraceFiles.close (c : Closing) (files : TraceFiles) : TraceFiles :=
  { files with db := fun f => (files.db f).bind (c.file f) }

/-- The data directory, the index, and the connections that the process has cached. -/
structure Disk where
  index : Table TraceRow.traceKey
  files : TraceKey → TraceFiles
  conns : TraceKey → Option Closing

namespace Disk

def modifyFiles (d : Disk) (key : TraceKey) (f : TraceFiles → TraceFiles) : Disk :=
  { d with files := Function.update d.files key (f (d.files key)) }

def forget (d : Disk) (key : TraceKey) : Disk :=
  { d with conns := Function.update d.conns key none }

/-- Drop the cached connection of `key`, which closes it. -/
def evict (d : Disk) (key : TraceKey) : Disk :=
  match d.conns key with
  | none   => d
  | some c => (d.modifyFiles key (.close c)).forget key

def unlink (d : Disk) (key : TraceKey) (f : DbFile) : Except IoError Unit × Disk :=
  match (d.files key).db f with
  | none   => (.error .notFound, d)
  | some _ => (.ok (), d.modifyFiles key (.removeFile f))

def rmtree (d : Disk) (key : TraceKey) : Except IoError Unit × Disk :=
  match (d.files key).raw with
  | none   => (.error .notFound, d)
  | some _ => (.ok (), d.modifyFiles key ({ · with raw := none }))

def eraseRow (d : Disk) (key : TraceKey) : Disk := { d with index := d.index.erase key }

variable {d : Disk} {key k : TraceKey} {f : TraceFiles → TraceFiles} {file : DbFile}

@[simp] lemma files_modifyFiles_self : (d.modifyFiles key f).files key = f (d.files key) :=
  Function.update_self ..

@[simp] lemma files_modifyFiles_of_ne (h : k ≠ key) : (d.modifyFiles key f).files k = d.files k :=
  Function.update_of_ne h ..

lemma unlink_ne_other : (d.unlink key file).1 ≠ .error .other := by
  rw [unlink]
  split
  · nofun
  · nofun

lemma db_unlink (g : DbFile) : ((d.unlink key file).2.files key).db g =
    if g = file then none else (d.files key).db g := by
  rw [unlink]
  split
  · split_ifs with h
    · rwa [h]
    · rfl
  · simp only [files_modifyFiles_self, TraceFiles.removeFile, Function.update_apply]

lemma rmtree_ne_other : (d.rmtree key).1 ≠ .error .other := by
  rw [rmtree]
  split
  · nofun
  · nofun

lemma isEmpty_rmtree (h : ∀ f, (d.files key).db f = none) :
    ((d.rmtree key).2.files key).IsEmpty := by
  rw [rmtree]
  split
  · exact ⟨h, ‹_›⟩
  · rw [files_modifyFiles_self]
    exact ⟨h, rfl⟩

@[simp] lemma index_eraseRow : (d.eraseRow key).index = d.index.erase key := rfl

end Disk

/-! ### The system calls -/

/-- How far a call got that was cut off. A recursive removal leaves some of the entries, or no
directory. -/
structure Cut where
  applied : Bool
  left : List DirEntry → Option (List DirEntry)

abbrev StorageM := Sys Cut Disk StorageError

/-- An effect that is there or not when the call is cut off. -/
def atomically {α : Type} (run : Disk → Except IoError α × Disk) : StorageM (Except IoError α) :=
  syscall run fun c d => if c.applied then (run d).2 else d

/-- `std::fs::metadata` and its length -/
def metadata (key : TraceKey) (f : DbFile) : StorageM (Except IoError ℕ) :=
  query fun d => ((d.files key).db f).elim (.error .notFound) .ok

/-- `std::fs::read_dir` -/
def readDir (key : TraceKey) : StorageM (Except IoError (List DirEntry)) :=
  query fun d => (d.files key).raw.elim (.error .notFound) .ok

/-- `std::fs::remove_file` -/
def removeFile (key : TraceKey) (f : DbFile) : StorageM (Except IoError Unit) :=
  atomically (·.unlink key f)

/-- `std::fs::remove_dir_all` -/
def removeDirAll (key : TraceKey) : StorageM (Except IoError Unit) :=
  syscall (·.rmtree key)
    fun c d => d.modifyFiles key fun files => { files with raw := files.raw.bind c.left }

/-! ### Deleting a trace -/

/-- `u64::saturating_add` -/
def saturatingAdd (m n : ℕ) : ℕ := min (m + n) (2 ^ 64 - 1)

/-- Pass an error on, but a file that is not found stands for `a`. -/
def orFailIdempotent {α : Type} (e : StorageError) (a : α) : Except IoError α → StorageM α
  | .ok a             => pure a
  | .error .notFound  => pure a
  | .error .other     => fail e

def fileSizeOrZero (key : TraceKey) (f : DbFile) : StorageM ℕ :=
  metadata key f >>= orFailIdempotent (.io "stat file for freed_bytes") 0

/-- The loop of `directory_size_bytes`: three calls for a regular file, two for anything else, and
one that finds the end. -/
def sumEntries (total : ℕ) : List DirEntry → StorageM ℕ
  | []               => do
    query (fun _ => .ok ()) >>= orFail (.io "iterate directory for freed_bytes")
    pure total
  | entry :: entries => do
    query (fun _ => .ok ()) >>= orFail (.io "iterate directory for freed_bytes")
    query (fun _ => .ok ()) >>= orFail (.io "stat directory entry")
    match entry with
    | .file len =>
      let len ← query (fun _ => .ok len) >>= orFail (.io "stat directory entry metadata")
      sumEntries (saturatingAdd total len) entries
    | _ => sumEntries total entries

def directorySizeBytes (key : TraceKey) : StorageM ℕ := do
  match ← readDir key with
  | .ok entries        => sumEntries 0 entries
  | .error .notFound   => pure 0
  | .error .other      => fail (.io "read_dir for freed_bytes")

def removeFileIdempotent (key : TraceKey) (f : DbFile) : StorageM Unit :=
  removeFile key f >>= orFailIdempotent (.io "remove_file") ()

def removeDirAllIdempotent (key : TraceKey) : StorageM Unit :=
  removeDirAll key >>= orFailIdempotent (.io "remove_dir_all") ()

/-- `trace_conns.remove(key)`. An error of the close goes unnoticed. -/
def evict (key : TraceKey) : StorageM Unit := do
  let _ ← syscall (fun d => (.ok (), d.evict key))
    fun c d => if c.applied then d.evict key else d.forget key

/-- `DELETE FROM traces WHERE trace_key = ?1` in a transaction, which changes nothing before its
commit. -/
def deleteIndexRow (key : TraceKey) : StorageM Unit := do
  query (fun _ => .ok ()) >>= orFail (.query "delete_trace index begin")
  query (fun _ => .ok ()) >>= orFail (.query "delete traces row")
  atomically (fun d => (.ok (), d.eraseRow key)) >>= orFail (.query "delete_trace index commit")

def deleteTrace (key : TraceKey) : StorageM DeleteOutcome := do
  evict key
  let freedBytes := saturatingAdd 0 (← fileSizeOrZero key .sqlite)
  let freedBytes := saturatingAdd freedBytes (← fileSizeOrZero key .wal)
  let freedBytes := saturatingAdd freedBytes (← fileSizeOrZero key .shm)
  let freedBytes := saturatingAdd freedBytes (← directorySizeBytes key)
  removeFileIdempotent key .sqlite
  removeFileIdempotent key .wal
  removeFileIdempotent key .shm
  removeDirAllIdempotent key
  deleteIndexRow key
  return { freedBytes }

/-! ### What an attempt can do -/

/-- Up to the index row: files of `key` may be gone, those of the database before anything in the
raw directory. -/
structure Trimmed (key : TraceKey) (d t : Disk) : Prop where
  index : t.index = d.index
  others : ∀ k ≠ key, t.files k = d.files k
  db : ∀ f, (d.files key).db f = none → (t.files key).db f = none
  raw : (d.files key).raw = none → (t.files key).raw = none
  ordered : (t.files key).raw = (d.files key).raw ∨ ∀ f, (t.files key).db f = none

/-- Everything of `key` is gone, its row included. -/
structure Erased (key : TraceKey) (d t : Disk) : Prop where
  index : t.index = d.index.erase key
  others : ∀ k ≠ key, t.files k = d.files k
  isEmpty : (t.files key).IsEmpty

/-- What a call of `delete_trace` may leave behind. -/
def Attempted (key : TraceKey) (d t : Disk) : Prop := Trimmed key d t ∨ Erased key d t

namespace Trimmed

variable {key : TraceKey} {d t : Disk} {f : DbFile}

lemma of_files_eq (hindex : t.index = d.index) (hfiles : t.files = d.files) : Trimmed key d t := by
  refine ⟨hindex, ?_, ?_, ?_, ?_⟩
  · simp [hfiles]
  · simp [hfiles]
  · simp [hfiles]
  · simp [hfiles]

lemma refl (key : TraceKey) (d : Disk) : Trimmed key d d := of_files_eq rfl rfl

/-- A change of the database files alone that creates none. -/
lemma modify_db (h : Trimmed key d t) {m : TraceFiles → TraceFiles}
    (hraw : ∀ files, (m files).raw = files.raw)
    (hdb : ∀ files f, files.db f = none → (m files).db f = none) :
    Trimmed key d (t.modifyFiles key m) where
  index := h.index
  others k hk := by rw [Disk.files_modifyFiles_of_ne hk, h.others k hk]
  db f hf := by
    rw [Disk.files_modifyFiles_self]
    exact hdb _ f (h.db f hf)
  raw hnone := by rw [Disk.files_modifyFiles_self, hraw, h.raw hnone]
  ordered := by
    rw [Disk.files_modifyFiles_self, hraw]
    exact h.ordered.imp_right fun hall f => hdb _ f (hall f)

lemma evict (h : Trimmed key d t) : Trimmed key d (t.evict key) := by
  rw [Disk.evict]
  split
  · exact h
  · have hclose := h.modify_db (m := .close ‹_›) (fun _ => rfl)
      fun files f hf => by simp [TraceFiles.close, hf]
    exact ⟨hclose.index, hclose.others, hclose.db, hclose.raw, hclose.ordered⟩

lemma unlink (h : Trimmed key d t) (f : DbFile) : Trimmed key d (t.unlink key f).2 := by
  rw [Disk.unlink]
  split
  · exact h
  · exact h.modify_db (fun _ => rfl) fun files g hg => by
      simp only [TraceFiles.removeFile, Function.update_apply, hg, ite_self]

/-- Once no database file is left, anything may happen to the raw directory but its creation. -/
lemma modify_raw (h : Trimmed key d t) (hgone : ∀ f, (t.files key).db f = none)
    {m : Option (List DirEntry) → Option (List DirEntry)} (hm : m none = none) :
    Trimmed key d (t.modifyFiles key fun files => { files with raw := m files.raw }) where
  index := h.index
  others k hk := by rw [Disk.files_modifyFiles_of_ne hk, h.others k hk]
  db f _ := by
    rw [Disk.files_modifyFiles_self]
    exact hgone f
  raw hnone := by
    rw [Disk.files_modifyFiles_self]
    simp only [h.raw hnone, hm]
  ordered := by
    rw [Disk.files_modifyFiles_self]
    exact .inr hgone

lemma rmtree (h : Trimmed key d t) (hgone : ∀ f, (t.files key).db f = none) :
    Trimmed key d (t.rmtree key).2 := by
  rw [Disk.rmtree]
  split
  · exact h
  · exact h.modify_raw (m := fun _ => none) hgone rfl

end Trimmed

/-! ### The rules of the calls -/

section ensures

variable {key : TraceKey} {d t : Disk} {α : Type} {e : StorageError} {Q : α → Disk → Prop}
  {E : Stop StorageError → Disk → Prop}

lemma ensures_orFailIdempotent {r : Except IoError Unit} {Q : Unit → Disk → Prop}
    (hr : r ≠ .error .other) (hQ : Q () t) : Ensures t (orFailIdempotent e () r) Q E := by
  match r with
  | .ok () => exact .pure hQ
  | .error .notFound => exact .pure hQ
  | .error .other => exact absurd rfl hr

/-- A call that only reads, with its error passed on. -/
lemma ensures_read {read : Disk → Except IoError α} :
    Ensures t (query read >>= orFail e : StorageM α) (fun a u => u = t ∧ read t = .ok a)
      fun _ u => u = t :=
  .query_orFail (fun _ ha => ⟨rfl, ha⟩) rfl rfl

/-- A call whose effect is there or not. -/
lemma ensures_atomically {run : Disk → Except IoError α × Disk} {P : Disk → Prop} (ht : P t)
    (hrun : P (run t).2) : Ensures t (atomically run)
      (fun r u => P u ∧ (r = .error .other ∨ r = (run t).1 ∧ u = (run t).2)) fun _ => P := by
  refine .syscall hrun fun c => ?_
  split_ifs
  exacts [hrun, ht]

lemma ensures_fileSizeOrZero (key : TraceKey) (f : DbFile) :
    Ensures t (fileSizeOrZero key f) (fun n u => u = t ∧ n = ((t.files key).db f).getD 0)
      fun _ u => u = t := by
  refine .bind .query ?_
  rintro r u ⟨rfl, rfl | rfl⟩
  · exact .fail rfl
  · cases hlen : (u.files key).db f with
    | none => exact .pure ⟨rfl, rfl⟩
    | some len => exact .pure ⟨rfl, rfl⟩

lemma saturatingAdd_assoc (l m n : ℕ) :
    saturatingAdd (saturatingAdd l m) n = saturatingAdd l (m + n) := by
  simp only [saturatingAdd]
  omega

lemma saturatingAdd_lt (m n : ℕ) : saturatingAdd m n < 2 ^ 64 := by
  simp only [saturatingAdd]
  omega

lemma saturatingAdd_zero {m : ℕ} (h : m < 2 ^ 64) : saturatingAdd m 0 = m := by
  simp only [saturatingAdd]
  omega

lemma ensures_sumEntries {total : ℕ} (htotal : total < 2 ^ 64) (entries : List DirEntry) :
    Ensures t (sumEntries total entries)
      (fun n u => u = t ∧ n = saturatingAdd total (entries.map DirEntry.size).sum)
      fun _ u => u = t := by
  induction entries generalizing total with
  | nil =>
    refine .bind ensures_read ?_
    rintro _ _ ⟨rfl, -⟩
    exact .pure ⟨rfl, (saturatingAdd_zero htotal).symm⟩
  | cons entry entries ih =>
    refine .bind ensures_read ?_
    rintro _ _ ⟨rfl, -⟩
    refine .bind ensures_read ?_
    rintro _ _ ⟨rfl, -⟩
    simp only [List.map_cons, List.sum_cons, ← saturatingAdd_assoc]
    cases entry with
    | file len =>
      refine .bind ensures_read ?_
      rintro n _ ⟨rfl, hn⟩
      obtain rfl := Except.ok.inj hn
      exact ih (saturatingAdd_lt total len)
    | dir _ | other =>
      simp only [DirEntry.size, saturatingAdd_zero htotal]
      exact ih htotal

lemma ensures_directorySizeBytes (key : TraceKey) :
    Ensures t (directorySizeBytes key)
      (fun n u => u = t ∧
        n = saturatingAdd 0 ((t.files key).raw.elim [] (·.map DirEntry.size)).sum)
      fun _ u => u = t := by
  refine .bind .query ?_
  rintro r u ⟨rfl, rfl | rfl⟩
  · exact .fail rfl
  · cases hraw : (u.files key).raw with
    | none => exact .pure ⟨rfl, rfl⟩
    | some entries => exact ensures_sumEntries (by norm_num) entries

/-- The eviction changes lengths at most. -/
lemma ensures_evict (key : TraceKey) :
    Ensures d (evict key)
      (fun _ t => (t = d.evict key ∨ t = d.forget key) ∧ Trimmed key d t)
      (fun _ => Trimmed key d) := by
  have hforget : Trimmed key d (d.forget key) := .of_files_eq rfl rfl
  have hevict : Trimmed key d (d.evict key) := (Trimmed.refl key d).evict
  refine .bind (.mono (.syscall (P := fun t => (t = d.evict key ∨ t = d.forget key) ∧
    Trimmed key d t) ⟨.inl rfl, hevict⟩ fun c => ?_) (fun _ _ h => h.1) fun _ _ h => h.2)
    fun _ _ h => .pure h
  split_ifs
  · exact ⟨.inl rfl, hevict⟩
  · exact ⟨.inr rfl, hforget⟩

/-- A file that is removed is gone, and so are those removed before it. -/
lemma ensures_removeFileIdempotent (gone : DbFile → Prop) (f : DbFile) (ht : Trimmed key d t)
    (hgone : ∀ g, gone g → (t.files key).db g = none) :
    Ensures t (removeFileIdempotent key f)
      (fun _ u => Trimmed key d u ∧ ∀ g, gone g ∨ g = f → (u.files key).db g = none)
      fun _ => Trimmed key d := by
  refine .bind (ensures_atomically ht (ht.unlink f)) ?_
  rintro r u ⟨hu, rfl | ⟨rfl, rfl⟩⟩
  · exact .fail hu
  · have hall : ∀ g, gone g ∨ g = f → ((t.unlink key f).2.files key).db g = none := by
      intro g hg
      rw [Disk.db_unlink]
      split_ifs with hgf
      · rfl
      · exact hgone g (hg.resolve_right hgf)
    exact ensures_orFailIdempotent Disk.unlink_ne_other ⟨hu, hall⟩

lemma ensures_removeDirAllIdempotent (ht : Trimmed key d t)
    (hgone : ∀ f, (t.files key).db f = none) :
    Ensures t (removeDirAllIdempotent key)
      (fun _ u => Trimmed key d u ∧ (u.files key).IsEmpty) fun _ => Trimmed key d := by
  have hcut : ∀ left, Trimmed key d
      (t.modifyFiles key fun files => { files with raw := files.raw.bind left }) :=
    fun left => ht.modify_raw (m := (·.bind left)) hgone rfl
  refine .bind (.syscall (P := Trimmed key d) (ht.rmtree hgone) fun c => hcut c.left) ?_
  rintro r u ⟨hu, rfl | ⟨rfl, rfl⟩⟩
  · exact .fail hu
  · exact ensures_orFailIdempotent Disk.rmtree_ne_other ⟨hu, Disk.isEmpty_rmtree hgone⟩

lemma ensures_deleteIndexRow (ht : Trimmed key d t) (hempty : (t.files key).IsEmpty) :
    Ensures t (deleteIndexRow key) (fun _ => Erased key d) fun _ => Attempted key d := by
  have herased : Erased key d (t.eraseRow key) :=
    ⟨by rw [Disk.index_eraseRow, ht.index], ht.others, hempty⟩
  have hstop : ∀ (e : Stop StorageError) u, u = t → Attempted key d u := by
    rintro _ _ rfl
    exact .inl ht
  refine .bind (ensures_read.mono (fun _ _ h => h.1) hstop) ?_
  rintro _ _ rfl
  refine .bind (ensures_read.mono (fun _ _ h => h.1) hstop) ?_
  rintro _ _ rfl
  refine .bind (ensures_atomically (.inl ht) (.inr herased)) ?_
  rintro r u ⟨hu, rfl | ⟨rfl, rfl⟩⟩
  · exact .fail hu
  · exact .pure herased

/-- What an attempt does in the end, and what it may have done when it is cut off. -/
theorem ensures_deleteTrace (key : TraceKey) (d : Disk) :
    Ensures d (deleteTrace key)
      (fun o u => Erased key d u ∧
        ∃ t, (t = d.evict key ∨ t = d.forget key) ∧
          o.freedBytes = saturatingAdd 0 (t.files key).size)
      fun _ => Attempted key d := by
  have hfail : ∀ (e : Stop StorageError) t, Trimmed key d t → Attempted key d t :=
    fun _ _ => .inl
  refine .bind ((ensures_evict key).mono (fun _ _ => id) hfail) ?_
  rintro _ t ⟨hevicted, ht⟩
  have hstat : ∀ (e : Stop StorageError) u, u = t → Attempted key d u := by
    rintro _ _ rfl
    exact .inl ht
  -- The accounting leaves the disk as it is.
  refine .bind ((ensures_fileSizeOrZero key .sqlite).mono (fun _ _ => id) hstat) ?_
  rintro _ _ ⟨rfl, rfl⟩
  refine .bind ((ensures_fileSizeOrZero key .wal).mono (fun _ _ => id) hstat) ?_
  rintro _ _ ⟨rfl, rfl⟩
  refine .bind ((ensures_fileSizeOrZero key .shm).mono (fun _ _ => id) hstat) ?_
  rintro _ _ ⟨rfl, rfl⟩
  refine .bind ((ensures_directorySizeBytes key).mono (fun _ _ => id) hstat) ?_
  rintro _ t ⟨rfl, rfl⟩
  -- Every file that is removed stays so.
  refine .bind ((ensures_removeFileIdempotent (fun _ => False) .sqlite ht nofun).mono
    (fun _ _ => id) hfail) ?_
  rintro _ u₁ ⟨h₁, hgone₁⟩
  refine .bind ((ensures_removeFileIdempotent _ .wal h₁ hgone₁).mono (fun _ _ => id) hfail) ?_
  rintro _ u₂ ⟨h₂, hgone₂⟩
  refine .bind ((ensures_removeFileIdempotent _ .shm h₂ hgone₂).mono (fun _ _ => id) hfail) ?_
  rintro _ u₃ ⟨h₃, hgone₃⟩
  have hall : ∀ f, (u₃.files key).db f = none := by
    intro f
    apply hgone₃
    cases f
    · exact .inl (.inl (.inr rfl))
    · exact .inl (.inr rfl)
    · exact .inr rfl
  refine .bind ((ensures_removeDirAllIdempotent h₃ hall).mono (fun _ _ => id) hfail) ?_
  rintro _ u₄ ⟨h₄, hempty⟩
  refine .bind (ensures_deleteIndexRow h₄ hempty) ?_
  intro _ u₅ h₅
  refine .pure ⟨h₅, t, hevicted, ?_⟩
  simp only [TraceFiles.size, saturatingAdd]
  omega

end ensures

/-! ### Attempts -/

/-- One call of `delete_trace`, with the fates of its system calls. -/
structure Attempt where
  key : TraceKey
  fates : List (Fate Cut) := []

/-- The answer, if the process lives to see it, and the disk. A process that dies loses its
connections, which closes none of them. -/
def Attempt.exec (a : Attempt) (d : Disk) : Option (Except StorageError DeleteOutcome) × Disk :=
  match deleteTrace a.key ⟨d, a.fates⟩ with
  | .ok o w             => (some (.ok o), w.state)
  | .error (.error e) w => (some (.error e), w.state)
  | .error .crash w     => (none, { w.state with conns := fun _ => none })

def Attempt.Step (d : Disk) (a : Attempt) (t : Disk) : Prop := (a.exec d).2 = t

lemma Attempt.attempted {a : Attempt} {d t : Disk} (h : a.Step d t) : Attempted a.key d t := by
  have hensures := ensures_deleteTrace a.key d
  obtain rfl := h
  rw [Attempt.exec]
  cases hrun : deleteTrace a.key ⟨d, a.fates⟩ with
  | ok o w => exact .inr (hensures.ok hrun).1
  | error e w =>
    have hw := hensures.error hrun
    cases e with
    | error => exact hw
    | crash =>
      exact hw.imp (fun h => ⟨h.index, h.others, h.db, h.raw, h.ordered⟩)
        fun h => ⟨h.index, h.others, h.isEmpty⟩

lemma Attempt.erased {a : Attempt} {d t : Disk} {o : DeleteOutcome}
    (h : a.exec d = (some (.ok o), t)) : Erased a.key d t := by
  rw [Attempt.exec] at h
  cases hrun : deleteTrace a.key ⟨d, a.fates⟩ with
  | ok o w =>
    rw [hrun] at h
    obtain rfl := (Prod.mk.inj h).2
    exact ((ensures_deleteTrace a.key d).ok hrun).1
  | error e w =>
    rw [hrun] at h
    cases e with
    | error => simp at h
    | crash => simp at h

/-- Nothing about the trace `key` differs. -/
structure SameTrace (key : TraceKey) (d t : Disk) : Prop where
  files : t.files key = d.files key
  index : t.index.find? key = d.index.find? key

section attempted

variable {key k : TraceKey} {d t u : Disk}

lemma SameTrace.trans (h : SameTrace key d t) (h' : SameTrace key t u) : SameTrace key d u :=
  ⟨h'.files.trans h.files, h'.index.trans h.index⟩

lemma Erased.find?_eq_none (h : Erased key d t) : t.index.find? key = none := by
  rw [h.index, Table.find?_erase_self]

lemma Attempted.sameTrace (h : Attempted key d t) (hk : k ≠ key) : SameTrace k d t := by
  rcases h with h | h
  · exact ⟨h.others k hk, by rw [h.index]⟩
  · exact ⟨h.others k hk, by rw [h.index, Table.find?_erase_of_ne hk]⟩

lemma Trimmed.isEmpty (h : Trimmed key d t) (hd : (d.files key).IsEmpty) :
    (t.files key).IsEmpty :=
  ⟨fun f => h.db f (hd.1 f), h.raw hd.2⟩

/-- What is left of a trace has been there before, and its row is untouched. -/
lemma Attempted.of_not_isEmpty (h : Attempted key d t) (hk : ¬ (t.files k).IsEmpty) :
    ¬ (d.files k).IsEmpty ∧ t.index.find? k = d.index.find? k := by
  by_cases hkey : k = key
  · subst hkey
    rcases h with h | h
    · exact ⟨fun hd => hk (h.isEmpty hd), by rw [h.index]⟩
    · exact absurd h.isEmpty hk
  · have hsame := h.sameTrace hkey
    rw [hsame.files] at hk
    exact ⟨hk, hsame.index⟩

end attempted

/-- Whatever attempts were made and however each of them ended, a trace of which any artifact is
left still has its row. The next attempt that returns `Ok` removes all of them and the row. The
other traces are untouched. -/
theorem findable_of_run {d t : Disk} {as : List Attempt} (h : Run Attempt.Step d as t) :
    (∀ key row, d.index.find? key = some row → ¬ (t.files key).IsEmpty →
      t.index.find? key = some row) ∧
    (∀ (a : Attempt) o u, a.exec t = (some (.ok o), u) →
      (u.files a.key).IsEmpty ∧ u.index.find? a.key = none ∧ ∀ k ≠ a.key, SameTrace k t u) ∧
    ∀ key, (∀ a ∈ as, a.key ≠ key) → SameTrace key d t := by
  refine ⟨?_, fun a o u hexec => ?_, fun key hkey => ?_⟩
  · intro key row hrow
    refine h.invariant (I := fun t => ¬ (t.files key).IsEmpty → t.index.find? key = some row)
      (P := fun _ => True) ?_ (fun _ _ => trivial) fun _ => hrow
    intro s a t _ hstep hs hleft
    obtain ⟨hleft', hsame⟩ := (Attempt.attempted hstep).of_not_isEmpty hleft
    rw [hsame]
    exact hs hleft'
  · have herased := Attempt.erased hexec
    exact ⟨herased.isEmpty, herased.find?_eq_none,
      fun k hk => Attempted.sameTrace (.inr herased) hk⟩
  · refine h.invariant (I := SameTrace key d) (P := fun a => a.key ≠ key) ?_ hkey ⟨rfl, rfl⟩
    intro s a t hne hstep hs
    exact hs.trans ((Attempt.attempted hstep).sameTrace hne.symm)

/-- The process dies when the database files and one of two raw files are gone. The row is still
there, and the next attempt removes it with the rest. -/
theorem findable_of_run_died :
    ∃ d t u : Disk, ∃ a row o, Run Attempt.Step d [a] t ∧
      (t.files a.key).db .sqlite = none ∧ (t.files a.key).raw = some [.file 7] ∧
      t.index.find? a.key = some row ∧ (Attempt.mk a.key []).exec t = (some (.ok o), u) ∧
      (u.files a.key).IsEmpty ∧ u.index.find? a.key = none := by
  let row : TraceRow := .ofBatch default default 0 {}
  let d : Disk :=
    { index := Table.empty.insertOrIgnore row
      files := fun _ => ⟨fun f => if f = .sqlite then some 4096 else none,
        some [.file 5, .file 7]⟩
      conns := fun _ => none }
  let a : Attempt := ⟨default, List.replicate 15 .done ++ [.crash ⟨false, fun es => es.tail⟩]⟩
  let t : Disk := (a.exec d).2
  have hrun : Run Attempt.Step d [a] t := .single rfl
  have hleft : (t.files default).raw = some [.file 7] := rfl
  obtain ⟨hrow, hretry, -⟩ := findable_of_run hrun
  have hexec : (Attempt.mk default []).exec t = (some (.ok ⟨7⟩), _) := rfl
  obtain ⟨hempty, hgone, -⟩ := hretry _ _ _ hexec
  exact ⟨d, t, _, a, row, _, hrun, rfl, hleft,
    hrow default row rfl fun h => (by cases hleft.symm.trans h.2), hexec, hempty, hgone⟩

/-! ### An attempt without a fault -/

section completes

variable {key : TraceKey} {d : Disk} {e : StorageError}

lemma completes_read {α : Type} {a : α} {read : Disk → Except IoError α} (h : read d = .ok a) :
    Completes d (query read >>= orFail e : StorageM α) fun b _ => b = a := by
  refine .bind .query ?_
  rintro _ _ ⟨rfl, rfl⟩
  rw [h]
  exact .pure rfl

lemma completes_orFailIdempotent {α : Type} {a : α} {r : Except IoError α}
    (hr : r ≠ .error .other) : Completes d (orFailIdempotent e a r) fun _ _ => True := by
  match r with
  | .ok _ => exact .pure trivial
  | .error .notFound => exact .pure trivial
  | .error .other => exact absurd rfl hr

lemma completes_fileSizeOrZero (f : DbFile) :
    Completes d (fileSizeOrZero key f) fun _ _ => True := by
  refine .bind .query ?_
  rintro _ u ⟨rfl, rfl⟩
  refine completes_orFailIdempotent ?_
  cases (u.files key).db f <;> nofun

lemma completes_sumEntries (total : ℕ) (entries : List DirEntry) :
    Completes d (sumEntries total entries) fun _ _ => True := by
  induction entries generalizing total d with
  | nil => exact .bind (completes_read rfl) fun _ _ _ => .pure trivial
  | cons entry entries ih =>
    refine .bind (completes_read rfl) fun _ _ _ => .bind (completes_read rfl) fun _ _ _ => ?_
    cases entry with
    | file => exact .bind (completes_read rfl) fun _ _ _ => ih _
    | dir | other => exact ih _

lemma completes_directorySizeBytes : Completes d (directorySizeBytes key) fun _ _ => True := by
  refine .bind .query ?_
  rintro _ u ⟨rfl, rfl⟩
  cases hraw : (u.files key).raw with
  | none => exact .pure trivial
  | some entries => exact completes_sumEntries 0 entries

lemma completes_removeFileIdempotent (f : DbFile) :
    Completes d (removeFileIdempotent key f) fun _ _ => True := by
  refine .bind (Q := fun r _ => r ≠ .error .other) ⟨_, _, rfl, Disk.unlink_ne_other⟩ fun _ _ h => ?_
  exact completes_orFailIdempotent h

lemma completes_removeDirAllIdempotent :
    Completes d (removeDirAllIdempotent key) fun _ _ => True := by
  refine .bind (Q := fun r _ => r ≠ .error .other) ⟨_, _, rfl, Disk.rmtree_ne_other⟩ fun _ _ h => ?_
  exact completes_orFailIdempotent h

/-- Whatever is left of a trace, an attempt in which no call fails returns `Ok`. -/
theorem completes_deleteTrace (key : TraceKey) (d : Disk) :
    Completes d (deleteTrace key) fun _ _ => True := by
  refine .bind (.bind .syscall fun _ _ _ => .pure trivial) fun _ _ (_ : True) => ?_
  refine .bind (completes_fileSizeOrZero .sqlite) fun _ _ _ => ?_
  refine .bind (completes_fileSizeOrZero .wal) fun _ _ _ => ?_
  refine .bind (completes_fileSizeOrZero .shm) fun _ _ _ => ?_
  refine .bind completes_directorySizeBytes fun _ _ _ => ?_
  refine .bind (completes_removeFileIdempotent .sqlite) fun _ _ _ => ?_
  refine .bind (completes_removeFileIdempotent .wal) fun _ _ _ => ?_
  refine .bind (completes_removeFileIdempotent .shm) fun _ _ _ => ?_
  refine .bind completes_removeDirAllIdempotent fun _ _ _ => ?_
  refine .bind (.bind (completes_read rfl) fun _ _ _ => .bind (completes_read rfl) fun _ _ _ =>
    .bind .syscall ?_) fun _ _ (_ : True) => .pure trivial
  rintro _ _ ⟨rfl, rfl⟩
  exact .pure trivial

end completes

/-! ### The storage layer above -/

/-- The storage that a disk holds, up to the contents of the files. -/
structure Shows (d : Disk) (s : Storage) : Prop where
  index : s.index = d.index
  traces : ∀ k, (s.traces k).isSome = ((d.files k).db .sqlite).isSome
  raw : ∀ k, (s.raw k).isSome = (d.files k).raw.isSome

section shows

variable {d t : Disk} {s : Storage} {key : TraceKey}

lemma Shows.update (hs : Shows d s) {traces : Option TraceDb} {raw : Option RawDir}
    {index : Table TraceRow.traceKey} (hindex : index = t.index)
    (hothers : ∀ k ≠ key, t.files k = d.files k)
    (htraces : traces.isSome = ((t.files key).db .sqlite).isSome)
    (hraw : raw.isSome = (t.files key).raw.isSome) :
    Shows t ⟨index, Function.update s.traces key traces, Function.update s.raw key raw⟩ where
  index := hindex
  traces k := by
    by_cases hk : k = key
    · subst hk
      simpa using htraces
    · simpa [hk, hothers k hk] using hs.traces k
  raw k := by
    by_cases hk : k = key
    · subst hk
      simpa using hraw
    · simpa [hk, hothers k hk] using hs.raw k

/-- Each outcome of an attempt is one that `DeleteFault` names. Which one it is depends on what is
left of the database and of the raw directory. -/
theorem Shows.attempted [Engine] (hs : Shows d s) (h : Attempted key d t) :
    ∃ fault, Shows t (PhpTreeViz.deleteTrace s key fault).1 := by
  rcases h with h | h
  · have hindex : s.index = t.index := hs.index.trans h.index.symm
    by_cases hraw : (t.files key).raw.isSome = (d.files key).raw.isSome
    · by_cases hdb : ((t.files key).db .sqlite).isSome = ((d.files key).db .sqlite).isSome
      · have := hs.update hindex h.others ((hs.traces key).trans hdb.symm)
          ((hs.raw key).trans hraw.symm)
        rw [Function.update_eq_self, Function.update_eq_self] at this
        exact ⟨.stat, this⟩
      · have hgone : (t.files key).db .sqlite = none := by
          cases hd : (d.files key).db .sqlite with
          | none => exact h.db .sqlite hd
          | some => simpa [hd] using hdb
        have hnone : (none : Option TraceDb).isSome = ((t.files key).db .sqlite).isSome := by
          rw [hgone]
          rfl
        have := hs.update hindex h.others hnone ((hs.raw key).trans hraw.symm)
        rw [Function.update_eq_self] at this
        exact ⟨.database, this⟩
    · have hgone : (t.files key).raw = none := by
        cases hd : (d.files key).raw with
        | none => exact h.raw hd
        | some => simpa [hd] using hraw
      have hdb := h.ordered.resolve_left fun heq => hraw (by rw [heq])
      exact ⟨.index, hs.update hindex h.others (by rw [hdb]; rfl) (by rw [hgone]; rfl)⟩
  · refine ⟨.none, hs.update ?_ h.others (by rw [h.isEmpty.1]; rfl) (by rw [h.isEmpty.2]; rfl)⟩
    rw [hs.index, h.index]

/-- The runs of attempts on the disk are runs of the storage layer. -/
theorem Shows.exists_run [Engine] {as : List Attempt} (hs : Shows d s)
    (h : Run Attempt.Step d as t) :
    ∃ as' u, Run PhpTreeViz.Attempt.Step s as' u ∧ Shows t u := by
  induction h generalizing s with
  | nil => exact ⟨[], s, .nil s, hs⟩
  | cons hstep _ ih =>
    obtain ⟨fault, hfault⟩ := hs.attempted (Attempt.attempted hstep)
    obtain ⟨as', u, hrun, hu⟩ := ih hfault
    exact ⟨⟨.delete _ fault, _⟩ :: as', u, .cons (PhpTreeViz.Attempt.step_exec rfl) hrun, hu⟩

end shows

end Prune

end PhpTreeViz
