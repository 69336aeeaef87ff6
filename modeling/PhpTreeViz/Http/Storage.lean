import PhpTreeViz.Storage.Schema
import Mathlib.Data.List.Basic
import Mathlib.Data.Nat.Digits.Defs
import Mathlib.Tactic.IntervalCases

/-!
# Raw batch files

The ingest path keeps the bytes of every accepted request in `<key>.raw/batch-NNNN.msgpack`.
`commitPartial` picks the next free number of the directory and moves the streamed file there.
-/

namespace PhpTreeViz

open Core

structure RawFile where
  name : String
  bytes : List UInt8
  deriving DecidableEq

/-- The files directly inside a `<key>.raw` directory. -/
abbrev RawDir := Table RawFile.name

/-- `<traces_dir>/<key>.raw/<name>` -/
@[ext]
structure RawPath where
  key : TraceKey
  name : String
  deriving DecidableEq

inductive HttpError where
  | tracesDir
  | rename
  | fsync
  | traceFull (key : TraceKey)
  deriving DecidableEq

/-- Where `commit_partial` is cut off by an I/O error: before the raw directory of the trace is
there, while it is scanned, in the rename, or behind it. -/
inductive PartialFault where
  | none
  | dir
  | scan
  | rename
  | fsync

def batchPrefix : List Char := "batch-".toList
def batchExt : List Char := ".msgpack".toList
def batchMax : ℕ := 9999

/-! ### Batch numbers -/

def digitsValue (ds : List Char) : Option ℕ :=
  if ds ≠ [] ∧ ds.all Char.isDigit then
    some (ds.foldl (fun n d => 10 * n + (d.toNat - '0'.toNat)) 0)
  else none

/-- `str::parse::<u32>`, which accepts a leading plus sign. -/
def parseU32 (cs : List Char) : Option ℕ :=
  (digitsValue (if cs.head? = some '+' then cs.tail else cs)).filter (· < 2 ^ 32)

/-- `batch-NNNN.msgpack` has the number `NNNN`, any other name has none. -/
def parseBatchNumber (name : String) : Option ℕ := do
  let stem ← name.toList.dropSuffix? batchExt
  let digits ← stem.dropPrefix? batchPrefix
  if (digits.map Char.utf8Size).sum ≠ 4 then none else parseU32 digits

/-- `{n:04}` for the numbers up to `batchMax`. -/
def fourDigits (n : ℕ) : List Char :=
  [n / 1000 % 10, n / 100 % 10, n / 10 % 10, n % 10].map Nat.digitChar

def batchFileName (n : ℕ) : String := String.ofList (batchPrefix ++ fourDigits n ++ batchExt)

/-- One more than the highest batch number in the directory. -/
def nextBatchNumber (dir : RawDir) : ℕ :=
  (dir.rows.filterMap fun f => parseBatchNumber f.name).foldl max 0 + 1

/-! ### Committing -/

/-- The directory after `rename(partial, target)`. -/
def RawDir.rename (dir : RawDir) (name : String) (bytes : List UInt8) : RawDir :=
  dir.upsert ⟨name, bytes⟩ (fun f => { f with bytes := bytes }) fun _ => rfl

/-- Move a streamed request to its canonical location. The directory is created first, also for a
trace that turns out to be full. -/
def commitPartial (raw : TraceKey → Option RawDir) (key : TraceKey) (bytes : List UInt8)
    (fault : PartialFault := .none) : (TraceKey → Option RawDir) × Except HttpError RawPath :=
  if let .dir := fault then (raw, .error .tracesDir)
  else
    let dir := (raw key).getD .empty
    let created := Function.update raw key (some dir)
    if let .scan := fault then (created, .error .tracesDir)
    else
      let next := nextBatchNumber dir
      if next > batchMax then (created, .error (.traceFull key))
      else if let .rename := fault then (created, .error .rename)
      else
        let name := batchFileName next
        let renamed := Function.update raw key (some (dir.rename name bytes))
        if let .fsync := fault then (renamed, .error .fsync)
        else (renamed, .ok ⟨key, name⟩)

/-! ### A committed file is new -/

lemma isDigit_digitChar {d : ℕ} (h : d < 10) :
    (Nat.digitChar d).isDigit ∧ (Nat.digitChar d).toNat - '0'.toNat = d ∧
      (Nat.digitChar d).utf8Size = 1 ∧ Nat.digitChar d ≠ '+' := by
  interval_cases d <;> decide

/-- A file name gives back the number it was made from. -/
lemma parseBatchNumber_batchFileName {n : ℕ} (h : n ≤ batchMax) :
    parseBatchNumber (batchFileName n) = some n := by
  have hstem : (batchFileName n).toList.dropSuffix? batchExt =
      some (batchPrefix ++ fourDigits n) :=
    List.dropSuffix?_eq_some_iff.mpr ⟨batchExt, by simp [batchFileName], by simp⟩
  have hdigits : (batchPrefix ++ fourDigits n).dropPrefix? batchPrefix = some (fourDigits n) :=
    List.dropPrefix?_eq_some_iff.mpr ⟨batchPrefix, rfl, by simp⟩
  obtain ⟨h3, v3, u3, p3⟩ := isDigit_digitChar (Nat.mod_lt (n / 1000) (by decide : 0 < 10))
  obtain ⟨h2, v2, u2, -⟩ := isDigit_digitChar (Nat.mod_lt (n / 100) (by decide : 0 < 10))
  obtain ⟨h1, v1, u1, -⟩ := isDigit_digitChar (Nat.mod_lt (n / 10) (by decide : 0 < 10))
  obtain ⟨h0, v0, u0, -⟩ := isDigit_digitChar (Nat.mod_lt n (by decide : 0 < 10))
  have hvalue : digitsValue (fourDigits n) = some n := by
    have hall : (fourDigits n).all Char.isDigit := by
      simp [fourDigits, h3, h2, h1, h0]
    rw [digitsValue, if_pos ⟨by simp [fourDigits], hall⟩]
    simp only [fourDigits, List.map_cons, List.map_nil, List.foldl_cons, List.foldl_nil, v3, v2,
      v1, v0, Option.some.injEq]
    simp only [batchMax] at h
    omega
  have hparse : parseU32 (fourDigits n) = some n := by
    have hplus : (fourDigits n).head? ≠ some '+' := by simp [fourDigits, p3]
    rw [parseU32, if_neg hplus, hvalue]
    simp only [batchMax] at h
    simp [Option.filter, show n < 4294967296 by omega]
  have hsize : ((fourDigits n).map Char.utf8Size).sum = 4 := by
    simp only [fourDigits, List.map_cons, List.map_nil, List.sum_cons, List.sum_nil, u3, u2, u1, u0,
      Nat.add_zero, Nat.reduceAdd]
  simp only [parseBatchNumber, hstem, hdigits, Option.bind_eq_bind, Option.bind_some, hsize,
    ne_eq, not_true_eq_false, if_false, hparse]

lemma le_foldl_max (l : List ℕ) (a : ℕ) : a ≤ l.foldl max a ∧ ∀ n ∈ l, n ≤ l.foldl max a := by
  induction l generalizing a with
  | nil => simp
  | cons b l ih =>
    obtain ⟨hle, hmem⟩ := ih (max a b)
    refine ⟨(le_max_left a b).trans hle, fun n hn => ?_⟩
    rcases List.mem_cons.mp hn with rfl | hn
    · exact (le_max_right a n).trans hle
    · exact hmem n hn

/-- The next file name is not taken. -/
lemma not_hasKey_next {dir : RawDir} (h : nextBatchNumber dir ≤ batchMax) :
    ¬ dir.HasKey (batchFileName (nextBatchNumber dir)) := by
  rintro ⟨f, hf, hname⟩
  have hmem : nextBatchNumber dir ∈ dir.rows.filterMap fun f => parseBatchNumber f.name :=
    List.mem_filterMap.mpr ⟨f, hf, by rw [hname, parseBatchNumber_batchFileName h]⟩
  have hle := (le_foldl_max _ 0).2 _ hmem
  rw [nextBatchNumber] at hle
  omega

/-- The bytes stored at a path. -/
def readRaw (raw : TraceKey → Option RawDir) (path : RawPath) : Option (List UInt8) :=
  ((raw path.key).bind (·.find? path.name)).map RawFile.bytes

section commitPartial

variable {raw raw' : TraceKey → Option RawDir} {key : TraceKey} {bytes : List UInt8}
  {fault : PartialFault} {path : RawPath} {r : Except HttpError RawPath}

lemma commitPartial_cases (h : commitPartial raw key bytes fault = (raw', r)) :
    (raw' = raw ∧ ∃ e, r = .error e) ∨
      ∃ dir, (raw key).getD .empty = dir ∧
        ((raw' = Function.update raw key (some dir) ∧ ∃ e, r = .error e) ∨
          nextBatchNumber dir ≤ batchMax ∧
            raw' = Function.update raw key
              (some (dir.rename (batchFileName (nextBatchNumber dir)) bytes)) ∧
            ((∃ e, r = .error e) ∨ r = .ok ⟨key, batchFileName (nextBatchNumber dir)⟩)) := by
  cases fault with
  | dir =>
    obtain ⟨rfl, rfl⟩ := Prod.mk.inj h
    exact .inl ⟨rfl, _, rfl⟩
  | scan =>
    obtain ⟨rfl, rfl⟩ := Prod.mk.inj h
    exact .inr ⟨_, rfl, .inl ⟨rfl, _, rfl⟩⟩
  | none | rename | fsync =>
    refine .inr ⟨_, rfl, ?_⟩
    simp only [commitPartial] at h
    split_ifs at h with hmax
    · obtain ⟨rfl, rfl⟩ := Prod.mk.inj h
      exact .inl ⟨rfl, _, rfl⟩
    · obtain ⟨rfl, rfl⟩ := Prod.mk.inj h
      simp [Nat.le_of_not_gt hmax]

lemma commitPartial_of_le (h : nextBatchNumber ((raw key).getD .empty) ≤ batchMax) :
    commitPartial raw key bytes =
      (Function.update raw key (some (((raw key).getD .empty).rename
        (batchFileName (nextBatchNumber ((raw key).getD .empty))) bytes)),
        .ok ⟨key, batchFileName (nextBatchNumber ((raw key).getD .empty))⟩) :=
  if_neg (not_lt.mpr h)

/-- A commit stores the request under the path it returns. -/
theorem readRaw_commitPartial_self (h : commitPartial raw key bytes fault = (raw', .ok path)) :
    readRaw raw' path = some bytes := by
  rcases commitPartial_cases h with ⟨-, -, ⟨⟩⟩ | ⟨dir, -, ⟨-, -, ⟨⟩⟩ | ⟨hmax, rfl, ⟨-, ⟨⟩⟩ | hok⟩⟩
  obtain rfl := Except.ok.inj hok
  have hnew := Table.find?_eq_none_iff.mpr (not_hasKey_next hmax)
  simp only [readRaw, Function.update_self, Option.bind_some, RawDir.rename]
  rw [Table.find?_upsert_self (a := RawFile.mk _ bytes), hnew]
  rfl

/-- A commit loses no file, whether it succeeds or not. -/
theorem readRaw_commitPartial_of_some (h : commitPartial raw key bytes fault = (raw', r))
    {other : RawPath} {bytes' : List UInt8} (hread : readRaw raw other = some bytes') :
    readRaw raw' other = some bytes' := by
  by_cases hkey : other.key = key
  · obtain ⟨d, hd⟩ : ∃ d, raw key = some d := by
      rw [← Option.ne_none_iff_exists']
      intro hnone
      simp [readRaw, hkey, hnone] at hread
    have hfile : ((d.find? other.name).map RawFile.bytes) = some bytes' := by
      simpa [readRaw, hkey, hd] using hread
    rcases commitPartial_cases h with ⟨rfl, -⟩ | ⟨dir, hdir, ⟨rfl, -⟩ | ⟨hmax, rfl, -⟩⟩
    · exact hread
    · obtain rfl : d = dir := by simpa [hd] using hdir
      simpa [readRaw, hkey] using hfile
    · obtain rfl : d = dir := by simpa [hd] using hdir
      -- the next name is free, so it is not this one
      have hname : other.name ≠ batchFileName (nextBatchNumber d) := by
        intro hname
        rw [hname, Table.find?_eq_none_iff.mpr (not_hasKey_next hmax)] at hfile
        cases hfile
      simp only [readRaw, hkey, Function.update_self, Option.bind_some, RawDir.rename]
      rwa [Table.find?_upsert_of_ne (a := RawFile.mk _ bytes) hname]
  · rcases commitPartial_cases h with ⟨rfl, -⟩ | ⟨dir, -, ⟨rfl, -⟩ | ⟨-, rfl, -⟩⟩
    · exact hread
    all_goals rwa [readRaw, Function.update_of_ne hkey, ← readRaw]

/-- A commit leaves the other directories alone. -/
lemma commitPartial_of_ne {other : TraceKey} (hkey : other ≠ key)
    (h : commitPartial raw key bytes fault = (raw', r)) : raw' other = raw other := by
  rcases commitPartial_cases h with ⟨rfl, -⟩ | ⟨dir, -, ⟨rfl, -⟩ | ⟨-, rfl, -⟩⟩
  · rfl
  all_goals exact Function.update_of_ne hkey _ _

end commitPartial

end PhpTreeViz
