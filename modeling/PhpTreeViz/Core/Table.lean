import Mathlib.Data.List.Nodup
import Mathlib.Data.List.Perm.Basic

/-!
# Keyed tables

A table is a list of rows no two of which share a key. The operations are the ones a relational
engine offers on a primary key: lookup, `INSERT OR IGNORE`, `DELETE`, `UPDATE` of one row and
upsert. Each keeps the key unique by construction, so a table with a repeated key cannot be built.

A query without an `ORDER BY` may return its rows in any order: `ScanOrder` is the order the
engine happens to choose.
-/

namespace Core

/-- Rows with a unique `key`. -/
@[ext]
structure Table {α κ : Type*} (key : α → κ) where
  rows : List α
  nodup : (rows.map key).Nodup

/-- The order in which an engine returns the rows of a query that asks for none. -/
class ScanOrder (α : Type*) where
  scan : List α → List α
  scan_perm : ∀ rows, (scan rows).Perm rows

export ScanOrder (scan)

@[simp] lemma mem_scan {α : Type*} [ScanOrder α] {a : α} {rows : List α} :
    a ∈ scan rows ↔ a ∈ rows :=
  (ScanOrder.scan_perm rows).mem_iff

@[simp] lemma length_scan {α : Type*} [ScanOrder α] (rows : List α) :
    (scan rows).length = rows.length :=
  (ScanOrder.scan_perm rows).length_eq

/-- The engine that reads its rows in the order they were stored. -/
@[reducible] def ScanOrder.stored (α : Type*) : ScanOrder α where
  scan rows := rows
  scan_perm _ := .refl _

namespace Table

variable {α κ : Type*} {key : α → κ}

/-- The table without rows. -/
def empty : Table key where
  rows := []
  nodup := List.nodup_nil

@[simp] lemma rows_empty : (empty : Table key).rows = [] := rfl

/-- `k` is the key of some row. -/
def HasKey (t : Table key) (k : κ) : Prop := ∃ a ∈ t.rows, key a = k

lemma hasKey_of_mem {t : Table key} {a : α} (h : a ∈ t.rows) : t.HasKey (key a) := ⟨a, h, rfl⟩

@[simp] lemma not_hasKey_empty (k : κ) : ¬ (empty : Table key).HasKey k := by
  simp [HasKey]

/-- Two rows with the same key are the same row. -/
lemma eq_of_key (t : Table key) {a b : α} (ha : a ∈ t.rows) (hb : b ∈ t.rows)
    (h : key a = key b) : a = b :=
  List.inj_on_of_nodup_map t.nodup ha hb h

lemma nodup_rows (t : Table key) : t.rows.Nodup := t.nodup.of_map

variable [DecidableEq κ]

instance (t : Table key) (k : κ) : Decidable (t.HasKey k) :=
  inferInstanceAs (Decidable (∃ a ∈ t.rows, key a = k))

/-! ### Lookup -/

/-- The row with key `k`. -/
def find? (t : Table key) (k : κ) : Option α := t.rows.find? (key · = k)

@[simp] lemma find?_empty (k : κ) : (empty : Table key).find? k = none := rfl

lemma find?_eq_some_iff {t : Table key} {k : κ} {a : α} :
    t.find? k = some a ↔ a ∈ t.rows ∧ key a = k := by
  constructor
  · intro h
    exact ⟨List.mem_of_find?_eq_some h, by simpa using List.find?_some h⟩
  · rintro ⟨ha, rfl⟩
    cases hf : t.find? (key a) with
    | none =>
      have := List.find?_eq_none.mp hf a ha
      simp at this
    | some b =>
      have hb := List.mem_of_find?_eq_some hf
      have hk : key b = key a := by simpa using List.find?_some hf
      rw [t.eq_of_key hb ha hk]

lemma find?_eq_none_iff {t : Table key} {k : κ} : t.find? k = none ↔ ¬ t.HasKey k := by
  simp [find?, HasKey]

lemma find?_of_mem {t : Table key} {a : α} (h : a ∈ t.rows) : t.find? (key a) = some a :=
  find?_eq_some_iff.mpr ⟨h, rfl⟩

lemma isSome_find? {t : Table key} {k : κ} : (t.find? k).isSome ↔ t.HasKey k := by
  rw [← not_iff_not, ← find?_eq_none_iff]
  simp

/-! ### Insert -/

/-- `INSERT OR IGNORE`: a row whose key is taken is dropped. -/
def insertOrIgnore (t : Table key) (a : α) : Table key :=
  if h : t.HasKey (key a) then t
  else
    { rows := t.rows ++ [a]
      nodup := by
        rw [List.map_append, List.map_singleton]
        apply List.Nodup.append t.nodup (List.nodup_singleton _)
        simpa [HasKey] using h }

lemma insertOrIgnore_of_hasKey {t : Table key} {a : α} (h : t.HasKey (key a)) :
    t.insertOrIgnore a = t := by
  rw [insertOrIgnore, dif_pos h]

lemma rows_insertOrIgnore {t : Table key} {a : α} (h : ¬ t.HasKey (key a)) :
    (t.insertOrIgnore a).rows = t.rows ++ [a] := by
  rw [insertOrIgnore, dif_neg h]

lemma mem_insertOrIgnore {t : Table key} {a b : α} :
    b ∈ (t.insertOrIgnore a).rows ↔ b ∈ t.rows ∨ (b = a ∧ ¬ t.HasKey (key a)) := by
  by_cases h : t.HasKey (key a)
  · simp [insertOrIgnore_of_hasKey h, h]
  · simp [rows_insertOrIgnore h, h]

lemma hasKey_insertOrIgnore {t : Table key} {a : α} {k : κ} :
    (t.insertOrIgnore a).HasKey k ↔ t.HasKey k ∨ k = key a := by
  by_cases h : t.HasKey (key a)
  · rw [insertOrIgnore_of_hasKey h]
    refine ⟨Or.inl, ?_⟩
    rintro (hk | rfl)
    · exact hk
    · exact h
  · simp only [HasKey, rows_insertOrIgnore h, List.mem_append, List.mem_singleton]
    constructor
    · rintro ⟨b, hb | rfl, rfl⟩
      · exact Or.inl ⟨b, hb, rfl⟩
      · exact Or.inr rfl
    · rintro (⟨b, hb, rfl⟩ | rfl)
      · exact ⟨b, Or.inl hb, rfl⟩
      · exact ⟨a, Or.inr rfl, rfl⟩

/-- An insert leaves the lookup of every other key alone. -/
lemma find?_insertOrIgnore_of_hasKey {t : Table key} {a : α} {k : κ} (h : t.HasKey k) :
    (t.insertOrIgnore a).find? k = t.find? k := by
  obtain ⟨b, hb, rfl⟩ := h
  rw [find?_of_mem hb]
  exact find?_of_mem (mem_insertOrIgnore.mpr (Or.inl hb))

/-! ### Delete -/

/-- `DELETE … WHERE key = k`. -/
def erase (t : Table key) (k : κ) : Table key where
  rows := t.rows.filter (key · ≠ k)
  nodup := t.nodup.sublist (List.filter_sublist.map key)

@[simp] lemma mem_erase {t : Table key} {k : κ} {a : α} :
    a ∈ (t.erase k).rows ↔ a ∈ t.rows ∧ key a ≠ k := by
  simp [erase]

/-- Deleting the key of a row removes that row and no other. -/
lemma rows_erase_perm {t : Table key} {a : α} (h : a ∈ t.rows) :
    t.rows.Perm (a :: (t.erase (key a)).rows) := by
  classical
  refine (List.perm_ext_iff_of_nodup t.nodup_rows ?_).mpr fun b => ?_
  · exact List.nodup_cons.mpr ⟨by simp, (t.erase (key a)).nodup_rows⟩
  · simp only [List.mem_cons, mem_erase]
    constructor
    · intro hb
      by_cases hk : key b = key a
      · exact Or.inl (t.eq_of_key hb h hk)
      · exact Or.inr ⟨hb, hk⟩
    · rintro (rfl | ⟨hb, _⟩)
      · exact h
      · exact hb

lemma length_erase {t : Table key} {a : α} (h : a ∈ t.rows) :
    (t.erase (key a)).rows.length + 1 = t.rows.length := by
  rw [(rows_erase_perm h).length_eq, List.length_cons]

@[simp] lemma find?_erase_self {t : Table key} {k : κ} : (t.erase k).find? k = none := by
  rw [find?_eq_none_iff]
  rintro ⟨a, ha, rfl⟩
  exact (mem_erase.mp ha).2 rfl

lemma find?_erase_of_ne {t : Table key} {k k' : κ} (hk : k' ≠ k) :
    (t.erase k).find? k' = t.find? k' := by
  cases h : t.find? k' with
  | none =>
    rw [find?_eq_none_iff] at h ⊢
    rintro ⟨a, ha, rfl⟩
    exact h ⟨a, (mem_erase.mp ha).1, rfl⟩
  | some a =>
    obtain ⟨ha, rfl⟩ := find?_eq_some_iff.mp h
    exact find?_of_mem (mem_erase.mpr ⟨ha, hk⟩)

/-! ### Update -/

/-- `UPDATE … SET … WHERE key = k`: `f` rewrites the other columns of the row. -/
def modify (t : Table key) (k : κ) (f : α → α) (hf : ∀ a, key (f a) = key a) : Table key where
  rows := t.rows.map fun a => if key a = k then f a else a
  nodup := by
    have : (key ∘ fun a => if key a = k then f a else a) = key := by
      funext a
      simp only [Function.comp_apply]
      split <;> simp [hf]
    rw [List.map_map, this]
    exact t.nodup

variable {f : α → α} {hf : ∀ a, key (f a) = key a}

lemma rows_modify {t : Table key} {k : κ} :
    (t.modify k f hf).rows = t.rows.map fun a => if key a = k then f a else a := rfl

lemma mem_modify {t : Table key} {k : κ} {b : α} :
    b ∈ (t.modify k f hf).rows ↔ ∃ a ∈ t.rows, b = if key a = k then f a else a := by
  simp [modify, eq_comm]

@[simp] lemma hasKey_modify {t : Table key} {k k' : κ} :
    (t.modify k f hf).HasKey k' ↔ t.HasKey k' := by
  have hkey : ∀ a, key (if key a = k then f a else a) = key a := by
    intro a
    split <;> simp [hf]
  simp only [HasKey, mem_modify]
  constructor
  · rintro ⟨b, ⟨a, ha, rfl⟩, rfl⟩
    exact ⟨a, ha, (hkey a).symm⟩
  · rintro ⟨a, ha, rfl⟩
    exact ⟨_, ⟨a, ha, rfl⟩, hkey a⟩

lemma find?_modify {t : Table key} {k k' : κ} :
    (t.modify k f hf).find? k' = if k' = k then (t.find? k').map f else t.find? k' := by
  cases h : t.find? k' with
  | none =>
    rw [find?_eq_none_iff] at h
    simp [find?_eq_none_iff, h]
  | some a =>
    obtain ⟨ha, rfl⟩ := find?_eq_some_iff.mp h
    by_cases hk : key a = k
    · simp only [hk, if_true, Option.map_some]
      exact find?_eq_some_iff.mpr ⟨mem_modify.mpr ⟨a, ha, by simp [hk]⟩, by rw [hf, hk]⟩
    · simp only [hk, if_false]
      exact find?_eq_some_iff.mpr ⟨mem_modify.mpr ⟨a, ha, by simp [hk]⟩, rfl⟩

@[simp] lemma find?_modify_self {t : Table key} {k : κ} :
    (t.modify k f hf).find? k = (t.find? k).map f := by
  rw [find?_modify, if_pos rfl]

lemma find?_modify_of_ne {t : Table key} {k k' : κ} (hk : k' ≠ k) :
    (t.modify k f hf).find? k' = t.find? k' := by
  rw [find?_modify, if_neg hk]

/-- `INSERT … ON CONFLICT DO UPDATE`: insert `a`, or rewrite the row that has its key. -/
def upsert (t : Table key) (a : α) (f : α → α) (hf : ∀ a, key (f a) = key a) : Table key :=
  if t.HasKey (key a) then t.modify (key a) f hf else t.insertOrIgnore a

lemma hasKey_upsert {t : Table key} {a : α} {k : κ} :
    (t.upsert a f hf).HasKey k ↔ t.HasKey k ∨ k = key a := by
  by_cases h : t.HasKey (key a)
  · rw [upsert, if_pos h, hasKey_modify]
    refine ⟨Or.inl, ?_⟩
    rintro (hk | rfl)
    · exact hk
    · exact h
  · rw [upsert, if_neg h, hasKey_insertOrIgnore]

lemma find?_upsert_self {t : Table key} {a : α} :
    (t.upsert a f hf).find? (key a) = some ((t.find? (key a)).elim a f) := by
  by_cases h : t.HasKey (key a)
  · obtain ⟨b, hb⟩ := Option.isSome_iff_exists.mp (isSome_find?.mpr h)
    simp [upsert, h, hb]
  · rw [upsert, if_neg h, find?_eq_none_iff.mpr h, Option.elim_none]
    exact find?_of_mem (mem_insertOrIgnore.mpr (Or.inr ⟨rfl, h⟩))

lemma find?_upsert_of_ne {t : Table key} {a : α} {k : κ} (hk : k ≠ key a) :
    (t.upsert a f hf).find? k = t.find? k := by
  by_cases h : t.HasKey (key a)
  · simp [upsert, h, find?_modify, hk]
  · rw [upsert, if_neg h]
    by_cases hkk : t.HasKey k
    · exact find?_insertOrIgnore_of_hasKey hkk
    · rw [find?_eq_none_iff.mpr hkk, find?_eq_none_iff, hasKey_insertOrIgnore]
      rintro (h' | h')
      · exact hkk h'
      · exact hk h'

end Table

end Core
