import Mathlib.Data.List.OfFn
import Mathlib.Data.Option.Basic
import Mathlib.Logic.Function.Basic
import Mathlib.Tactic.Lemma

/-!
# Decoding documents into records

A self-describing document is a map, a sequence or a scalar. A record is decoded from a sequence of
all its fields in order, or from a map, whose keys name fields. Unknown keys are skipped; a field
that is named twice, or not at all, is an error.

The main result compares two records of which one has the fields of the other and more: from a map
that the smaller one accepts, the larger one is decoded if and only if each of its own fields is
named exactly once.
-/

namespace Core.Serde

/-- What the key of a map says about the field it names. -/
inductive Ident where
  | name (s : String)
  | index (k : ℕ)
  | other
  deriving DecidableEq

inductive Shape (δ : Type) where
  | map (entries : List (δ × δ))
  | seq (items : List δ)
  | scalar

/-- A data format with documents `δ`: how they are read from bytes, how they are built, and what
they are as keys and as scalars. `ident` has no value where a key is neither text nor a number. -/
structure Format (δ : Type) where
  read : List UInt8 → Option δ
  shape : δ → Shape δ
  ident : δ → Option Ident
  bool : δ → Option Bool
  u8 : δ → Option UInt8
  u32 : δ → Option UInt32
  u64 : δ → Option UInt64
  i64 : δ → Option Int64
  string : δ → Option String

/-- The names of the `n` fields of a record. -/
structure Fields (n : ℕ) where
  name : Fin n → String
  injective : Function.Injective name

variable {δ α : Type} {n n' : ℕ}

/-! ### Keys -/

/-- The field that a key names, if it names one of the record. -/
def Fields.find? (fields : Fields n) : Ident → Option (Fin n)
  | .name s  => (List.finRange n).find? (fields.name · = s)
  | .index k => if h : k < n then some ⟨k, h⟩ else none
  | .other   => none

/-- The key names the field. -/
def Fields.Names (fields : Fields n) (i : Fin n) : Ident → Prop
  | .name s  => fields.name i = s
  | .index k => i = k
  | .other   => False

lemma Fields.find?_eq_some_iff {fields : Fields n} {id : Ident} {i : Fin n} :
    fields.find? id = some i ↔ fields.Names i id := by
  cases id with
  | name s =>
    simp only [find?, Names]
    constructor
    · intro h
      simpa using List.find?_some h
    · rintro rfl
      cases hfind : (List.finRange n).find? (fields.name · = fields.name i) with
      | none => simpa using List.find?_eq_none.mp hfind i (List.mem_finRange i)
      | some j =>
        have hj : fields.name j = fields.name i := by simpa using List.find?_some hfind
        rw [fields.injective hj]
  | index k =>
    simp only [find?, Names]
    split_ifs with hk
    · simp [Fin.ext_iff, eq_comm]
    · simpa using fun h : i = k => hk (h ▸ i.isLt)
  | other => simp [find?, Names]

/-- The first record has fields with the names of the second, at the same places. -/
def Fields.Extends (fields' : Fields n') (fields : Fields n) (h : n ≤ n') : Prop :=
  ∀ i, fields'.name (i.castLE h) = fields.name i

lemma Fields.Extends.names_iff {fields : Fields n} {fields' : Fields n'} {h : n ≤ n'}
    (hext : fields'.Extends fields h) {i : Fin n} {id : Ident} :
    fields'.Names (i.castLE h) id ↔ fields.Names i id := by
  cases id with
  | name s => simp [Names, hext i]
  | index k => simp [Names]
  | other => rfl

/-! ### Records -/

namespace Format

variable (f : Format δ)

/-- The loop over the entries of a map, with the values found so far. -/
def visitMap (fields : Fields n) : List (δ × δ) → (Fin n → Option δ) → Option (Fin n → δ)
  | [], slots => if h : ∀ i, (slots i).isSome then some fun i => (slots i).get (h i) else none
  | (key, value) :: entries, slots =>
    (f.ident key).bind fun id =>
      match fields.find? id with
      | none   => visitMap fields entries slots
      | some i =>
        if (slots i).isSome then none
        else visitMap fields entries (Function.update slots i (some value))

def record (fields : Fields n) (doc : δ) : Option (Fin n → δ) :=
  match f.shape doc with
  | .map entries => f.visitMap fields entries fun _ => none
  | .seq items   => if h : items.length = n then some fun i => items.get (i.cast h.symm) else none
  | .scalar      => none

/-- A `Vec` of what `decode` decodes. -/
def list (decode : δ → Option α) (doc : δ) : Option (List α) :=
  match f.shape doc with
  | .seq items => items.mapM decode
  | _          => none

/-- The values that a map gives for a field. -/
def values (fields : Fields n) (i : Fin n) (entries : List (δ × δ)) : List δ :=
  entries.filterMap fun e =>
    if (f.ident e.1).bind fields.find? = some i then some e.2 else none

/-- All keys are text or numbers. -/
def Keyed (entries : List (δ × δ)) : Prop := ∀ e ∈ entries, (f.ident e.1).isSome

variable {f} {fields : Fields n} {fields' : Fields n'} {doc : δ}

lemma values_cons {i : Fin n} {key value : δ} {entries : List (δ × δ)} :
    f.values fields i ((key, value) :: entries) =
      (if (f.ident key).bind fields.find? = some i then [value] else []) ++
        f.values fields i entries := by
  rw [values, List.filterMap_cons]
  split_ifs with h
  · rfl
  · rfl

/-- The loop succeeds with the fields that are named once, counting what was found before. -/
lemma visitMap_eq_some_iff {entries : List (δ × δ)} {slots : Fin n → Option δ} {v : Fin n → δ} :
    f.visitMap fields entries slots = some v ↔
      f.Keyed entries ∧ ∀ i, (slots i).toList ++ f.values fields i entries = [v i] := by
  induction entries generalizing slots with
  | nil =>
    simp only [visitMap, values, List.filterMap_nil, List.append_nil, Keyed, List.not_mem_nil,
      false_imp_iff, implies_true, true_and]
    split_ifs with h
    · simp only [Option.some.injEq, funext_iff]
      refine forall_congr' fun i => ?_
      obtain ⟨d, hd⟩ := Option.isSome_iff_exists.mp (h i)
      simp [hd]
    · simp only [false_iff]
      intro hv
      refine h fun i => ?_
      cases hi : slots i with
      | none => simpa [hi] using hv i
      | some d => rfl
  | cons e entries ih =>
    obtain ⟨key, value⟩ := e
    have hkeyed : f.Keyed ((key, value) :: entries) ↔ (f.ident key).isSome ∧ f.Keyed entries := by
      simp [Keyed]
    rw [hkeyed, visitMap]
    cases hid : f.ident key with
    | none => simp
    | some id =>
      simp only [values_cons, hid, Option.bind_some, Option.isSome_some,
        true_and]
      cases hfind : fields.find? id with
      | none => simpa using ih
      | some i =>
        simp only [Option.some.injEq]
        cases hi : slots i with
        | some d =>
          -- The field is named a second time.
          simp only [Option.isSome_some, if_true, reduceCtorEq, false_iff, not_and]
          intro _ hv
          simpa [hi] using hv i
        | none =>
          simp only [Option.isSome_none, Bool.false_eq_true, if_false]
          rw [ih]
          refine and_congr_right fun _ => forall_congr' fun j => ?_
          by_cases hj : i = j
          · subst hj
            simp [hi]
          · simp [Function.update_of_ne (Ne.symm hj), hj]

lemma record_eq_some_iff {v : Fin n → δ} :
    f.record fields doc = some v ↔
      (∃ entries, f.shape doc = .map entries ∧ f.Keyed entries ∧
        ∀ i, f.values fields i entries = [v i]) ∨
      f.shape doc = .seq (List.ofFn v) := by
  rw [record]
  cases hshape : f.shape doc with
  | map entries => simp [visitMap_eq_some_iff]
  | seq items =>
    simp only [reduceCtorEq, false_and, exists_false, false_or, Shape.seq.injEq]
    constructor
    · intro h
      split_ifs at h with hlen
      subst hlen
      obtain rfl := Option.some.inj h
      simp
    · rintro rfl
      simp
  | scalar => simp

/-- Where the key names the field, it does so for both records. -/
lemma values_castLE {h : n ≤ n'} (hext : fields'.Extends fields h) (i : Fin n)
    (entries : List (δ × δ)) :
    f.values fields' (i.castLE h) entries = f.values fields i entries := by
  rw [values, values]
  congr 1
  funext e
  have hiff : (f.ident e.1).bind fields'.find? = some (i.castLE h) ↔
      (f.ident e.1).bind fields.find? = some i := by
    simp only [Option.bind_eq_some_iff, Fields.find?_eq_some_iff, hext.names_iff]
  simp only [hiff]

/-- What the smaller record accepts is accepted by the larger one, with the same values for the
fields of both, exactly if it is a map that names each field of the larger one once. -/
theorem record_extends (h : n < n') (hext : fields'.Extends fields h.le) {v : Fin n → δ}
    (hv : f.record fields doc = some v) {w : Fin n' → δ} :
    f.record fields' doc = some w ↔ (∀ i, w (i.castLE h.le) = v i) ∧
      ∃ entries, f.shape doc = .map entries ∧
        ∀ i, n ≤ i.val → f.values fields' i entries = [w i] := by
  rw [record_eq_some_iff] at hv ⊢
  rcases hv with ⟨entries, hshape, hkeyed, hvalues⟩ | hseq
  · simp only [hshape, Shape.map.injEq, exists_eq_left', reduceCtorEq, or_false, hkeyed, true_and]
    constructor
    · intro hall
      refine ⟨fun i => ?_, fun i _ => hall i⟩
      have := hall (i.castLE h.le)
      rw [values_castLE hext, hvalues] at this
      exact (List.singleton_inj.mp this).symm
    · rintro ⟨hold, hnew⟩ i
      by_cases hi : n ≤ i.val
      · exact hnew i hi
      · obtain ⟨j, rfl⟩ : ∃ j : Fin n, i = j.castLE h.le := ⟨⟨i, not_le.mp hi⟩, rfl⟩
        rw [values_castLE hext, hvalues, hold]
  · -- A sequence has as many items as the smaller record has fields.
    simp only [hseq, reduceCtorEq, false_and, exists_false, and_false, false_or, Shape.seq.injEq,
      iff_false]
    intro heq
    have := congrArg List.length heq
    simp only [List.length_ofFn] at this
    omega

end Format

end Core.Serde
