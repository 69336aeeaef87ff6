import Mathlib.Data.Fin.VecNotation
import Mathlib.Data.Fintype.Basic
import PhpTreeViz.Core.Serde
import PhpTreeViz.Wire

/-!
# The parsers of the wire format

`parse_meta` runs on the request path and decodes the `meta` block alone, `parse_batch` runs in the
decoder task and decodes the whole batch. Both decode the document that the same reader finds in the
body. The reader is a parameter, with what its documents are as keys and as scalars; translated are
the records and their fields.
-/

namespace PhpTreeViz

open Core.Serde

/-! ### Fields -/

def Meta.fields : Fields 8 where
  name := !["schema_version", "trace_id", "host", "pid", "start_time", "sapi", "uri_or_script",
    "dropped_records"]
  injective := by decide

def DictEntry.fields : Fields 5 where
  name := !["fn_id", "fqn", "file", "line", "kind"]
  injective := by decide

/-- The wire key of the function is `fn`. -/
def Call.fields : Fields 11 where
  name := !["call_id", "parent", "fn", "depth", "t_in", "t_out", "cpu_u", "cpu_s", "mem_in",
    "mem_out", "abnormal_exit"]
  injective := by decide

def Batch.fields : Fields 3 where
  name := !["meta", "dict", "calls"]
  injective := by decide

def BatchHeader.fields : Fields 1 where
  name := !["meta"]
  injective := by decide

/-! ### Parsers -/

section parse

variable {δ : Type} (f : Format δ)

def Meta.decode (doc : δ) : Option Meta := do
  let v ← f.record Meta.fields doc
  return {
    schemaVersion := ← f.u32 (v 0)
    traceId := ← f.string (v 1)
    host := ← f.string (v 2)
    pid := ← f.u64 (v 3)
    startTime := ← f.i64 (v 4)
    sapi := ← f.string (v 5)
    uriOrScript := ← f.string (v 6)
    droppedRecords := ← f.u64 (v 7) }

def DictEntry.decode (doc : δ) : Option DictEntry := do
  let v ← f.record DictEntry.fields doc
  return {
    fnId := ← f.u32 (v 0)
    fqn := ← f.string (v 1)
    file := ← f.string (v 2)
    line := ← f.u32 (v 3)
    kind := ← f.u8 (v 4) }

def Call.decode (doc : δ) : Option Call := do
  let v ← f.record Call.fields doc
  return {
    callId := ← f.u32 (v 0)
    parent := ← f.u32 (v 1)
    fnId := ← f.u32 (v 2)
    depth := ← f.u32 (v 3)
    tIn := ← f.i64 (v 4)
    tOut := ← f.i64 (v 5)
    cpuU := ← f.i64 (v 6)
    cpuS := ← f.i64 (v 7)
    memIn := ← f.i64 (v 8)
    memOut := ← f.i64 (v 9)
    abnormalExit := ← f.bool (v 10) }

def Batch.decode (doc : δ) : Option Batch := do
  let v ← f.record Batch.fields doc
  return {
    metaBlock := ← Meta.decode f (v 0)
    dict := ← f.list (DictEntry.decode f) (v 1)
    calls := ← f.list (Call.decode f) (v 2) }

def parseMeta (body : List UInt8) : Option Meta := do
  let doc ← f.read body
  let header ← f.record BatchHeader.fields doc
  Meta.decode f (header 0)

def parseBatch (body : List UInt8) : Option Batch := do
  let doc ← f.read body
  Batch.decode f doc

variable {f} {body : List UInt8} {m : Meta} {b : Batch}

lemma parseMeta_eq_some_iff :
    parseMeta f body = some m ↔ ∃ doc v, f.read body = some doc ∧
      f.record BatchHeader.fields doc = some v ∧ Meta.decode f (v 0) = some m := by
  simp [parseMeta, Option.bind_eq_some_iff]

lemma parseBatch_eq_some_iff :
    parseBatch f body = some b ↔ ∃ doc v, f.read body = some doc ∧
      f.record Batch.fields doc = some v ∧ Meta.decode f (v 0) = some b.metaBlock ∧
      f.list (DictEntry.decode f) (v 1) = some b.dict ∧
      f.list (Call.decode f) (v 2) = some b.calls := by
  obtain ⟨m, dict, calls⟩ := b
  simp [parseBatch, Batch.decode, Option.bind_eq_some_iff]

/-- The document of the body is a map that has exactly one `dict` and exactly one `calls`, and they
are well formed. -/
def HasDictAndCalls (f : Format δ) (body : List UInt8) (dict : List DictEntry)
    (calls : List Call) : Prop :=
  ∃ doc entries d c, f.read body = some doc ∧ f.shape doc = .map entries ∧
    f.values Batch.fields 1 entries = [d] ∧ f.list (DictEntry.decode f) d = some dict ∧
    f.values Batch.fields 2 entries = [c] ∧ f.list (Call.decode f) c = some calls

lemma extends_header : Batch.fields.Extends BatchHeader.fields (by decide) := fun 0 => rfl

/-- Of a body that `parse_meta` accepts, `parse_batch` decodes the same `meta` block, and it does so
exactly if the body also has a `dict` and `calls`. -/
theorem parseBatch_iff_of_parseMeta (hmeta : parseMeta f body = some m) :
    parseBatch f body = some b ↔ b.metaBlock = m ∧ HasDictAndCalls f body b.dict b.calls := by
  obtain ⟨doc, v, hread, hheader, hm⟩ := parseMeta_eq_some_iff.mp hmeta
  rw [parseBatch_eq_some_iff]
  constructor
  · rintro ⟨doc', v', hread', hv', hm', hdict, hcalls⟩
    obtain rfl : doc = doc' := Option.some.inj (hread.symm.trans hread')
    obtain ⟨hold, entries, hshape, hnew⟩ :=
      (Format.record_extends (by decide) extends_header hheader).mp hv'
    have h0 : v' 0 = v 0 := hold 0
    rw [h0, hm] at hm'
    exact ⟨(Option.some.inj hm').symm, doc, entries, v' 1, v' 2, hread, hshape,
      hnew 1 (by decide), hdict, hnew 2 (by decide), hcalls⟩
  · rintro ⟨rfl, doc', entries, d, c, hread', hshape, hd, hdict, hc, hcalls⟩
    obtain rfl : doc = doc' := Option.some.inj (hread.symm.trans hread')
    have hrecord := Format.record_extends (by decide) extends_header hheader (w := ![v 0, d, c])
    refine ⟨doc, ![v 0, d, c], hread, hrecord.mpr ⟨?_, entries, hshape, ?_⟩, hm, hdict, hcalls⟩
    · intro i
      obtain rfl : i = 0 := Subsingleton.elim i 0
      rfl
    · intro i hi
      match i, hi with
      | 1, _ => exact hd
      | 2, _ => exact hc

end parse

/-! ### MessagePack -/

/-- A MessagePack document. Floats and extensions are never looked at. `raw` is a string that is not
UTF-8. -/
inductive Msg where
  | nil
  | bool (b : Bool)
  | uint (k : ℕ)
  | int (z : ℤ)
  | float
  | str (s : String)
  | raw
  | bin (bytes : ByteArray)
  | array (items : List Msg)
  | map (entries : List (Msg × Msg))
  | ext

namespace Msg

def shape : Msg → Shape Msg
  | .array items => .seq items
  | .map entries => .map entries
  | _            => .scalar

def ident : Msg → Option Ident
  | .str s     => some (.name s)
  | .raw       => some .other
  | .bin bytes => some ((String.fromUTF8? bytes).elim .other .name)
  | .uint k    => some (.index k)
  | _          => none

def int? : Msg → Option ℤ
  | .uint k => some k
  | .int z  => some z
  | _       => none

/-- An integer in the given range, whichever way it is encoded. -/
def inRange (lo hi : ℤ) (doc : Msg) : Option ℤ := doc.int?.filter fun z => lo ≤ z ∧ z < hi

def format (read : List UInt8 → Option Msg) : Format Msg where
  read := read
  shape := shape
  ident := ident
  bool
    | .bool b => some b
    | _       => none
  u8 doc := (doc.inRange 0 (2 ^ 8)).map fun z => UInt8.ofNat z.toNat
  u32 doc := (doc.inRange 0 (2 ^ 32)).map fun z => UInt32.ofNat z.toNat
  u64 doc := (doc.inRange 0 (2 ^ 64)).map fun z => UInt64.ofNat z.toNat
  i64 doc := (doc.inRange (-2 ^ 63) (2 ^ 63)).map Int64.ofInt
  string
    | .str s     => some s
    | .bin bytes => String.fromUTF8? bytes
    | _          => none

end Msg

end PhpTreeViz
