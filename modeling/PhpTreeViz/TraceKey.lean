import PhpTreeViz.Api.Query
import PhpTreeViz.Storage.Schema

/-!
# Trace keys

The key of a trace is computed from its `meta` block. It names files, locks and rows, so that two
traces with one key would become one. A real UUID is the key itself, without hyphens and in lower
case; everything else is hashed.
-/

namespace PhpTreeViz

open Core

namespace TraceKey

/-! ### The computation -/

def allZeroTraceId : String := "00000000-0000-0000-0000-000000000000"

/-- The loop of `real_uuid_stem` from the byte `i` on. -/
def stemDigits : ℕ → List UInt8 → Option (List UInt8)
  | _, []      => some []
  | i, b :: bs =>
    if i = 8 ∨ i = 13 ∨ i = 18 ∨ i = 23 then stemDigits (i + 1) bs
    else if ¬ IsAsciiHexdigit b then none
    else (stemDigits (i + 1) bs).map (toAsciiLowercase b :: ·)

def realUuidStem (s : String) : Option String :=
  let bs := bytes s
  if bs.length ≠ 36 then none
  else if bs[8]? ≠ some 45 ∨ bs[13]? ≠ some 45 ∨ bs[18]? ≠ some 45 ∨ bs[23]? ≠ some 45 then none
  else (stemDigits 0 bs).map asciiString

/-- What is fed to the hasher. -/
def hashInput (m : Meta) : List UInt8 :=
  bytes m.host ++ leBytes 8 m.pid.toNat ++ leBytes 8 m.startTime.toUInt64.toNat

def synthesize (sha256 : List UInt8 → Vector UInt8 32) (m : Meta) : String :=
  asciiString (hexEncode ((sha256 (hashInput m)).toList.take 16))

def fromMeta (sha256 : List UInt8 → Vector UInt8 32) (m : Meta) : TraceKey :=
  if m.traceId = allZeroTraceId then ⟨synthesize sha256 m⟩
  else
    match realUuidStem m.traceId with
    | some stem => ⟨stem⟩
    | none      => ⟨synthesize sha256 m⟩

/-! ### UUIDs -/

/-- The byte at the offset `i` of a UUID. -/
def UuidByte (i : ℕ) (b : UInt8) : Prop :=
  if i ∈ [8, 13, 18, 23] then b = 45 else IsAsciiHexdigit b

/-- 36 bytes, of which four are hyphens and the others hexadecimal digits. -/
structure IsUuid (s : List UInt8) : Prop where
  length : s.length = 36
  bytes : ∀ i b, s[i]? = some b → UuidByte i b

/-- A UUID that stands for a trace, in contrast to the placeholder of zeros. -/
structure IsRealUuid (s : String) : Prop where
  isUuid : IsUuid (bytes s)
  ne_allZero : s ≠ allZeroTraceId

section stemDigits

variable {i : ℕ} {b : UInt8} {bs bs' ds : List UInt8}

lemma forall_getElem?_cons {P : ℕ → UInt8 → Prop} :
    (∀ j c, (b :: bs)[j]? = some c → P (i + j) c) ↔
      P i b ∧ ∀ j c, bs[j]? = some c → P (i + 1 + j) c := by
  constructor
  · intro h
    refine ⟨h 0 b rfl, fun j c hc => ?_⟩
    have := h (j + 1) c hc
    rwa [show i + (j + 1) = i + 1 + j by omega] at this
  · rintro ⟨hb, hbs⟩ j c hc
    cases j with
    | zero   => exact Option.some.inj hc ▸ hb
    | succ j =>
      rw [show i + (j + 1) = i + 1 + j by omega]
      exact hbs j c hc

lemma stemDigits_hyphen (hi : i ∈ [8, 13, 18, 23]) :
    stemDigits i (b :: bs) = stemDigits (i + 1) bs := by
  rw [stemDigits, if_pos (by simpa using hi)]

lemma stemDigits_digit (hi : i ∉ [8, 13, 18, 23]) (hb : IsAsciiHexdigit b) :
    stemDigits i (b :: bs) = (stemDigits (i + 1) bs).map (toAsciiLowercase b :: ·) := by
  rw [stemDigits, if_neg (by simpa using hi), if_neg (not_not.mpr hb)]

/-- The loop takes the digits of a UUID in lower case. -/
lemma stemDigits_of_uuidByte (h : ∀ j c, bs[j]? = some c → UuidByte (i + j) c) :
    ∃ ds, stemDigits i bs = some ds ∧ (∀ d ∈ ds, d ∈ lowerHexdigits) ∧
      ds.length = ((List.range' i bs.length).filter (· ∉ [8, 13, 18, 23])).length := by
  induction bs generalizing i with
  | nil => exact ⟨[], rfl, by simp, rfl⟩
  | cons b bs ih =>
    obtain ⟨hb, hbs⟩ := forall_getElem?_cons.mp h
    obtain ⟨ds, hds, hhex, hlen⟩ := ih hbs
    rw [List.length_cons, List.range'_succ]
    by_cases hi : i ∈ [8, 13, 18, 23]
    · rw [stemDigits_hyphen hi, List.filter_cons_of_neg (by rwa [decide_eq_true_eq, not_not])]
      exact ⟨ds, hds, hhex, hlen⟩
    · rw [UuidByte, if_neg hi] at hb
      rw [stemDigits_digit hi hb, List.filter_cons_of_pos (by simpa using hi), hds]
      refine ⟨_, rfl, ?_, by rw [List.length_cons, List.length_cons, hlen]⟩
      rw [List.forall_mem_cons]
      exact ⟨hb.toAsciiLowercase_mem, hhex⟩

/-- Only digits get through the loop. -/
lemma isAsciiHexdigit_of_stemDigits (h : stemDigits i bs = some ds) :
    ∀ j c, bs[j]? = some c → i + j ∉ [8, 13, 18, 23] → IsAsciiHexdigit c := by
  induction bs generalizing i ds with
  | nil => simp
  | cons b bs ih =>
    rw [forall_getElem?_cons (P := fun k c => k ∉ [8, 13, 18, 23] → IsAsciiHexdigit c)]
    by_cases hi : i ∈ [8, 13, 18, 23]
    · rw [stemDigits_hyphen hi] at h
      exact ⟨fun hne => absurd hi hne, ih h⟩
    · by_cases hb : IsAsciiHexdigit b
      · rw [stemDigits_digit hi hb] at h
        obtain ⟨ds', hds', -⟩ := Option.map_eq_some_iff.mp h
        exact ⟨fun _ => hb, ih hds'⟩
      · rw [stemDigits, if_neg (by simpa using hi), if_pos hb] at h
        cases h

/-- The digits determine a UUID up to the case. -/
lemma stemDigits_eq_iff (hlen : bs.length = bs'.length)
    (h : ∀ j c, bs[j]? = some c → UuidByte (i + j) c)
    (h' : ∀ j c, bs'[j]? = some c → UuidByte (i + j) c) :
    stemDigits i bs = stemDigits i bs' ↔
      bs.map toAsciiLowercase = bs'.map toAsciiLowercase := by
  induction bs generalizing i bs' with
  | nil =>
    obtain rfl : bs' = [] := List.length_eq_zero_iff.mp hlen.symm
    simp
  | cons b bs ih =>
    obtain ⟨b', bs', rfl⟩ := List.exists_cons_of_length_eq_add_one hlen.symm
    obtain ⟨hb, hbs⟩ := forall_getElem?_cons.mp h
    obtain ⟨hb', hbs'⟩ := forall_getElem?_cons.mp h'
    have htail := ih (Nat.succ.inj hlen) hbs hbs'
    by_cases hi : i ∈ [8, 13, 18, 23]
    · rw [UuidByte, if_pos hi] at hb hb'
      rw [stemDigits_hyphen hi, stemDigits_hyphen hi, htail, hb, hb', List.map_cons, List.map_cons,
        List.cons_inj_right]
    · rw [UuidByte, if_neg hi] at hb hb'
      obtain ⟨ds, hds, -⟩ := stemDigits_of_uuidByte hbs
      obtain ⟨ds', hds', -⟩ := stemDigits_of_uuidByte hbs'
      rw [hds, hds'] at htail
      rw [stemDigits_digit hi hb, stemDigits_digit hi hb', hds, hds', List.map_cons, List.map_cons,
        List.cons.injEq, ← htail]
      simp

end stemDigits

/-! ### Stems -/

section realUuidStem

variable {s t : String}

lemma realUuidStem_of_isUuid (h : IsUuid (bytes s)) :
    ∃ ds, stemDigits 0 (bytes s) = some ds ∧ realUuidStem s = some (asciiString ds) ∧
      (∀ d ∈ ds, d ∈ lowerHexdigits) ∧ ds.length = 32 := by
  obtain ⟨ds, hds, hhex, hlen⟩ := stemDigits_of_uuidByte (i := 0) fun j c hc => by
    rw [Nat.zero_add]
    exact h.bytes j c hc
  have hhyphen : ∀ i ∈ [8, 13, 18, 23], (bytes s)[i]? = some 45 := by
    intro i hi
    have hlt : i < (bytes s).length := by
      rw [h.length]
      simp only [List.mem_cons, List.not_mem_nil, or_false] at hi
      omega
    have hbyte := h.bytes i _ (List.getElem?_eq_getElem hlt)
    rw [UuidByte, if_pos hi] at hbyte
    rw [List.getElem?_eq_getElem hlt, hbyte]
  refine ⟨ds, hds, ?_, hhex, ?_⟩
  · rw [realUuidStem, if_neg (not_not.mpr h.length), if_neg (by simp [hhyphen]), hds]
    rfl
  · rw [hlen, h.length]
    decide

lemma isUuid_of_realUuidStem {stem : String} (h : realUuidStem s = some stem) :
    IsUuid (bytes s) := by
  rw [realUuidStem] at h
  split_ifs at h with hlen hhyphen
  obtain ⟨ds, hds, -⟩ := Option.map_eq_some_iff.mp h
  simp only [not_or, not_not] at hlen hhyphen
  obtain ⟨h8, h13, h18, h23⟩ := hhyphen
  refine ⟨hlen, fun i b hb => ?_⟩
  rw [UuidByte]
  split_ifs with hi
  · simp only [List.mem_cons, List.not_mem_nil, or_false] at hi
    rcases hi with rfl | rfl | rfl | rfl
    · exact Option.some.inj (hb.symm.trans h8)
    · exact Option.some.inj (hb.symm.trans h13)
    · exact Option.some.inj (hb.symm.trans h18)
    · exact Option.some.inj (hb.symm.trans h23)
  · exact isAsciiHexdigit_of_stemDigits hds i b hb (by rwa [Nat.zero_add])

lemma toNat_lt_of_mem_lowerHexdigits {ds : List UInt8} (h : ∀ d ∈ ds, d ∈ lowerHexdigits) :
    ∀ d ∈ ds, d.toNat < 128 := by
  have hall : ∀ d ∈ lowerHexdigits, d.toNat < 128 := by decide
  exact fun d hd => hall d (h d hd)

lemma realUuidStem_eq_iff (hs : IsUuid (bytes s)) (ht : IsUuid (bytes t)) :
    realUuidStem s = realUuidStem t ↔
      (bytes s).map toAsciiLowercase = (bytes t).map toAsciiLowercase := by
  have hdigits := stemDigits_eq_iff (i := 0) (hs.length.trans ht.length.symm)
    (by simpa using hs.bytes) (by simpa using ht.bytes)
  obtain ⟨ds, hds, hstem, hhex, -⟩ := realUuidStem_of_isUuid hs
  obtain ⟨ds', hds', hstem', hhex', -⟩ := realUuidStem_of_isUuid ht
  rw [hds, hds', Option.some.injEq] at hdigits
  rw [hstem, hstem', Option.some.injEq, ← hdigits]
  refine ⟨fun h => ?_, congrArg asciiString⟩
  rw [← bytes_asciiString (toNat_lt_of_mem_lowerHexdigits hhex), h,
    bytes_asciiString (toNat_lt_of_mem_lowerHexdigits hhex')]

end realUuidStem

lemma realUuidStem_allZero :
    realUuidStem allZeroTraceId = some "00000000000000000000000000000000" := by decide

lemma isUuid_allZero : IsUuid (bytes allZeroTraceId) :=
  isUuid_of_realUuidStem realUuidStem_allZero

/-- The placeholder has no letters, so that no other UUID has its digits. -/
lemma eq_allZero_of_lowercase {s : String} (h : (bytes s).map toAsciiLowercase =
    (bytes allZeroTraceId).map toAsciiLowercase) : s = allZeroTraceId := by
  have hzero : (bytes allZeroTraceId).map toAsciiLowercase = bytes allZeroTraceId := by decide
  have hlow : ∀ b ∈ bytes allZeroTraceId, b < 97 := by decide
  rw [hzero] at h
  have hself : ∀ b ∈ bytes s, toAsciiLowercase b = b := by
    intro b hb
    have hmem : toAsciiLowercase b ∈ bytes allZeroTraceId := h ▸ List.mem_map_of_mem hb
    exact (eq_of_toAsciiLowercase_eq (hlow _ hmem) rfl).symm
  rw [List.map_congr_left hself, List.map_id'] at h
  exact bytes_inj.mp h

/-! ### The law -/

section fromMeta

variable {sha256 : List UInt8 → Vector UInt8 32} {m m' : Meta}

lemma fromMeta_of_isRealUuid (sha256 : List UInt8 → Vector UInt8 32) (h : IsRealUuid m.traceId) :
    realUuidStem m.traceId = some (fromMeta sha256 m).stem := by
  obtain ⟨ds, -, hstem, -⟩ := realUuidStem_of_isUuid h.isUuid
  rw [fromMeta, if_neg h.ne_allZero, hstem]

lemma fromMeta_of_not_isRealUuid (h : ¬ IsRealUuid m.traceId) :
    (fromMeta sha256 m).stem = synthesize sha256 m := by
  rw [fromMeta]
  split_ifs with hzero
  · rfl
  · cases hstem : realUuidStem m.traceId with
    | none      => rfl
    | some stem => exact absurd ⟨isUuid_of_realUuidStem hstem, hzero⟩ h

/-- In any case the stem consists of 32 digits. -/
lemma exists_digits (sha256 : List UInt8 → Vector UInt8 32) (m : Meta) :
    ∃ ds, (fromMeta sha256 m).stem = asciiString ds ∧ (∀ d ∈ ds, d ∈ lowerHexdigits) ∧
      ds.length = 32 := by
  by_cases h : IsRealUuid m.traceId
  · obtain ⟨ds, -, hstem, hhex, hlen⟩ := realUuidStem_of_isUuid h.isUuid
    exact ⟨ds, Option.some.inj ((fromMeta_of_isRealUuid sha256 h).symm.trans hstem), hhex, hlen⟩
  · refine ⟨_, fromMeta_of_not_isRealUuid h, mem_lowerHexdigits_of_mem_hexEncode, ?_⟩
    rw [length_hexEncode, List.length_take, Vector.length_toList]
    rfl

lemma hashInput_inj : hashInput m = hashInput m' ↔
    m.host = m'.host ∧ m.pid = m'.pid ∧ m.startTime = m'.startTime := by
  have hpid : leBytes 8 m.pid.toNat = leBytes 8 m'.pid.toNat ↔ m.pid = m'.pid := by
    rw [leBytes_inj m.pid.toNat_lt m'.pid.toNat_lt, UInt64.toNat_inj]
  have hstart : leBytes 8 m.startTime.toUInt64.toNat = leBytes 8 m'.startTime.toUInt64.toNat ↔
      m.startTime = m'.startTime := by
    rw [leBytes_inj (UInt64.toNat_lt _) (UInt64.toNat_lt _), UInt64.toNat_inj]
    exact ⟨congrArg Int64.ofUInt64, congrArg Int64.toUInt64⟩
  rw [← bytes_inj, ← hpid, ← hstart]
  constructor
  · intro h
    obtain ⟨hfirst, hlast⟩ := List.append_inj' h (by simp)
    obtain ⟨hhost, hmiddle⟩ := List.append_inj' hfirst (by simp)
    exact ⟨hhost, hmiddle, hlast⟩
  · rintro ⟨hhost, hmiddle, hlast⟩
    rw [hashInput, hashInput, hhost, hmiddle, hlast]

end fromMeta

/-- What the keys are for: they are well-formed, those of UUIDs are the UUIDs, and no two traces
feed the hasher the same bytes. -/
structure KeyLaw (sha256 : List UInt8 → Vector UInt8 32) : Prop where
  shape : ∀ m, (fromMeta sha256 m).stem.toList.length = 32 ∧
    ∀ c ∈ (fromMeta sha256 m).stem.toList, c ∈ "0123456789abcdef".toList
  valid : ∀ m, isValidTraceKey (bytes (fromMeta sha256 m).stem)
  uuid : ∀ m m', IsRealUuid m.traceId → IsRealUuid m'.traceId →
    (fromMeta sha256 m = fromMeta sha256 m' ↔
      (bytes m.traceId).map toAsciiLowercase = (bytes m'.traceId).map toAsciiLowercase)
  ne_zero : ∀ m, IsRealUuid m.traceId →
    (fromMeta sha256 m).stem ≠ "00000000000000000000000000000000"
  synthesized : ∀ m, ¬ IsRealUuid m.traceId → bytes (fromMeta sha256 m).stem =
    hexEncode ((sha256 (hashInput m)).toList.take 16)
  input : ∀ m m', hashInput m = hashInput m' ↔
    m.host = m'.host ∧ m.pid = m'.pid ∧ m.startTime = m'.startTime

theorem keyLaw (sha256 : List UInt8 → Vector UInt8 32) : KeyLaw sha256 where
  shape m := by
    obtain ⟨ds, hstem, hhex, hlen⟩ := exists_digits sha256 m
    have hchar : ∀ d ∈ lowerHexdigits, Char.ofUInt8 d ∈ "0123456789abcdef".toList := by decide
    rw [hstem, asciiString, String.toList_ofList, List.length_map]
    exact ⟨hlen, List.forall_mem_map.mpr fun d hd => hchar d (hhex d hd)⟩
  valid m := by
    obtain ⟨ds, hstem, hhex, hlen⟩ := exists_digits sha256 m
    rw [hstem, bytes_asciiString (toNat_lt_of_mem_lowerHexdigits hhex), isValidTraceKey_iff]
    exact Or.inl ⟨hlen, hhex⟩
  uuid m m' h h' := by
    rw [← realUuidStem_eq_iff h.isUuid h'.isUuid, fromMeta_of_isRealUuid sha256 h,
      fromMeta_of_isRealUuid sha256 h', Option.some.injEq]
    exact ⟨congrArg TraceKey.stem, congrArg TraceKey.mk⟩
  ne_zero m h hzero := by
    have heq : realUuidStem m.traceId = realUuidStem allZeroTraceId := by
      rw [realUuidStem_allZero, ← hzero]
      exact fromMeta_of_isRealUuid sha256 h
    exact h.ne_allZero (eq_allZero_of_lowercase
      ((realUuidStem_eq_iff h.isUuid isUuid_allZero).mp heq))
  synthesized m h := by
    rw [fromMeta_of_not_isRealUuid h, synthesize, bytes_asciiString]
    exact toNat_lt_of_mem_lowerHexdigits mem_lowerHexdigits_of_mem_hexEncode
  input _ _ := hashInput_inj

example : fromMeta (fun _ => Vector.replicate 32 0xab)
    { (default : Meta) with traceId := "01890D1C-12cd-7c0a-9d4b-5e2f6a3b8c19" } =
      ⟨"01890d1c12cd7c0a9d4b5e2f6a3b8c19"⟩ := by decide

end TraceKey

end PhpTreeViz
