import PhpTreeViz.Core.Bytes

/-!
# Percent-encoding and form data

The encodings that a browser has for texts in a URL, and their decoders. In form data a space is
written as a plus sign, so plus signs become spaces before anything else is decoded, and a plus sign
itself has to be percent-encoded. What has been encoded is decoded to the same text, and the
separators of form data do not occur in it.
-/

namespace Core

/-! ### Percent-encoding -/

/-- The value of a hexadecimal digit -/
def hexValue (b : UInt8) : Option UInt8 :=
  if 48 ≤ b ∧ b ≤ 57 then some (b - 48)
  else if 65 ≤ b ∧ b ≤ 70 then some (b - 55)
  else if 97 ≤ b ∧ b ≤ 102 then some (b - 87)
  else none

/-- The digit for a value below 16 -/
def upperHexdigit (n : UInt8) : UInt8 := if n < 10 then n + 48 else n + 55

/-- `%XX` -/
def percentByte (b : UInt8) : List UInt8 := [37, upperHexdigit (b / 16), upperHexdigit (b % 16)]

/-- All bytes but the ones in `safe` are written as `%XX`. -/
def percentEncode (safe s : List UInt8) : List UInt8 :=
  s.flatMap fun b => if b ∈ safe then [b] else percentByte b

/-- A percent sign that two digits do not follow stands for itself. -/
def percentDecode : List UInt8 → List UInt8
  | b :: hi :: lo :: s =>
    if b = 37 then
      match hexValue hi, hexValue lo with
      | some m, some n => (16 * m + n) :: percentDecode s
      | _, _           => b :: percentDecode (hi :: lo :: s)
    else b :: percentDecode (hi :: lo :: s)
  | s => s

/-- What holds of the 256 bytes, one by one, holds of every byte. -/
lemma forall_byte {p : UInt8 → Prop} (h : ∀ n < 256, p (UInt8.ofNat n)) (b : UInt8) : p b := by
  have hb := h b.toNat b.toNat_lt
  rwa [UInt8.ofNat_toNat] at hb

/-- The two digits of a byte -/
lemma hexValue_percentByte (b : UInt8) : ∃ m n, hexValue (upperHexdigit (b / 16)) = some m ∧
    hexValue (upperHexdigit (b % 16)) = some n ∧ 16 * m + n = b := by
  refine ⟨b / 16, b % 16, ?_⟩
  revert b
  exact forall_byte (by decide +kernel)

lemma mem_percentByte {b c : UInt8} (h : c ∈ percentByte b) :
    c = 37 ∨ c ∈ bytes "0123456789ABCDEF" := by
  have hall : ∀ b : UInt8, ∀ c ∈ percentByte b, c = 37 ∨ c ∈ bytes "0123456789ABCDEF" :=
    forall_byte (by decide +kernel)
  exact hall b c h

section percent

variable {safe s rest : List UInt8} {b c : UInt8}

lemma mem_percentEncode (h : c ∈ percentEncode safe s) :
    c ∈ safe ∨ c = 37 ∨ c ∈ bytes "0123456789ABCDEF" := by
  obtain ⟨b, -, hc⟩ := List.mem_flatMap.mp h
  split_ifs at hc with hb
  · exact .inl (List.mem_singleton.mp hc ▸ hb)
  · exact .inr (mem_percentByte hc)

lemma percentEncode_cons (safe : List UInt8) (b : UInt8) (s : List UInt8) :
    percentEncode safe (b :: s) =
      (if b ∈ safe then [b] else percentByte b) ++ percentEncode safe s := rfl

lemma percentEncode_append (safe s t : List UInt8) :
    percentEncode safe (s ++ t) = percentEncode safe s ++ percentEncode safe t :=
  List.flatMap_append

/-- The codes are safe themselves. -/
lemma forall_mem_percentEncode (h : ∀ b ∈ 37 :: bytes "0123456789ABCDEF", b ∈ safe)
    (s : List UInt8) : ∀ b ∈ percentEncode safe s, b ∈ safe := fun _ hb =>
  (mem_percentEncode hb).elim id fun hcode => h _ (List.mem_cons.mpr hcode)

lemma percentDecode_cons_of_ne (h : b ≠ 37) (s : List UInt8) :
    percentDecode (b :: s) = b :: percentDecode s := by
  match s with
  | [] => rfl
  | [_] => rfl
  | _ :: _ :: _ => rw [percentDecode, if_neg h]

lemma percentDecode_percentByte (b : UInt8) (s : List UInt8) :
    percentDecode (percentByte b ++ s) = b :: percentDecode s := by
  obtain ⟨m, n, hm, hn, hb⟩ := hexValue_percentByte b
  rw [percentByte, List.cons_append, List.cons_append, List.cons_append, List.nil_append,
    percentDecode, if_pos rfl, hm, hn]
  exact congrArg (· :: percentDecode s) hb

/-- What was encoded is decoded, whatever comes after it. -/
theorem percentDecode_percentEncode (h : 37 ∉ safe) (s rest : List UInt8) :
    percentDecode (percentEncode safe s ++ rest) = s ++ percentDecode rest := by
  induction s with
  | nil => rfl
  | cons b s ih =>
    rw [percentEncode, List.flatMap_cons, List.append_assoc]
    change percentDecode (_ ++ (percentEncode safe s ++ rest)) = _
    split_ifs with hb
    · rw [List.singleton_append, percentDecode_cons_of_ne (ne_of_mem_of_not_mem hb h), ih,
        List.cons_append]
    · rw [percentDecode_percentByte, ih, List.cons_append]

lemma percentDecode_percentEncode_self (h : 37 ∉ safe) (s : List UInt8) :
    percentDecode (percentEncode safe s) = s := by
  simpa [percentDecode] using percentDecode_percentEncode h s []

/-- There is nothing to encode. -/
lemma percentEncode_of_forall (h : ∀ b ∈ s, b ∈ safe) : percentEncode safe s = s := by
  induction s with
  | nil => rfl
  | cons b s ih =>
    rw [List.forall_mem_cons] at h
    rw [percentEncode, List.flatMap_cons, if_pos h.1]
    exact congrArg (b :: ·) (ih h.2)

/-- To encode once more encodes what the first encoder left and the second one does not. -/
lemma percentEncode_percentEncode {safe' : List UInt8}
    (h : ∀ b ∈ 37 :: bytes "0123456789ABCDEF", b ∈ safe) (s : List UInt8) :
    percentEncode safe (percentEncode safe' s) = percentEncode (safe'.filter (· ∈ safe)) s := by
  have hbyte : ∀ b, percentEncode safe (percentByte b) = percentByte b := fun b =>
    percentEncode_of_forall fun c hc => h c (List.mem_cons.mpr (mem_percentByte hc))
  induction s with
  | nil => rfl
  | cons b s ih =>
    rw [percentEncode_cons, percentEncode_append, ih, percentEncode_cons]
    by_cases hb : b ∈ safe'
    · simp [hb, percentEncode]
    · rw [if_neg hb, hbyte, if_neg fun hmem => hb (List.mem_filter.mp hmem).1]

/-- A text without a percent sign is not changed. -/
lemma percentDecode_of_notMem (h : 37 ∉ s) : percentDecode s = s := by
  induction s with
  | nil => rfl
  | cons b s ih =>
    rw [List.mem_cons, not_or] at h
    rw [percentDecode_cons_of_ne (Ne.symm h.1), ih h.2]

end percent

/-! ### Form data -/

/-- `A-Za-z0-9` -/
def alphanumerics : List UInt8 :=
  bytes "ABCDEFGHIJKLMNOPQRSTUVWXYZabcdefghijklmnopqrstuvwxyz0123456789"

/-- The bytes that the serializer of form data leaves as they are -/
def formSafe : List UInt8 := alphanumerics ++ bytes "*-._"

/-- A name or a value in form data: a space becomes a plus sign. -/
def formEncode (s : List UInt8) : List UInt8 :=
  (percentEncode (32 :: formSafe) s).map fun b => if b = 32 then 43 else b

/-- `urldecode` -/
def formDecode (s : List UInt8) : List UInt8 :=
  percentDecode (s.map fun b => if b = 43 then 32 else b)

/-- `name=value&name=value` -/
def formSerialize (pairs : List (List UInt8 × List UInt8)) : List UInt8 :=
  [38].intercalate (pairs.map fun p => formEncode p.1 ++ 61 :: formEncode p.2)

/-- Cut at each `&`, and what is not empty at the first `=` in it. -/
def formParse (s : List UInt8) : List (List UInt8 × List UInt8) :=
  ((s.splitOn 38).filter (· ≠ [])).map fun p =>
    (formDecode (p.takeWhile (· ≠ 61)), formDecode (p.dropWhile (· ≠ 61)).tail)

section form

variable {safe s : List UInt8} {c : UInt8}

lemma notMem_percentEncode (hsafe : c ∉ safe) (hpercent : c ≠ 37)
    (hdigit : c ∉ bytes "0123456789ABCDEF") : c ∉ percentEncode safe s := fun hc =>
  (mem_percentEncode hc).elim hsafe fun h => h.elim hpercent hdigit

/-- Bytes that do not occur may be mapped to anything. -/
lemma map_of_notMem {l : List UInt8} {x y : UInt8} (h : x ∉ l) :
    l.map (fun b => if b = x then y else b) = l := by
  conv_rhs => rw [← List.map_id l]
  refine List.map_congr_left fun b hb => if_neg ?_
  exact ne_of_mem_of_not_mem hb h

/-- A plus sign that was in the text has been encoded. -/
theorem formDecode_percentEncode (hpercent : 37 ∉ safe) (hplus : 43 ∉ safe) (s : List UInt8) :
    formDecode (percentEncode safe s) = s := by
  have hnot : 43 ∉ percentEncode safe s := notMem_percentEncode hplus (by decide) (by decide)
  rw [formDecode, map_of_notMem hnot, percentDecode_percentEncode_self hpercent]

/-- The plus signs of form data stand for its spaces. -/
theorem formDecode_formEncode (s : List UInt8) : formDecode (formEncode s) = s := by
  have hnot : 43 ∉ percentEncode (32 :: formSafe) s :=
    notMem_percentEncode (by decide) (by decide) (by decide)
  have hback : (formEncode s).map (fun b => if b = 43 then 32 else b) =
      percentEncode (32 :: formSafe) s := by
    rw [formEncode, List.map_map]
    conv_rhs => rw [← List.map_id (percentEncode (32 :: formSafe) s)]
    refine List.map_congr_left fun b hb => ?_
    have hne : b ≠ 43 := ne_of_mem_of_not_mem hb hnot
    rw [Function.comp_apply]
    by_cases h32 : b = 32
    · rw [if_pos h32, if_pos rfl, h32]
      rfl
    · rw [if_neg h32, if_neg hne]
      rfl
  rw [formDecode, hback, percentDecode_percentEncode_self (by decide)]

/-- A text without plus signs and percent signs is not changed. -/
lemma formDecode_of_notMem (hpercent : 37 ∉ s) (hplus : 43 ∉ s) : formDecode s = s := by
  rw [formDecode, map_of_notMem hplus, percentDecode_of_notMem hpercent]

/-- The separators have been encoded. -/
lemma notMem_formEncode (hc : c = 38 ∨ c = 61) : c ∉ formEncode s := by
  intro hmem
  obtain ⟨b, hb, heq⟩ := List.mem_map.mp hmem
  split_ifs at heq with h32
  · rcases hc with rfl | rfl
    · exact absurd heq (by decide)
    · exact absurd heq (by decide)
  · subst heq
    revert hb
    rcases hc with rfl | rfl
    · exact notMem_percentEncode (by decide) (by decide) (by decide)
    · exact notMem_percentEncode (by decide) (by decide) (by decide)

/-- A text that is cut at the first of its separators -/
lemma takeWhile_ne_append {rest : List UInt8} (h : c ∉ s)
    (hrest : rest.head? = some c ∨ rest = []) : (s ++ rest).takeWhile (· ≠ c) = s := by
  have hne : ∀ b ∈ s, decide (b ≠ c) = true := fun b hb =>
    decide_eq_true (ne_of_mem_of_not_mem hb h)
  rw [List.takeWhile_append_of_pos hne]
  rcases hrest with hrest | rfl
  · obtain ⟨rest, rfl⟩ := List.head?_eq_some_iff.mp hrest
    rw [List.takeWhile_cons_of_neg (by simp), List.append_nil]
  · rw [List.takeWhile_nil, List.append_nil]

lemma dropWhile_ne_append {rest : List UInt8} (h : c ∉ s)
    (hrest : rest.head? = some c ∨ rest = []) : (s ++ rest).dropWhile (· ≠ c) = rest := by
  have hne : ∀ b ∈ s, decide (b ≠ c) = true := fun b hb =>
    decide_eq_true (ne_of_mem_of_not_mem hb h)
  rw [List.dropWhile_append_of_pos hne]
  rcases hrest with hrest | rfl
  · obtain ⟨rest, rfl⟩ := List.head?_eq_some_iff.mp hrest
    rw [List.dropWhile_cons_of_neg (by simp)]
  · rw [List.dropWhile_nil]

lemma intercalate_cons_eq (sep : UInt8) (p : List UInt8) (parts : List (List UInt8)) :
    [sep].intercalate (p :: parts) = p ++ parts.flatMap (sep :: ·) := by
  induction parts generalizing p with
  | nil => rw [List.intercalate_singleton, List.flatMap_nil, List.append_nil]
  | cons q parts ih =>
    rw [List.intercalate_cons_cons, ih, List.append_assoc, List.flatMap_cons]
    rfl

/-- To split at a separator undoes to join with it, if it does not occur elsewhere. -/
lemma splitOn_intercalate {sep : UInt8} {parts : List (List UInt8)} (hne : parts ≠ [])
    (h : ∀ p ∈ parts, sep ∉ p) : ([sep].intercalate parts).splitOn sep = parts := by
  induction parts with
  | nil => exact absurd rfl hne
  | cons p parts ih =>
    rw [List.forall_mem_cons] at h
    cases parts with
    | nil =>
      rw [List.intercalate_singleton, List.splitOn_eq_singleton h.1]
    | cons q parts =>
      rw [List.intercalate_cons_cons, List.append_assoc, List.singleton_append,
        List.splitOn_append_cons_self_of_not_mem h.1, ih (List.cons_ne_nil _ _) h.2]

/-- What was serialized is parsed again. -/
theorem formParse_formSerialize (pairs : List (List UInt8 × List UInt8)) :
    formParse (formSerialize pairs) = pairs := by
  cases pairs with
  | nil => rfl
  | cons pair pairs =>
    set parts := (pair :: pairs).map fun p => formEncode p.1 ++ 61 :: formEncode p.2 with hparts
    have hsplit : (formSerialize (pair :: pairs)).splitOn 38 = parts := by
      refine splitOn_intercalate (by simp) fun p hp => ?_
      obtain ⟨x, -, rfl⟩ := List.mem_map.mp hp
      rw [List.mem_append, List.mem_cons]
      rintro (hmem | hmem | hmem)
      · exact notMem_formEncode (.inl rfl) hmem
      · exact absurd hmem (by decide)
      · exact notMem_formEncode (.inl rfl) hmem
    have hfilter : parts.filter (· ≠ []) = parts := by
      refine List.filter_eq_self.mpr fun p hp => ?_
      obtain ⟨x, -, rfl⟩ := List.mem_map.mp hp
      simp
    rw [formParse, hsplit, hfilter, hparts, List.map_map]
    refine (List.map_congr_left fun x _ => ?_).trans (List.map_id _)
    have hname : ∀ b ∈ formEncode x.1, decide (b ≠ 61) = true := fun b hb =>
      decide_eq_true (ne_of_mem_of_not_mem hb (notMem_formEncode (.inr rfl)))
    rw [Function.comp_apply, List.takeWhile_append_of_pos hname,
      List.dropWhile_append_of_pos hname, List.takeWhile_cons_of_neg (by decide),
      List.dropWhile_cons_of_neg (by decide), List.append_nil, List.tail_cons,
      formDecode_formEncode, formDecode_formEncode]
    rfl

/-- One pair, whose value has been encoded in any way that leaves no separators -/
theorem formParse_pair {name : List UInt8} (hname : ∀ b ∈ name, b ∈ alphanumerics)
    (hsafe : ∀ b ∈ [37, 38, 43], b ∉ safe) (value : List UInt8) :
    formParse (name ++ 61 :: percentEncode safe value) = [(name, value)] := by
  have hnot : ∀ b ∈ [37, 38, 43, 61], b ∉ name := fun b hb hmem =>
    (by decide : ∀ b ∈ [37, 38, 43, 61], b ∉ alphanumerics) b hb (hname b hmem)
  have hamp : 38 ∉ name ++ 61 :: percentEncode safe value := by
    rw [List.mem_append, List.mem_cons]
    rintro (hmem | heq | hmem)
    · exact hnot 38 (by decide) hmem
    · exact absurd heq (by decide)
    · exact notMem_percentEncode (hsafe 38 (by decide)) (by decide) (by decide) hmem
  have hequals : 61 ∉ name := hnot 61 (by decide)
  have hfilter : [name ++ 61 :: percentEncode safe value].filter (· ≠ []) =
      [name ++ 61 :: percentEncode safe value] := by simp
  rw [formParse, List.splitOn_eq_singleton hamp, hfilter, List.map_singleton,
    takeWhile_ne_append hequals (.inl rfl), dropWhile_ne_append hequals (.inl rfl), List.tail_cons,
    formDecode_of_notMem (hnot 37 (by decide)) (hnot 43 (by decide)),
    formDecode_percentEncode (hsafe 37 (by decide)) (hsafe 43 (by decide))]

end form

end Core
