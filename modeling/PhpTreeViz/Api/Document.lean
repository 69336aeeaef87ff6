import PhpTreeViz.Api.Config

/-!
# Documents and their texts

A document is what a configuration means: sections that bind keys to values. A text of it has the
same lines, among any number of blank lines and comments, with spaces, tabs and comments at their
ends. Whatever the text, the loader returns the bindings of the document.
-/

namespace PhpTreeViz

open Core

/-! ### Documents -/

structure ConfigSection where
  name : List UInt8
  bindings : List (List UInt8 × Scalar)

abbrev Document := List ConfigSection

namespace Document

def bindings (doc : Document) : List ((List UInt8 × List UInt8) × Scalar) :=
  doc.flatMap fun s => s.bindings.map fun b => ((s.name, b.1), b.2)

/-- The last value that is bound to the key. -/
def lookup (doc : Document) (sec key : List UInt8) : Option Scalar :=
  ((doc.bindings.filter (·.1 = (sec, key))).getLast?).map Prod.snd

end Document

/-- What a line stands for. -/
inductive Entry where
  | header (name : List UInt8)
  | binding (key : List UInt8) (value : Scalar)

def Document.entries (doc : Document) : List Entry :=
  doc.flatMap fun s => .header s.name :: s.bindings.map fun b => .binding b.1 b.2

/-! ### Texts -/

def IsBlank (ws : List UInt8) : Prop := ∀ b ∈ ws, b = 32 ∨ b = 9

instance (ws : List UInt8) : Decidable (IsBlank ws) := List.decidableBAll _ ws

structure IsName (name : List UInt8) : Prop where
  ne_nil : name ≠ []
  bytes : ∀ b ∈ name, b ∈ nameBytes

/-- A backslash before backslashes and quotes, and letters for what ends a line and for tabs. -/
def escapeByte (b : UInt8) : List UInt8 :=
  if b = 92 then [92, 92]
  else if b = 34 then [92, 34]
  else if b = 10 then [92, 110]
  else if b = 13 then [92, 114]
  else if b = 9 then [92, 116]
  else [b]

def escape (s : List UInt8) : List UInt8 := s.flatMap escapeByte

/-- How a value is written. -/
inductive ValueText : Scalar → List UInt8 → Prop where
  | boolTrue : ValueText (.bool true) (bytes "true")
  | boolFalse : ValueText (.bool false) (bytes "false")
  | nat {ds : List UInt8} : ds ≠ [] → (∀ d ∈ ds, IsDigit d) → InI64 (decimal ds) →
      ValueText (.int (decimal ds)) ds
  | neg {ds : List UInt8} : ds ≠ [] → (∀ d ∈ ds, IsDigit d) → InI64 (-decimal ds) →
      ValueText (.int (-decimal ds)) (45 :: ds)
  | string (s : List UInt8) : ValueText (.string s) (34 :: escape s ++ [34])

/-- What may follow a value on its line. -/
inductive TailText : List UInt8 → Prop where
  | blank {ws : List UInt8} : IsBlank ws → TailText ws
  | comment {ws text : List UInt8} : IsBlank ws → IsLine text → TailText (ws ++ 35 :: text)

/-- How a line is written, and what it stands for. -/
inductive LineText : Option Entry → List UInt8 → Prop where
  | skip {l : List UInt8} : TailText l → LineText none l
  | header {ws name ws' : List UInt8} : IsBlank ws → IsName name → IsBlank ws' →
      LineText (some (.header name)) (ws ++ 91 :: (name ++ 93 :: ws'))
  | binding {ws key ws₁ ws₂ text tail : List UInt8} {value : Scalar} : IsBlank ws → IsName key →
      IsBlank ws₁ → IsBlank ws₂ → ValueText value text → TailText tail →
      LineText (some (.binding key value)) (ws ++ (key ++ (ws₁ ++ 61 :: (ws₂ ++ (text ++ tail)))))

inductive LinesText : List Entry → List (List UInt8) → Prop where
  | nil : LinesText [] []
  | skip {es : List Entry} {l : List UInt8} {ls : List (List UInt8)} : LineText none l →
      LinesText es ls → LinesText es (l :: ls)
  | entry {e : Entry} {es : List Entry} {l : List UInt8} {ls : List (List UInt8)} :
      LineText (some e) l → LinesText es ls → LinesText (e :: es) (l :: ls)

/-- A text of the document. -/
inductive Document.Text (doc : Document) : List UInt8 → Prop where
  | lines {ls : List (List UInt8 × Ending)} {last : List UInt8} :
      LinesText doc.entries (ls.map Prod.fst ++ [last]) → doc.Text (joinLines ls last)

/-! ### Strings -/

/-- Either a byte stands for itself, or a pair of bytes stands for it. -/
lemma escapeByte_cases (b : UInt8) :
    (escapeByte b = [b] ∧ b ≠ 92 ∧ b ≠ 34 ∧ b ≠ 10 ∧ b ≠ 13) ∨
      ∃ c, escapeByte b = [92, c] ∧ unescapeByte c = some b ∧ c ≠ 10 ∧ c ≠ 13 := by
  rw [escapeByte]
  split_ifs with h₁ h₂ h₃ h₄ h₅
  · exact Or.inr ⟨92, rfl, by rw [h₁]; rfl, by decide, by decide⟩
  · exact Or.inr ⟨34, rfl, by rw [h₂]; rfl, by decide, by decide⟩
  · exact Or.inr ⟨110, rfl, by rw [h₃]; rfl, by decide, by decide⟩
  · exact Or.inr ⟨114, rfl, by rw [h₄]; rfl, by decide, by decide⟩
  · exact Or.inr ⟨116, rfl, by rw [h₅]; rfl, by decide, by decide⟩
  · exact Or.inl ⟨rfl, h₁, h₂, h₃, h₄⟩

lemma isLine_escape (s : List UInt8) : IsLine (escape s) := by
  intro b hb
  obtain ⟨a, -, hb⟩ := List.mem_flatMap.mp hb
  rcases escapeByte_cases a with ⟨heq, -, -, hlf, hcr⟩ | ⟨c, heq, -, hlf, hcr⟩
  · rw [heq, List.mem_singleton] at hb
    exact hb ▸ ⟨hlf, hcr⟩
  · rw [heq] at hb
    simp only [List.mem_cons, List.not_mem_nil, or_false] at hb
    rcases hb with rfl | rfl
    · decide
    · exact ⟨hlf, hcr⟩

/-- The comment stripper leaves the string where it ends. -/
lemma stripFrom_escape (s t : List UInt8) :
    stripFrom true false (escape s ++ 34 :: t) = escape s ++ 34 :: stripFrom false false t := by
  induction s with
  | nil => rfl
  | cons b s ih =>
    rw [escape, List.flatMap_cons, ← escape, List.append_assoc]
    rcases escapeByte_cases b with ⟨heq, hslash, hquote, -⟩ | ⟨c, heq, -⟩
    · rw [heq, List.singleton_append, stripFrom, if_pos rfl, if_neg Bool.false_ne_true,
        if_neg hslash, if_neg hquote, ih]
      rfl
    · rw [heq]
      show 92 :: c :: stripFrom true false (escape s ++ 34 :: t) = _
      rw [ih]
      rfl

lemma matchInner_cons {rounds : ℕ} {b : UInt8} {s : List UInt8} (hquote : b ≠ 34)
    (hslash : b ≠ 92) (hs : s ≠ []) : matchInner rounds (b :: s) =
      if rounds = 0 then none else (matchInner (rounds - 1) s).map (b :: ·) := by
  obtain ⟨c, s, rfl⟩ := List.exists_cons_of_ne_nil hs
  rw [matchInner, if_neg hquote, if_neg hslash]

lemma matchInner_escaped {rounds : ℕ} {c : UInt8} (hc : c ≠ 10) (s : List UInt8) :
    matchInner rounds (92 :: c :: s) =
      if rounds = 0 then none
      else (matchInner (rounds - 1) s).map fun inner => 92 :: c :: inner := by
  rw [matchInner, if_neg (by decide), if_pos rfl, if_neg hc]

/-- One more round -/
lemma map_rounds {α β : Type} (rounds n : ℕ) (x : α) (f : α → β) :
    (if rounds = 0 then none else (if n ≤ rounds - 1 then some x else none).map f) =
      if n + 1 ≤ rounds then some (f x) else none := by
  by_cases hzero : rounds = 0
  · rw [if_pos hzero, if_neg (by omega)]
  · rw [if_neg hzero]
    by_cases hle : n ≤ rounds - 1
    · rw [if_pos hle, if_pos (by omega), Option.map_some]
    · rw [if_neg hle, if_neg (by omega), Option.map_none]

/-- The pattern finds the same end, if it gets there. It takes one round for each byte. -/
lemma matchInner_escape (rounds : ℕ) (s : List UInt8) : matchInner rounds (escape s ++ [34]) =
    if s.length ≤ rounds then some (escape s) else none := by
  induction s generalizing rounds with
  | nil => rfl
  | cons b s ih =>
    rw [escape, List.flatMap_cons, ← escape, List.append_assoc, List.length_cons]
    rcases escapeByte_cases b with ⟨heq, hslash, hquote, -⟩ | ⟨c, heq, -, hc, -⟩
    · rw [heq, List.singleton_append, matchInner_cons hquote hslash (by simp), ih]
      exact map_rounds _ _ _ _
    · rw [heq]
      show matchInner rounds (92 :: c :: (escape s ++ [34])) = _
      rw [matchInner_escaped hc, ih]
      exact map_rounds _ _ _ _

lemma unescapeString_cons {b : UInt8} (hb : b ≠ 92) (s : List UInt8) :
    unescapeString (b :: s) = (unescapeString s).map (b :: ·) := by
  cases s with
  | nil      => rfl
  | cons c s => rw [unescapeString, if_neg fun h => hb h.1]

lemma unescapeString_escaped {c d : UInt8} (hc : c ≠ 10) (hd : unescapeByte c = some d)
    (s : List UInt8) : unescapeString (92 :: c :: s) = (unescapeString s).map (d :: ·) := by
  rw [unescapeString, if_pos ⟨rfl, hc⟩, hd]

/-- What is between the quotes stands for the string. -/
lemma unescapeString_escape (s : List UInt8) : unescapeString (escape s) = .ok s := by
  induction s with
  | nil => rfl
  | cons b s ih =>
    rw [escape, List.flatMap_cons, ← escape]
    rcases escapeByte_cases b with ⟨heq, hslash, -⟩ | ⟨c, heq, hd, hc, -⟩
    · rw [heq, List.singleton_append, unescapeString_cons hslash, ih]
      rfl
    · rw [heq]
      show unescapeString (92 :: c :: escape s) = _
      rw [unescapeString_escaped hc hd, ih]
      rfl

/-! ### Values -/

/-- The pattern of a string gets to the end of the value. -/
def Scalar.Matches : Scalar → Prop
  | .string s => s.length ≤ jitRounds
  | _         => True

/-- A byte that is no whitespace, by whatever measure. -/
def IsSolid (b : UInt8) : Prop := b ∉ trimmedBytes ∧ b ∉ spaceBytes

instance (b : UInt8) : Decidable (IsSolid b) := inferInstanceAs (Decidable (_ ∧ _))

lemma solid_of_isDigit {b : UInt8} (h : IsDigit b) :
    IsSolid b ∧ b ≠ 34 ∧ b ≠ 35 ∧ b ≠ 95 ∧ b ≠ 116 ∧ b ≠ 102 := by
  have hall : ∀ b ∈ bytes "0123456789",
      IsSolid b ∧ b ≠ 34 ∧ b ≠ 35 ∧ b ≠ 95 ∧ b ≠ 116 ∧ b ≠ 102 := by decide
  exact hall b h

lemma IsSolid.isLine {b : UInt8} (h : IsSolid b) : b ≠ 10 ∧ b ≠ 13 := by
  constructor
  · rintro rfl
    exact h.1 (by decide)
  · rintro rfl
    exact h.1 (by decide)

lemma stripFrom_plain {l : List UInt8} (h : ∀ b ∈ l, b ≠ 34 ∧ b ≠ 35) (t : List UInt8) :
    stripFrom false false (l ++ t) = l ++ stripFrom false false t := by
  induction l with
  | nil => rfl
  | cons b l ih =>
    obtain ⟨⟨hquote, hhash⟩, hl⟩ := List.forall_mem_cons.mp h
    rw [List.cons_append, stripFrom, if_neg Bool.false_ne_true, if_neg hquote, if_neg hhash, ih hl]
    rfl

namespace ValueText

variable {value : Scalar} {text : List UInt8}

lemma first (h : ValueText value text) : ∃ b s, text = b :: s ∧ IsSolid b := by
  cases h with
  | boolTrue   => exact ⟨_, _, rfl, by decide⟩
  | boolFalse  => exact ⟨_, _, rfl, by decide⟩
  | nat hne hds _ =>
    obtain ⟨d, ds, rfl⟩ := List.exists_cons_of_ne_nil hne
    exact ⟨d, ds, rfl, (solid_of_isDigit (hds d List.mem_cons_self)).1⟩
  | neg _ _ _  => exact ⟨_, _, rfl, by decide⟩
  | string s   => exact ⟨34, escape s ++ [34], rfl, by decide⟩

lemma last (h : ValueText value text) : ∃ s b, text = s ++ [b] ∧ IsSolid b := by
  cases h with
  | boolTrue   => exact ⟨bytes "tru", 101, rfl, by decide⟩
  | boolFalse  => exact ⟨bytes "fals", 101, rfl, by decide⟩
  | nat hne hds _ =>
    refine ⟨text.dropLast, text.getLast hne, (List.dropLast_append_getLast hne).symm, ?_⟩
    exact (solid_of_isDigit (hds _ (List.getLast_mem hne))).1
  | @neg ds hne hds _ =>
    refine ⟨45 :: ds.dropLast, ds.getLast hne, ?_,
      (solid_of_isDigit (hds _ (List.getLast_mem hne))).1⟩
    rw [List.cons_append, List.dropLast_append_getLast hne]
  | string s   => exact ⟨34 :: escape s, 34, rfl, by decide⟩

lemma isLine (h : ValueText value text) : IsLine text := by
  cases h with
  | boolTrue      => exact (by decide : ∀ b ∈ bytes "true", b ≠ 10 ∧ b ≠ 13)
  | boolFalse     => exact (by decide : ∀ b ∈ bytes "false", b ≠ 10 ∧ b ≠ 13)
  | nat _ hds _   => exact fun d hd => (solid_of_isDigit (hds d hd)).1.isLine
  | neg _ hds _   =>
    exact List.forall_mem_cons.mpr
      ⟨by decide, fun d hd => (solid_of_isDigit (hds d hd)).1.isLine⟩
  | string s      =>
    refine List.forall_mem_cons.mpr ⟨by decide, List.forall_mem_append.mpr ⟨isLine_escape s, ?_⟩⟩
    exact List.forall_mem_singleton.mpr (by decide)

/-- The comment stripper gets past a value. -/
lemma stripFrom_append (h : ValueText value text) (t : List UInt8) :
    stripFrom false false (text ++ t) = text ++ stripFrom false false t := by
  have hdigits : ∀ ds : List UInt8, (∀ d ∈ ds, IsDigit d) → ∀ d ∈ ds, d ≠ 34 ∧ d ≠ 35 :=
    fun ds hds d hd => ⟨(solid_of_isDigit (hds d hd)).2.1, (solid_of_isDigit (hds d hd)).2.2.1⟩
  cases h with
  | boolTrue      => exact stripFrom_plain (l := bytes "true") (by decide) t
  | boolFalse     => exact stripFrom_plain (l := bytes "false") (by decide) t
  | nat _ hds _   => exact stripFrom_plain (hdigits _ hds) t
  | neg _ hds _   =>
    exact stripFrom_plain (List.forall_mem_cons.mpr ⟨by decide, hdigits _ hds⟩) t
  | string s      =>
    show 34 :: stripFrom true false (escape s ++ [34] ++ t) =
      34 :: (escape s ++ [34] ++ stripFrom false false t)
    rw [List.append_assoc, List.append_assoc]
    exact congrArg (34 :: ·) (stripFrom_escape s t)

end ValueText

lemma signed_rmatch {cs sign ds : List UInt8} {d : UInt8} (hsign : sign = [] ∨ sign = [45])
    (hds : ∀ c ∈ d :: ds, c ∈ cs) :
    ((1 + RegularExpression.char 45) * (oneOf cs * (oneOf cs).star)).rmatch (sign ++ d :: ds) := by
  rw [RegularExpression.mul_rmatch_iff]
  refine ⟨sign, d :: ds, rfl, ?_, ?_⟩
  · rw [RegularExpression.add_rmatch_iff, RegularExpression.one_rmatch_iff,
      RegularExpression.char_rmatch_iff]
    exact hsign
  · rw [oneOf_mul_rmatch_iff]
    refine ⟨d, hds d List.mem_cons_self, ds, rfl, ?_⟩
    exact star_oneOf_rmatch_iff.mpr fun c hc => hds c (List.mem_cons_of_mem d hc)

/-- An integer is none of the other values, and no underscores are taken out of it. -/
lemma parseScalar_integer {path : String} {lineNum : ℕ} {sign ds : List UInt8}
    (hsign : sign = [] ∨ sign = [45]) (hne : ds ≠ []) (hds : ∀ d ∈ ds, IsDigit d) :
    parseScalar path lineNum (sign ++ ds) = .ok (.int (leadingInt (sign ++ ds))) := by
  obtain ⟨d, ds, rfl⟩ := List.exists_cons_of_ne_nil hne
  obtain ⟨b, s, hrest, hquote, ht, hf⟩ : ∃ b s, sign ++ d :: ds = b :: s ∧ b ≠ 34 ∧ b ≠ 116 ∧
      b ≠ 102 := by
    rcases hsign with rfl | rfl
    · obtain ⟨-, hquote, -, -, ht, hf⟩ := solid_of_isDigit (hds d List.mem_cons_self)
      exact ⟨d, ds, rfl, hquote, ht, hf⟩
    · exact ⟨45, d :: ds, rfl, by decide, by decide, by decide⟩
  have hspaced : pregMatch spacedInteger (sign ++ d :: ds) :=
    matchLine_iff.mpr (Or.inl (signed_rmatch hsign fun c hc =>
      (by decide : bytes "0123456789" ⊆ bytes "0123456789_") (hds c hc)))
  have hinteger : pregMatch integer (sign ++ d :: ds) :=
    matchLine_iff.mpr (Or.inl (signed_rmatch hsign hds))
  have hcompact : (sign ++ d :: ds).filter (· ≠ 95) = sign ++ d :: ds := by
    refine List.filter_eq_self.mpr fun c hc => decide_eq_true ?_
    rcases List.mem_append.mp hc with hc | hc
    · rcases hsign with rfl | rfl
      · exact absurd hc List.not_mem_nil
      · rw [List.mem_singleton.mp hc]
        decide
    · exact (solid_of_isDigit (hds c hc)).2.2.2.1
  have hnil : sign ++ d :: ds ≠ [] := by simp
  have htrue : sign ++ d :: ds ≠ bytes "true" :=
    fun heq => ht (List.cons.inj (hrest.symm.trans heq)).1
  have hfalse : sign ++ d :: ds ≠ bytes "false" :=
    fun heq => hf (List.cons.inj (hrest.symm.trans heq)).1
  have hhead : (sign ++ d :: ds).head? ≠ some 34 := by
    rw [hrest]
    exact fun heq => hquote (Option.some.inj heq)
  rw [parseScalar, if_neg hnil, if_neg htrue, if_neg hfalse, if_neg hhead, if_pos hspaced]
  simp only [hcompact, hinteger, Bool.not_true, Bool.false_eq_true, if_false]

/-- A string starts with a quote, which no other value does. -/
lemma parseScalar_string {path : String} {lineNum : ℕ} (s : List UInt8) :
    parseScalar path lineNum (34 :: escape s ++ [34]) =
      if s.length ≤ jitRounds then .ok (.string s)
      else .error (syntaxError path lineNum "unterminated or malformed string") := by
  have hmatch : matchString (34 :: escape s ++ [34]) =
      if s.length ≤ jitRounds then some (escape s) else none := matchInner_escape jitRounds s
  have hword : ∀ w : List UInt8, w.head? ≠ some 34 → 34 :: escape s ++ [34] ≠ w := by
    rintro w hw rfl
    exact hw rfl
  have hhead : (34 :: escape s ++ [34]).head? = some 34 := rfl
  rw [parseScalar, if_neg (hword [] (by decide)), if_neg (hword _ (by decide)),
    if_neg (hword _ (by decide)), if_pos hhead, hmatch]
  by_cases hlen : s.length ≤ jitRounds
  · rw [if_pos hlen, if_pos hlen]
    show (unescapeString (escape s)).map Scalar.string = _
    rw [unescapeString_escape]
    rfl
  · rw [if_neg hlen, if_neg hlen]

namespace ValueText

variable {value : Scalar} {text : List UInt8}

lemma parseScalar_eq (h : ValueText value text) (hmatches : value.Matches) (path : String)
    (lineNum : ℕ) : parseScalar path lineNum text = .ok value := by
  cases h with
  | boolTrue  => rfl
  | boolFalse => rfl
  | nat hne hds hfits =>
    have : parseScalar path lineNum ([] ++ _) = _ := parseScalar_integer (Or.inl rfl) hne hds
    rw [List.nil_append, leadingInt_digits hne hds] at this
    rw [this]
    obtain ⟨-, hhigh⟩ := hfits
    congr 2
    omega
  | neg hne hds hfits =>
    have : parseScalar path lineNum ([45] ++ _) = _ := parseScalar_integer (Or.inr rfl) hne hds
    rw [List.singleton_append, leadingInt_minus hds] at this
    rw [this]
    obtain ⟨hlow, -⟩ := hfits
    congr 2
    omega
  | string s => exact (parseScalar_string s).trans (if_pos hmatches)

/-- A string that is too long is taken for a malformed one. -/
lemma exists_parseScalar_error (h : ValueText value text) (hlong : ¬ value.Matches)
    (path : String) (lineNum : ℕ) : ∃ e, parseScalar path lineNum text = .error e := by
  cases h with
  | string s => exact ⟨_, (parseScalar_string s).trans (if_neg hlong)⟩
  | _        => exact absurd trivial hlong

end ValueText

/-! ### Lines -/

namespace IsBlank

variable {ws : List UInt8}

/-- What holds of a space and of a tab. -/
lemma forall_mem (h : IsBlank ws) {P : UInt8 → Prop} (hspace : P 32) (htab : P 9) :
    ∀ b ∈ ws, P b := by
  intro b hb
  rcases h b hb with rfl | rfl
  · exact hspace
  · exact htab

lemma trimmed (h : IsBlank ws) : ∀ b ∈ ws, b ∈ trimmedBytes :=
  h.forall_mem (by decide) (by decide)

lemma space (h : IsBlank ws) : ∀ b ∈ ws, b ∈ spaceBytes :=
  h.forall_mem (by decide) (by decide)

lemma plain (h : IsBlank ws) : ∀ b ∈ ws, b ≠ 34 ∧ b ≠ 35 :=
  h.forall_mem (by decide) (by decide)

lemma isLine (h : IsBlank ws) : IsLine ws :=
  h.forall_mem (by decide) (by decide)

end IsBlank

lemma solid_of_mem_nameBytes {b : UInt8} (h : b ∈ nameBytes) :
    IsSolid b ∧ b ≠ 35 ∧ b ≠ 91 ∧ b ≠ 61 := by
  have hall : ∀ b ∈ nameBytes, IsSolid b ∧ b ≠ 35 ∧ b ≠ 91 ∧ b ≠ 61 := by decide
  exact hall b h

lemma IsName.isLine {name : List UInt8} (h : IsName name) : IsLine name :=
  fun b hb => (solid_of_mem_nameBytes (h.bytes b hb)).1.isLine

lemma TailText.isLine {tail : List UInt8} (h : TailText tail) : IsLine tail := by
  cases h with
  | blank hws         => exact hws.isLine
  | comment hws htext =>
    exact List.forall_mem_append.mpr ⟨hws.isLine, List.forall_mem_cons.mpr ⟨by decide, htext⟩⟩

lemma LineText.isLine {e : Option Entry} {l : List UInt8} (h : LineText e l) : IsLine l := by
  cases h with
  | skip htail => exact htail.isLine
  | header hws hname hws' =>
    refine List.forall_mem_append.mpr ⟨hws.isLine, List.forall_mem_cons.mpr ⟨by decide, ?_⟩⟩
    exact List.forall_mem_append.mpr
      ⟨hname.isLine, List.forall_mem_cons.mpr ⟨by decide, hws'.isLine⟩⟩
  | binding hws hkey hws₁ hws₂ hvalue htail =>
    refine List.forall_mem_append.mpr ⟨hws.isLine, List.forall_mem_append.mpr ⟨hkey.isLine,
      List.forall_mem_append.mpr ⟨hws₁.isLine, List.forall_mem_cons.mpr ⟨by decide, ?_⟩⟩⟩⟩
    exact List.forall_mem_append.mpr
      ⟨hws₂.isLine, List.forall_mem_append.mpr ⟨hvalue.isLine, htail.isLine⟩⟩

section parseLine

variable {path : String} {st : ParseState} {n : ℕ} {l : List UInt8}

lemma parseLine_skip (h : LineText none l) : parseLine path st (l, n) = .ok st := by
  cases h with
  | skip htail =>
    cases htail with
    | blank hws =>
      rw [parseLine, trim_of_forall hws.trimmed]
      rfl
    | @comment ws text hws _ =>
      have htrim : trim trimmedBytes (ws ++ 35 :: text) =
          35 :: text.rdropWhile (· ∈ trimmedBytes) := by
        rw [trim_append_cons hws.trimmed (by decide)]
        exact rdropWhile_append_cons (l := []) (by decide)
      rw [parseLine, htrim]
      rfl

lemma parseLine_header {name : List UInt8} (h : LineText (some (.header name)) l) :
    parseLine path st (l, n) = .ok ⟨st.sections.open name, some name⟩ := by
  cases h with
  | @header ws name ws' hws hname hws' =>
    have htrim : trim trimmedBytes (ws ++ 91 :: (name ++ 93 :: ws')) = 91 :: (name ++ [93]) := by
      rw [trim_append_cons hws.trimmed (by decide), ← List.cons_append,
        rdropWhile_append_cons (by decide), rdropWhile_of_forall hws'.trimmed]
      rfl
    have hmatch : pregMatch sectionHeader (91 :: (name ++ [93])) := by
      obtain ⟨b, name, rfl⟩ := List.exists_cons_of_ne_nil hname.ne_nil
      refine matchLine_iff.mpr (Or.inl ?_)
      rw [sectionHeader, RegularExpression.mul_rmatch_iff]
      refine ⟨91 :: b :: name, [93], rfl, ?_, (RegularExpression.char_rmatch_iff _ _).mpr rfl⟩
      rw [RegularExpression.mul_rmatch_iff]
      refine ⟨[91], b :: name, rfl, (RegularExpression.char_rmatch_iff _ _).mpr rfl, ?_⟩
      rw [oneOf_mul_rmatch_iff]
      refine ⟨b, hname.bytes b List.mem_cons_self, name, rfl, ?_⟩
      exact star_oneOf_rmatch_iff.mpr fun c hc => hname.bytes c (List.mem_cons_of_mem b hc)
    have hname : (91 :: (name ++ [93])).tail.dropLast = name := by
      rw [List.tail_cons, List.dropLast_concat]
    rw [parseLine, htrim]
    simp only [List.head?_cons, hmatch, Bool.not_true, Bool.false_eq_true, if_false, hname]

/-- Trimmed and without its comment, the rest of a line is blank. -/
lemma TailText.stripFrom {tail : List UInt8} (h : TailText tail) :
    ∃ ws, IsBlank ws ∧
      PhpTreeViz.stripFrom false false (tail.rdropWhile (· ∈ trimmedBytes)) = ws := by
  cases h with
  | blank hws =>
    rw [rdropWhile_of_forall hws.trimmed]
    exact ⟨[], by simp [IsBlank], rfl⟩
  | @comment ws text hws _ =>
    refine ⟨ws, hws, ?_⟩
    rw [rdropWhile_append_cons (by decide), stripFrom_plain hws.plain]
    exact List.append_nil ws

lemma matchAssignment_eq {key ws₁ ws₂ value : List UInt8} {b : UInt8} (hkey : IsName key)
    (hws₁ : IsBlank ws₁) (hws₂ : IsBlank ws₂) (hb : IsSolid b) :
    matchAssignment (key ++ (ws₁ ++ 61 :: (ws₂ ++ b :: value))) = some (key, b :: value) := by
  have hafter : ∀ c ∈ (ws₁ ++ 61 :: (ws₂ ++ b :: value)).head?, c ∉ nameBytes := by
    intro c hc hname
    obtain ⟨hsolid, -, -, heq⟩ := solid_of_mem_nameBytes hname
    cases ws₁ with
    | nil         => exact heq (Option.some.inj hc).symm
    | cons d ws₁' =>
      obtain rfl := Option.some.inj hc
      exact hsolid.2 (hws₁.space d List.mem_cons_self)
  have hequals : (ws₁ ++ 61 :: (ws₂ ++ b :: value)).dropWhile (· ∈ spaceBytes) =
      61 :: (ws₂ ++ b :: value) := by
    refine dropWhile_append_eq hws₁.space fun c hc => ?_
    obtain rfl := Option.some.inj hc
    decide
  have hvalue : (ws₂ ++ b :: value).dropWhile (· ∈ spaceBytes) = b :: value := by
    refine dropWhile_append_eq hws₂.space fun c hc => ?_
    obtain rfl := Option.some.inj hc
    exact hb.2
  simp only [matchAssignment, takeWhile_append_eq hkey.bytes hafter,
    dropWhile_append_eq hkey.bytes hafter, hequals, if_neg hkey.ne_nil, hvalue]

/-- The text of the value gets through the first two scanners. -/
lemma exists_parseLine_binding {key current : List UInt8} {value : Scalar}
    (h : LineText (some (.binding key value)) l) (hcurrent : st.current = some current) :
    ∃ text, ValueText value text ∧ parseLine path st (l, n) =
      (parseScalar path n text).map fun scalar =>
        ⟨st.sections.set current key scalar, some current⟩ := by
  cases h with
  | @binding ws _ ws₁ ws₂ text tail _ hws hkey hws₁ hws₂ hvalue htail =>
    obtain ⟨b, s, hfirst, hb⟩ := hvalue.first
    obtain ⟨s', b', hlast, hb'⟩ := hvalue.last
    obtain ⟨ws₃, hws₃, hstrip⟩ := htail.stripFrom
    obtain ⟨k, key', rfl⟩ := List.exists_cons_of_ne_nil hkey.ne_nil
    obtain ⟨hk, hhash, hbracket, -⟩ := solid_of_mem_nameBytes (hkey.bytes k List.mem_cons_self)
    have htrim : trim trimmedBytes (ws ++ ((k :: key') ++ (ws₁ ++ 61 :: (ws₂ ++ (text ++ tail))))) =
        (k :: key') ++ (ws₁ ++ 61 :: (ws₂ ++ (text ++ tail.rdropWhile (· ∈ trimmedBytes)))) := by
      rw [List.cons_append, trim_append_cons hws.trimmed hk.1, hlast]
      have hassoc : ∀ t : List UInt8, k :: (key' ++ (ws₁ ++ 61 :: (ws₂ ++ (s' ++ [b'] ++ t)))) =
          (k :: (key' ++ (ws₁ ++ 61 :: (ws₂ ++ s')))) ++ b' :: t := by simp
      rw [hassoc, rdropWhile_append_cons hb'.1, ← hassoc]
      rfl
    have hmatch : matchAssignment ((k :: key') ++ (ws₁ ++ 61 :: (ws₂ ++ (text ++
        tail.rdropWhile (· ∈ trimmedBytes))))) =
          some (k :: key', text ++ tail.rdropWhile (· ∈ trimmedBytes)) := by
      rw [hfirst, List.cons_append (a := b)]
      exact matchAssignment_eq hkey hws₁ hws₂ hb
    have hrest : trim trimmedBytes (stripTrailingComment (text ++
        tail.rdropWhile (· ∈ trimmedBytes))) = text := by
      rw [stripTrailingComment, hvalue.stripFrom_append, hstrip]
      have hleft : trim trimmedBytes ([] ++ b :: (s ++ ws₃)) =
          (b :: (s ++ ws₃)).rdropWhile (· ∈ trimmedBytes) := trim_append_cons (by simp) hb.1
      rw [hfirst, List.cons_append]
      refine hleft.trans ?_
      rw [← List.cons_append, ← hfirst, hlast, List.append_assoc, List.singleton_append,
        rdropWhile_append_cons hb'.1, rdropWhile_of_forall hws₃.trimmed]
    refine ⟨text, hvalue, ?_⟩
    rw [parseLine, htrim]
    dsimp only
    split
    · next hnone => cases hnone
    · next hhead => exact absurd (Option.some.inj hhead) hhash
    · next hhead => exact absurd (Option.some.inj hhead) hbracket
    · simp only [hcurrent, hmatch, hrest]
      cases parseScalar path n text with
      | ok scalar => rfl
      | error e   => rfl

/-- All scanners together. -/
lemma parseLine_binding {key current : List UInt8} {value : Scalar}
    (h : LineText (some (.binding key value)) l) (hcurrent : st.current = some current)
    (hmatches : value.Matches) :
    parseLine path st (l, n) = .ok ⟨st.sections.set current key value, some current⟩ := by
  obtain ⟨text, hvalue, hline⟩ := exists_parseLine_binding h hcurrent
  rw [hline, hvalue.parseScalar_eq hmatches]
  rfl

lemma exists_parseLine_error {key current : List UInt8} {value : Scalar}
    (h : LineText (some (.binding key value)) l) (hcurrent : st.current = some current)
    (hlong : ¬ value.Matches) : ∃ e, parseLine path st (l, n) = .error e := by
  obtain ⟨text, hvalue, hline⟩ := exists_parseLine_binding h hcurrent
  obtain ⟨e, herror⟩ := hvalue.exists_parseScalar_error hlong path n
  exact ⟨e, by rw [hline, herror]; rfl⟩

end parseLine

/-! ### Entries -/

/-- The sections hold the last bindings of the document, and nothing else. -/
structure Loads (sections : Sections) (doc : Document) : Prop where
  isSome : ∀ name, (sections name).isSome ↔ ∃ s ∈ doc, s.name = name
  get : ∀ sec key, sections.get sec key = doc.lookup sec key

namespace Sections

variable (sections : Sections) {sec sec' key key' : List UInt8} {value : Scalar}

lemma isSome_open : ((sections.open sec) sec').isSome ↔ sec' = sec ∨ (sections sec').isSome := by
  rw [«open»]
  split_ifs with h
  · exact ⟨Or.inr, fun hor => hor.elim (fun heq => heq ▸ h) id⟩
  · by_cases heq : sec' = sec
    · subst heq
      simp
    · simp [heq]

lemma get_open : (sections.open sec).get sec' key = sections.get sec' key := by
  rw [«open»]
  split_ifs with h
  · rfl
  · by_cases heq : sec' = sec
    · subst heq
      rw [Option.not_isSome_iff_eq_none] at h
      simp [get, h]
    · simp [get, Function.update_of_ne heq]

lemma isSome_set : ((sections.set sec key value) sec').isSome ↔
    sec' = sec ∨ (sections sec').isSome := by
  rw [set]
  by_cases heq : sec' = sec
  · subst heq
    simp
  · simp [heq]

lemma get_set : (sections.set sec key value).get sec' key' =
    if (sec, key) = (sec', key') then some value else sections.get sec' key' := by
  rw [set, get]
  by_cases hsec : sec' = sec
  · subst hsec
    by_cases hkey : key' = key
    · subst hkey
      simp
    · rw [if_neg fun h => hkey (Prod.mk.inj h).2.symm, Function.update_self, Option.bind_some,
        Function.update_of_ne hkey, get]
      cases sections sec' with
      | none   => rfl
      | some f => rfl
  · rw [if_neg fun h => hsec (Prod.mk.inj h).1.symm, Function.update_of_ne hsec, get]

end Sections

def Entry.Matches : Entry → Prop
  | .header _        => True
  | .binding _ value => value.Matches

namespace ParseState

/-- The state after a line that stands for the entry. -/
def apply (st : ParseState) : Entry → ParseState
  | .header name       => ⟨st.sections.open name, some name⟩
  | .binding key value =>
    match st.current with
    | some current => ⟨st.sections.set current key value, some current⟩
    | none         => st

lemma foldl_binding (bs : List (List UInt8 × Scalar)) (sections : Sections) (current : List UInt8) :
    ((bs.map fun b => Entry.binding b.1 b.2).foldl apply ⟨sections, some current⟩) =
      ⟨bs.foldl (fun sections b => sections.set current b.1 b.2) sections, some current⟩ := by
  induction bs generalizing sections with
  | nil          => rfl
  | cons b bs ih => exact ih _

end ParseState

section entries

variable {sections : Sections} {doc : Document} {sec key : List UInt8}

lemma get_foldl_set (bs : List (List UInt8 × Scalar)) (sections : Sections)
    (current : List UInt8) :
    (bs.foldl (fun sections b => sections.set current b.1 b.2) sections).get sec key =
      (Document.lookup [⟨current, bs⟩] sec key).or (sections.get sec key) := by
  induction bs generalizing sections with
  | nil => rfl
  | cons b bs ih =>
    rw [List.foldl_cons, ih, Sections.get_set]
    have hcons : Document.lookup [⟨current, b :: bs⟩] sec key =
        (Document.lookup [⟨current, bs⟩] sec key).or
          (if (current, b.1) = (sec, key) then some b.2 else none) := by
      simp only [Document.lookup, Document.bindings, List.flatMap_cons, List.flatMap_nil,
        List.append_nil, List.map_cons, List.filter_cons, decide_eq_true_eq]
      split_ifs with h
      · rw [List.getLast?_cons]
        cases List.getLast? _ with
        | none   => rfl
        | some c => rfl
      · rw [Option.or_none]
    rw [hcons, Option.or_assoc]
    split_ifs with h
    · rfl
    · rw [Option.none_or]

lemma lookup_cons (s : ConfigSection) (doc : Document) :
    Document.lookup (s :: doc) sec key =
      (Document.lookup doc sec key).or (Document.lookup [s] sec key) := by
  simp only [Document.lookup, Document.bindings, List.flatMap_cons, List.flatMap_nil,
    List.append_nil, List.filter_append, List.getLast?_append, Option.map_or]

lemma isSome_foldl_set (bs : List (List UInt8 × Scalar)) (sections : Sections)
    (current : List UInt8) (hcurrent : (sections current).isSome) (name : List UInt8) :
    ((bs.foldl (fun sections b => sections.set current b.1 b.2) sections) name).isSome ↔
      (sections name).isSome := by
  induction bs generalizing sections with
  | nil => rfl
  | cons b bs ih =>
    rw [List.foldl_cons, ih _ ((Sections.isSome_set sections).mpr (Or.inl rfl)),
      Sections.isSome_set]
    exact ⟨fun h => h.elim (fun heq => heq ▸ hcurrent) id, Or.inr⟩

/-- The entries of a document, one section after the other. -/
lemma foldl_entries (doc : Document) (st : ParseState) :
    (∀ name, ((doc.entries.foldl ParseState.apply st).sections name).isSome ↔
      (∃ s ∈ doc, s.name = name) ∨ (st.sections name).isSome) ∧
    ∀ sec key, (doc.entries.foldl ParseState.apply st).sections.get sec key =
      (doc.lookup sec key).or (st.sections.get sec key) := by
  induction doc generalizing st with
  | nil => exact ⟨fun name => by simp [Document.entries], fun sec key => rfl⟩
  | cons s doc ih =>
    have hentries : Document.entries (s :: doc) =
        (.header s.name :: s.bindings.map fun b => .binding b.1 b.2) ++ Document.entries doc := rfl
    rw [hentries, List.foldl_append, List.foldl_cons, ParseState.apply, ParseState.foldl_binding]
    obtain ⟨hsome, hget⟩ := ih ⟨s.bindings.foldl (fun sections b => sections.set s.name b.1 b.2)
      (st.sections.open s.name), some s.name⟩
    have hopen : ((st.sections.open s.name) s.name).isSome :=
      (Sections.isSome_open st.sections).mpr (Or.inl rfl)
    refine ⟨fun name => ?_, fun sec key => ?_⟩
    · rw [hsome, isSome_foldl_set _ _ _ hopen, Sections.isSome_open, List.exists_mem_cons_iff,
        eq_comm (a := name), ← or_assoc]
      exact or_congr or_comm Iff.rfl
    · rw [hget, get_foldl_set, Sections.get_open, lookup_cons s doc, Option.or_assoc]

lemma loads_foldl (doc : Document) :
    Loads (doc.entries.foldl ParseState.apply ⟨.empty, none⟩).sections doc := by
  obtain ⟨hsome, hget⟩ := foldl_entries doc ⟨.empty, none⟩
  refine ⟨fun name => ?_, fun sec key => ?_⟩
  · rw [hsome]
    simp [Sections.empty]
  · rw [hget]
    exact Option.or_none

end entries

/-! ### The loader -/

/-- The lines of a text stand for the entries of the document, whatever empty lines are lost. -/
lemma LinesText.dropsEmpty {es : List Entry} {ls ls' : List (List UInt8)} (h : LinesText es ls)
    (hdrop : DropsEmpty ls ls') : LinesText es ls' := by
  induction hdrop generalizing es with
  | nil => exact h
  | keep _ ih =>
    cases h with
    | skip hline hrest  => exact .skip hline (ih hrest)
    | entry hline hrest => exact .entry hline (ih hrest)
  | drop _ ih =>
    generalize hl : ([] : List UInt8) = l at h
    cases h with
    | skip _ hrest  => exact ih hrest
    | entry hline _ =>
      cases hline with
      | header _ _ _          => simp at hl
      | binding _ _ _ _ _ _   => simp at hl

lemma LinesText.isLine {es : List Entry} {ls : List (List UInt8)} (h : LinesText es ls) :
    ∀ l ∈ ls, IsLine l := by
  induction h with
  | nil                 => simp
  | skip hline _ ih     => exact List.forall_mem_cons.mpr ⟨hline.isLine, ih⟩
  | entry hline _ ih    => exact List.forall_mem_cons.mpr ⟨hline.isLine, ih⟩

/-- The loop over the lines, from a section on or from before the first one. -/
lemma foldlM_parseLine {path : String} {es : List Entry} {ls : List (List UInt8)}
    (h : LinesText es ls) (n : ℕ) (st : ParseState)
    (hcurrent : st.current = none → ∀ e ∈ es.head?, ∃ name, e = .header name)
    (hmatches : ∀ e ∈ es, e.Matches) :
    (ls.zipIdx n).foldlM (parseLine path) st = .ok (es.foldl ParseState.apply st) := by
  induction h generalizing n st with
  | nil => rfl
  | skip hline _ ih =>
    rw [List.zipIdx_cons, List.foldlM_cons, parseLine_skip hline]
    exact ih (n + 1) st hcurrent hmatches
  | @entry e es l ls hline _ ih =>
    obtain ⟨he, hes⟩ := List.forall_mem_cons.mp hmatches
    rw [List.zipIdx_cons, List.foldlM_cons, List.foldl_cons]
    cases e with
    | header name =>
      rw [parseLine_header hline]
      exact ih (n + 1) _ (fun hnone => by cases hnone) hes
    | binding key value =>
      cases hst : st.current with
      | none =>
        obtain ⟨name, hname⟩ := hcurrent hst _ rfl
        cases hname
      | some current =>
        rw [parseLine_binding hline hst he, ParseState.apply, hst]
        exact ih (n + 1) _ (fun hnone => by cases hnone) hes

/-- It stops at the first string that is too long. -/
lemma exists_foldlM_error {path : String} {es : List Entry} {ls : List (List UInt8)}
    (h : LinesText es ls) (n : ℕ) (st : ParseState)
    (hcurrent : st.current = none → ∀ e ∈ es.head?, ∃ name, e = .header name)
    (hlong : ∃ e ∈ es, ¬ e.Matches) :
    ∃ e, (ls.zipIdx n).foldlM (parseLine path) st = .error e := by
  induction h generalizing n st with
  | nil =>
    obtain ⟨e, he, -⟩ := hlong
    cases he
  | skip hline _ ih =>
    rw [List.zipIdx_cons, List.foldlM_cons, parseLine_skip hline]
    exact ih (n + 1) st hcurrent hlong
  | @entry e es l ls hline _ ih =>
    rw [List.zipIdx_cons, List.foldlM_cons]
    cases e with
    | header name =>
      rw [parseLine_header hline]
      refine ih (n + 1) _ (fun hnone => by cases hnone) ?_
      exact ((List.exists_mem_cons_iff _ _ _).mp hlong).resolve_left fun hnot => hnot trivial
    | binding key value =>
      cases hst : st.current with
      | none =>
        obtain ⟨name, hname⟩ := hcurrent hst _ rfl
        cases hname
      | some current =>
        by_cases hmatches : value.Matches
        · rw [parseLine_binding hline hst hmatches]
          refine ih (n + 1) _ (fun hnone => by cases hnone) ?_
          exact ((List.exists_mem_cons_iff _ _ _).mp hlong).resolve_left fun hnot => hnot hmatches
        · obtain ⟨e, herror⟩ := exists_parseLine_error hline hst hmatches
          exact ⟨e, by rw [herror]; rfl⟩

namespace Document

variable {doc : Document} {raw : List UInt8}

lemma head?_entries (doc : Document) : ∀ e ∈ doc.entries.head?, ∃ name, e = Entry.header name := by
  intro e he
  cases doc with
  | nil        => cases he
  | cons s doc => exact ⟨s.name, (Option.some.inj he).symm⟩

lemma forall_mem_entries : (∀ e ∈ doc.entries, e.Matches) ↔ ∀ b ∈ doc.bindings, b.2.Matches := by
  simp only [entries, bindings, List.mem_flatMap, List.mem_cons, List.mem_map]
  constructor
  · rintro h b ⟨s, hs, c, hc, rfl⟩
    exact h (.binding c.1 c.2) ⟨s, hs, .inr ⟨c, hc, rfl⟩⟩
  · rintro h e ⟨s, hs, rfl | ⟨c, hc, rfl⟩⟩
    · trivial
    · exact h ((s.name, c.1), c.2) ⟨s, hs, c, hc, rfl⟩

/-- The lines that the loader reads -/
lemma Text.linesText (h : doc.Text raw) : LinesText doc.entries (splitLines raw) := by
  cases h with
  | @lines ls last htext =>
    have hline := htext.isLine
    rw [List.forall_mem_append, List.forall_mem_map, List.forall_mem_singleton] at hline
    exact htext.dropsEmpty (dropsEmpty_splitLines hline.1 hline.2)

lemma Text.parseConfig_eq (h : doc.Text raw) (path : String)
    (hmatches : ∀ b ∈ doc.bindings, b.2.Matches) :
    parseConfig raw path = .ok (doc.entries.foldl ParseState.apply ⟨.empty, none⟩).sections := by
  rw [parseConfig, foldlM_parseLine h.linesText 1 ⟨.empty, none⟩ (fun _ => doc.head?_entries)
    (forall_mem_entries.mpr hmatches)]
  rfl

lemma Text.exists_parseConfig_error (h : doc.Text raw) (path : String)
    (hlong : ¬ ∀ b ∈ doc.bindings, b.2.Matches) : ∃ e, parseConfig raw path = .error e := by
  rw [← forall_mem_entries] at hlong
  push Not at hlong
  obtain ⟨e, herror⟩ := @exists_foldlM_error path _ _ h.linesText 1 ⟨.empty, none⟩
    (fun _ => doc.head?_entries) hlong
  exact ⟨e, by rw [parseConfig, herror]; rfl⟩

end Document

/-- The loader returns the bindings of the document, whatever its text, if and only if it has no
string that is too long for the pattern. -/
theorem loads_parseConfig_iff {doc : Document} {raw : List UInt8} (h : doc.Text raw)
    (path : String) :
    (∃ sections, parseConfig raw path = .ok sections ∧ Loads sections doc) ↔
      ∀ b ∈ doc.bindings, ∀ s, b.2 = .string s → s.length ≤ 8190 := by
  have hmatches : (∀ b ∈ doc.bindings, b.2.Matches) ↔
      ∀ b ∈ doc.bindings, ∀ s, b.2 = .string s → s.length ≤ 8190 := by
    refine forall₂_congr fun b _ => ?_
    cases b.2 with
    | string s => exact ⟨fun hle _ heq => Scalar.string.inj heq ▸ hle, fun hle => hle s rfl⟩
    | _        => exact iff_of_true trivial nofun
  rw [← hmatches]
  constructor
  · rintro ⟨sections, hok, -⟩
    by_contra hlong
    obtain ⟨e, herror⟩ := h.exists_parseConfig_error path hlong
    rw [hok] at herror
    cases herror
  · exact fun hmatches => ⟨_, h.parseConfig_eq path hmatches, loads_foldl doc⟩

/-- A string of a hash, a bracket, a quote and a backslash, before a comment with a quote. -/
theorem loads_parseConfig_escapes : ∃ sections,
    parseConfig (bytes "# \"secrets\"\r\n\r\t[auth]\ntoken = \"a#[\\\"]=\\\\\" # \"\r") "" =
      .ok sections ∧
    Loads sections [⟨bytes "auth", [(bytes "token", .string (bytes "a#[\"]=\\"))]⟩] := by
  have htext : LinesText
      [.header (bytes "auth"), .binding (bytes "token") (.string (bytes "a#[\"]=\\"))]
      [[] ++ 35 :: bytes " \"secrets\"", [], [9] ++ 91 :: (bytes "auth" ++ 93 :: []),
        [] ++ (bytes "token" ++ ([32] ++ 61 :: ([32] ++
          ((34 :: escape (bytes "a#[\"]=\\") ++ [34]) ++ ([32] ++ 35 :: bytes " \""))))), []] := by
    apply LinesText.skip (.skip (.comment ?_ ?_))
    apply LinesText.skip (.skip (.blank ?_))
    apply LinesText.entry (.header ?_ ⟨?_, ?_⟩ ?_)
    apply LinesText.entry (.binding ?_ ⟨?_, ?_⟩ ?_ ?_ (.string _) (.comment ?_ ?_))
    apply LinesText.skip (.skip (.blank ?_)) .nil
    all_goals decide
  refine (loads_parseConfig_iff (@Document.Text.lines [⟨bytes "auth", [(bytes "token", _)]⟩]
    [(_, .crlf), (_, .cr), (_, .lf), (_, .cr)] [] htext) "").mpr fun b hb s hs => ?_
  rw [List.mem_singleton.mp hb] at hs
  obtain rfl := Scalar.string.inj hs
  decide

/-- A string of 8191 letters -/
theorem not_loads_parseConfig :
    ¬ ∀ (doc : Document) (raw : List UInt8) (path : String), doc.Text raw →
      ∃ sections, parseConfig raw path = .ok sections ∧ Loads sections doc := by
  intro h
  let long : List UInt8 := List.replicate 8191 97
  have htext : LinesText [.header (bytes "auth"), .binding (bytes "token") (.string long)]
      [[] ++ 91 :: (bytes "auth" ++ 93 :: []),
        [] ++ (bytes "token" ++ ([] ++ 61 :: ([] ++ ((34 :: escape long ++ [34]) ++ []))))] := by
    apply LinesText.entry (.header ?_ ⟨?_, ?_⟩ ?_)
    apply LinesText.entry (.binding ?_ ⟨?_, ?_⟩ ?_ ?_ (.string _) (.blank ?_)) .nil
    all_goals decide
  have hdoc : Document.Text [⟨bytes "auth", [(bytes "token", .string long)]⟩] _ :=
    @Document.Text.lines [⟨bytes "auth", [(bytes "token", _)]⟩] [(_, .lf)] _ htext
  have hlong : ¬ ∀ b ∈ Document.bindings [⟨bytes "auth", [(bytes "token", .string long)]⟩],
      b.2.Matches := by
    intro hmatches
    have hle : long.length ≤ jitRounds := hmatches _ List.mem_cons_self
    rw [List.length_replicate] at hle
    exact absurd hle (by decide)
  obtain ⟨e, herror⟩ := hdoc.exists_parseConfig_error "" hlong
  obtain ⟨sections, hok, -⟩ := h _ _ "" hdoc
  rw [hok] at herror
  cases herror

end PhpTreeViz
