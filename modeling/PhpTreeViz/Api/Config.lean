import PhpTreeViz.Api.Query
import PhpTreeViz.Core.Lines

/-!
# The configuration loader

The loader reads a small part of TOML: sections, keys, and values that are strings, integers or
booleans. Three scanners read a string one after the other: the comment stripper, the pattern of a
string, and the replacement of its escapes. They have to agree on where it ends.
-/

namespace PhpTreeViz

open Core

/-! ### Values and sections -/

inductive Scalar where
  | bool (b : Bool)
  | int (n : ℤ)
  | string (s : List UInt8)
  deriving DecidableEq

structure TomlParseError where
  message : List UInt8
  deriving DecidableEq

/-- `array<string, array<string, scalar>>` -/
abbrev Sections := List UInt8 → Option (List UInt8 → Option Scalar)

namespace Sections

/-- `[]` -/
def empty : Sections := fun _ => none

/-- `$sections[$section][$key]`, if it is set. -/
def get (sections : Sections) (section' key : List UInt8) : Option Scalar :=
  (sections section').bind (· key)

/-- `if (!isset($sections[$section])) { $sections[$section] = []; }` -/
def «open» (sections : Sections) (section' : List UInt8) : Sections :=
  if (sections section').isSome then sections
  else Function.update sections section' (some fun _ => none)

/-- `$sections[$section][$key] = $value` -/
def set (sections : Sections) (section' key : List UInt8) (value : Scalar) : Sections :=
  Function.update sections section'
    (some (Function.update ((sections section').getD fun _ => none) key (some value)))

end Sections

/-! ### Patterns -/

/-- The characters that `trim` removes. -/
def trimmedBytes : List UInt8 := [32, 9, 10, 13, 0, 11]

/-- `\s` -/
def spaceBytes : List UInt8 := [9, 10, 11, 12, 13, 32]

/-- `[A-Za-z0-9_-]` -/
def nameBytes : List UInt8 :=
  bytes "ABCDEFGHIJKLMNOPQRSTUVWXYZabcdefghijklmnopqrstuvwxyz0123456789_-"

/-- `\[([A-Za-z0-9_-]+)\]` -/
def sectionHeader : RegularExpression UInt8 :=
  .char 91 * (oneOf nameBytes * (oneOf nameBytes).star) * .char 93

/-- `^([A-Za-z0-9_-]+)\s*=\s*(.*)$`: the key and what stands after the equals sign. A line has no
newline, so that `.` fits all of its bytes. -/
def matchAssignment (s : List UInt8) : Option (List UInt8 × List UInt8) :=
  let key := s.takeWhile (· ∈ nameBytes)
  match (s.dropWhile (· ∈ nameBytes)).dropWhile (· ∈ spaceBytes) with
  | 61 :: value => if key = [] then none else some (key, value.dropWhile (· ∈ spaceBytes))
  | _           => none

/-- PHP gives the compiled patterns 192 KB of stack, and every round of a group takes 24 bytes of
it. With one round more `preg_match` fails. -/
def jitRounds : ℕ := 8190

/-- `((?:\\.|[^"\\])*)"$`, with at most so many rounds of the group -/
def matchInner : ℕ → List UInt8 → Option (List UInt8)
  | _, []               => none
  | _, [b]              => if b = 34 then some [] else none
  | rounds, b :: c :: s =>
    if b = 34 then if c = 10 ∧ s = [] then some [] else none
    else if rounds = 0 then none
    else if b = 92 then
      if c = 10 then none else (matchInner (rounds - 1) s).map fun inner => b :: c :: inner
    else (matchInner (rounds - 1) (c :: s)).map (b :: ·)

/-- `^"((?:\\.|[^"\\])*)"$`. The caller does not tell a failure from no match. -/
def matchString : List UInt8 → Option (List UInt8)
  | 34 :: s => matchInner jitRounds s
  | _       => none

/-- `-?[0-9_]+` -/
def spacedInteger : RegularExpression UInt8 :=
  (1 + .char 45) * (oneOf (bytes "0123456789_") * (oneOf (bytes "0123456789_")).star)

/-- `-?[0-9]+` -/
def integer : RegularExpression UInt8 := (1 + .char 45) * (digit * digit.star)

/-! ### Parsing -/

/-- What stands before a `#`. With `inString`, the `#` has to come after the end of the string;
`escape` says that the byte before was a backslash there. -/
def stripFrom (inString escape : Bool) : List UInt8 → List UInt8
  | []      => []
  | ch :: s =>
    if inString then
      if escape then ch :: stripFrom true false s
      else if ch = 92 then ch :: stripFrom true true s
      else if ch = 34 then ch :: stripFrom false false s
      else ch :: stripFrom true false s
    else if ch = 34 then ch :: stripFrom true escape s
    else if ch = 35 then []
    else ch :: stripFrom false escape s

def stripTrailingComment (value : List UInt8) : List UInt8 := stripFrom false false value

def unescapeByte : UInt8 → Option UInt8
  | 34  => some 34
  | 92  => some 92
  | 110 => some 10
  | 114 => some 13
  | 116 => some 9
  | _   => none

def unescapeString : List UInt8 → Except TomlParseError (List UInt8)
  | []          => .ok []
  | [b]         => .ok [b]
  | b :: c :: s =>
    if b = 92 ∧ c ≠ 10 then
      match unescapeByte c with
      | some d => (unescapeString s).map (d :: ·)
      | none   => .error ⟨bytes "unknown escape sequence \\" ++ [c]⟩
    else (unescapeString (c :: s)).map (b :: ·)

/-- Where a parse failed, and why. -/
def syntaxError (path : String) (lineNum : ℕ) (what : String) : TomlParseError :=
  ⟨bytes ("config syntax error at " ++ path ++ ":" ++ toString lineNum ++ ": " ++ what)⟩

def parseScalar (path : String) (lineNum : ℕ) (rest : List UInt8) :
    Except TomlParseError Scalar :=
  if rest = [] then .error (syntaxError path lineNum "empty value")
  else if rest = bytes "true" then .ok (.bool true)
  else if rest = bytes "false" then .ok (.bool false)
  else if rest.head? = some 34 then
    match matchString rest with
    | none       => .error (syntaxError path lineNum "unterminated or malformed string")
    | some inner => (unescapeString inner).map .string
  else if pregMatch spacedInteger rest then
    let compact := rest.filter (· ≠ 95)
    if !pregMatch integer compact then .error (syntaxError path lineNum "malformed integer")
    else .ok (.int (leadingInt compact))
  else .error (syntaxError path lineNum "value is not a string, integer, or boolean")

/-- What the loop over the lines has found so far, and the section it is in. -/
structure ParseState where
  sections : Sections
  current : Option (List UInt8)

def parseLine (path : String) (st : ParseState) (line : List UInt8 × ℕ) :
    Except TomlParseError ParseState :=
  let trimmed := trim trimmedBytes line.1
  match trimmed.head? with
  | none | some 35 => .ok st
  | some 91        =>
    if !pregMatch sectionHeader trimmed then
      .error (syntaxError path line.2 "malformed section header")
    else
      let current := trimmed.tail.dropLast
      .ok ⟨st.sections.open current, some current⟩
  | some _         =>
    match st.current with
    | none         => .error (syntaxError path line.2 "assignment before any section")
    | some current =>
      match matchAssignment trimmed with
      | none            =>
        .error (syntaxError path line.2 "not a section, comment, or key=value line")
      | some (key, value) => do
        let rest := trim trimmedBytes (stripTrailingComment value)
        let scalar ← parseScalar path line.2 rest
        return ⟨st.sections.set current key scalar, some current⟩

/-- `Config::parse` -/
def parseConfig (raw : List UInt8) (path : String) : Except TomlParseError Sections := do
  let st ← ((splitLines raw).zipIdx 1).foldlM (parseLine path) ⟨.empty, none⟩
  return st.sections

end PhpTreeViz
