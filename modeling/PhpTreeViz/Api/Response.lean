import PhpTreeViz.Api.Config
import PhpTreeViz.Core.Replace
import PhpTreeViz.Http.Auth

/-!
# The error log

The handler of uncaught exceptions writes a line to the system log. Before that, it replaces the
secrets of the configuration and the cookie of the session, one after the other, by a marker. The
cookie is chosen by whoever sends the request, and the marker of one replacement is text for the
next.
-/

namespace PhpTreeViz

open Core

/-! ### Redaction -/

def redactionMarker : List UInt8 := bytes "[REDACTED]"

def phptvRedact (text : List UInt8) (sentinels : List (List UInt8)) : List UInt8 :=
  sentinels.foldl (fun text s => if s = [] then text else strReplace s redactionMarker text) text

namespace Config

/-- A value of `[auth]`, if it is a string. -/
def authSentinel (sections : Sections) (key : List UInt8) : List (List UInt8) :=
  match sections.get (bytes "auth") key with
  | some (.string s) => [s]
  | _                => []

def logRedactionSentinels (sections : Sections) : List (List UInt8) :=
  authSentinel sections (bytes "token") ++ authSentinel sections (bytes "session_salt")

end Config

/-- What a line of the log shows of an exception. -/
structure Throwable where
  className : List UInt8
  message : List UInt8
  file : List UInt8
  line : ℕ

/-- What `log_internal_error` hides: the secrets of the configuration once it is loaded, and the
cookie if it is a string. -/
def logSentinels (cached : Option Sections) (cookie : Option QueryValue) : List (List UInt8) :=
  (match cached with
    | some sections => Config.logRedactionSentinels sections
    | none          => []) ++
  match cookie with
  | some (.string s) => [s]
  | _                => []

/-- `log_internal_error`: the line that goes to the system log. -/
def logInternalError (cached : Option Sections) (cookie : Option QueryValue) (e : Throwable) :
    List UInt8 :=
  phptvRedact (bytes "phptv-api error: " ++ e.className ++ bytes ": " ++ e.message ++
    bytes " at " ++ e.file ++ bytes ":" ++ bytes (toString e.line)) (logSentinels cached cookie)

/-! ### Secrets -/

/-- Long enough for the collector, and without the brackets of the marker. -/
structure IsSecret (s : List UInt8) : Prop where
  length : 32 ≤ s.length
  opening : 91 ∉ s
  closing : 93 ∉ s

namespace IsSecret

variable {s w text : List UInt8}

lemma ne_nil (h : IsSecret s) : s ≠ [] := by
  rintro rfl
  exact absurd h.length (by decide)

/-- What is left of the marker without its brackets is too short. -/
lemma not_infix_marker (h : IsSecret s) : ¬ s <:+: bytes "REDACTED" := by
  intro hin
  have hle := hin.length_le
  have hmarker : (bytes "REDACTED").length = 8 := rfl
  have hlength := h.length
  omega

/-- A replacement does not bring a secret about. -/
lemma infix_of_infix_strReplace (h : IsSecret w) (hs : s ≠ [])
    (hin : w <:+: strReplace s redactionMarker text) : ∃ p, w <:+: p ∧ p <:+: text ∧ ¬ s <:+: p :=
  ((replaces_strReplace hs redactionMarker text).infix_cases h.opening h.closing hin).resolve_left
    h.not_infix_marker

lemma not_infix_strReplace (h : IsSecret w) (hs : s ≠ []) (hin : ¬ w <:+: text) :
    ¬ w <:+: strReplace s redactionMarker text := by
  intro hout
  obtain ⟨p, hp, htext, -⟩ := h.infix_of_infix_strReplace hs hout
  exact hin (hp.trans htext)

lemma not_infix_strReplace_self (h : IsSecret s) : ¬ s <:+: strReplace s redactionMarker text := by
  intro hout
  obtain ⟨p, hp, -, hkept⟩ := h.infix_of_infix_strReplace h.ne_nil hout
  exact hkept hp

/-- Once a secret is gone, it stays so. -/
lemma not_infix_phptvRedact_of_not_infix (h : IsSecret w) (hin : ¬ w <:+: text)
    (sentinels : List (List UInt8)) : ¬ w <:+: phptvRedact text sentinels := by
  rw [phptvRedact]
  induction sentinels generalizing text with
  | nil => exact hin
  | cons s sentinels ih =>
    rw [List.foldl_cons]
    split_ifs with hs
    · exact ih hin
    · exact ih (h.not_infix_strReplace hs hin)

/-- A secret among the sentinels is gone, whatever the others are. -/
theorem not_infix_phptvRedact (h : IsSecret s) {sentinels : List (List UInt8)}
    (hs : s ∈ sentinels) (text : List UInt8) : ¬ s <:+: phptvRedact text sentinels := by
  induction sentinels generalizing text with
  | nil => cases hs
  | cons s' sentinels ih =>
    rcases List.mem_cons.mp hs with rfl | hs
    · have hgone := h.not_infix_phptvRedact_of_not_infix
        (h.not_infix_strReplace_self : ¬ s <:+: strReplace s redactionMarker text) sentinels
      rw [phptvRedact, List.foldl_cons, if_neg h.ne_nil]
      exact hgone
    · rw [phptvRedact, List.foldl_cons]
      exact ih hs _

end IsSecret

/-- Of two secrets and a cookie, the secrets are gone. -/
theorem phptvRedact_hides (text token salt cookie : List UInt8) (htoken : IsSecret token)
    (hsalt : IsSecret salt) :
    ¬ token <:+: phptvRedact text [token, salt, cookie] ∧
      ¬ salt <:+: phptvRedact text [token, salt, cookie] := by
  constructor
  · apply htoken.not_infix_phptvRedact
    simp
  · apply hsalt.not_infix_phptvRedact
    simp

/-- The secrets overlap in the text, and the cookie is a part of the marker. -/
theorem phptvRedact_hides_overlap :
    let token := bytes "0123456789abcdef0123456789abcdef"
    let salt := bytes "89abcdef0123456789abcdef01234567"
    let text := bytes "at 0123456789abcdef0123456789abcdef01234567"
    ¬ token <:+: phptvRedact text [token, salt, bytes "ACT"] ∧
      ¬ salt <:+: phptvRedact text [token, salt, bytes "ACT"] := by
  intro token salt text
  apply phptvRedact_hides
  · exact ⟨by decide, by decide, by decide⟩
  · exact ⟨by decide, by decide, by decide⟩

/-! ### The log line -/

namespace Auth

variable {auth : Auth} {s : String}

lemma isSecret_bytes (hlength : 32 ≤ s.length) (hopening : 91 ∉ bytes s) (hclosing : 93 ∉ bytes s) :
    IsSecret (bytes s) :=
  ⟨hlength.trans (length_le_length_bytes s), hopening, hclosing⟩

/-- No secret without brackets that the collector accepts is logged by the handler, once it has
loaded the same configuration. -/
theorem not_infix_logInternalError (hvalid : auth.validate = .ok ()) {sections : Sections}
    (htoken : sections.get (bytes "auth") (bytes "token") = some (.string (bytes auth.token)))
    (hsalt : sections.get (bytes "auth") (bytes "session_salt") =
      some (.string (bytes auth.sessionSalt)))
    (hs : s = auth.token ∨ s = auth.sessionSalt) (hopening : 91 ∉ bytes s)
    (hclosing : 93 ∉ bytes s) (cookie : Option QueryValue) (e : Throwable) :
    ¬ bytes s <:+: logInternalError (some sections) cookie e := by
  obtain ⟨hlong, hlong', -⟩ := validate_eq_ok_iff.mp hvalid
  have hlength : 32 ≤ s.length := by
    rcases hs with rfl | rfl
    · exact hlong
    · exact hlong'
  have hmem : bytes s ∈ logSentinels (some sections) cookie := by
    simp only [logSentinels, Config.logRedactionSentinels, Config.authSentinel, htoken, hsalt]
    rcases hs with rfl | rfl
    · simp
    · simp
  exact (isSecret_bytes hlength hopening hclosing).not_infix_phptvRedact hmem _

end Auth

end PhpTreeViz
