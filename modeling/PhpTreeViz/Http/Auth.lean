import Mathlib.Data.List.Forall2
import PhpTreeViz.Core.Bytes

/-!
# Bearer tokens

The collector rejects every request that does not carry its token. The token is a string of the
configuration, of which the validator counts the characters; a request carries bytes, which pass
through a conversion that knows ASCII only.
-/

namespace PhpTreeViz

open Core

/-! ### The configuration -/

/-- `ConfigError::BadValue` -/
structure ConfigError where
  field : String
  reason : String
  deriving DecidableEq

/-- `[auth]` -/
structure Auth where
  token : String
  sessionSalt : String

namespace Auth

/-- The checks that the two secrets share. -/
def checkLength (field secret : String) : Except ConfigError Unit :=
  if secret.length < 32 then
    .error ⟨field, "must be at least 32 characters (got " ++ toString secret.length ++ ")"⟩
  else .ok ()

def validate (a : Auth) : Except ConfigError Unit := do
  checkLength "auth.token" a.token
  checkLength "auth.session_salt" a.sessionSalt
  if a.token = a.sessionSalt then .error ⟨"auth.session_salt", "must be different from auth.token"⟩
  else .ok ()

lemma checkLength_eq_ok_iff (field : String) {secret : String} :
    checkLength field secret = .ok () ↔ 32 ≤ secret.length := by
  rw [checkLength]
  split_ifs with h
  · simpa using h
  · simpa using h

theorem validate_eq_ok_iff {a : Auth} : a.validate = .ok () ↔
    32 ≤ a.token.length ∧ 32 ≤ a.sessionSalt.length ∧ a.token ≠ a.sessionSalt := by
  rw [← checkLength_eq_ok_iff "auth.token", ← checkLength_eq_ok_iff "auth.session_salt", validate]
  cases checkLength "auth.token" a.token with
  | error e => simp [bind, Except.bind]
  | ok =>
    cases checkLength "auth.session_salt" a.sessionSalt with
    | error e => simp [bind, Except.bind]
    | ok =>
      simp only [bind, Except.bind, true_and]
      split_ifs with h <;> simp [h]

end Auth

/-! ### Headers -/

/-- The value of a header: no control characters other than a tab. -/
structure HeaderValue where
  bytes : List UInt8
  valid : ∀ b ∈ bytes, (32 ≤ b ∧ b ≠ 127) ∨ b = 9

/-- Visible ASCII, space and tab. -/
def IsVisibleAscii (b : UInt8) : Prop := (32 ≤ b ∧ b < 127) ∨ b = 9

instance (b : UInt8) : Decidable (IsVisibleAscii b) := inferInstanceAs (Decidable (_ ∨ _))

/-- `HeaderValue::to_str` -/
def HeaderValue.toStr (v : HeaderValue) : Option (List UInt8) :=
  if ∀ b ∈ v.bytes, IsVisibleAscii b then some v.bytes else none

/-- The headers of a request in their order, by their names in lower case. -/
abbrev HeaderMap := List (String × HeaderValue)

/-- `HeaderMap::get`: the first value of that name. -/
def HeaderMap.get (headers : HeaderMap) (name : String) : Option HeaderValue :=
  (headers.find? (·.1 = name)).map Prod.snd

/-! ### The middleware -/

namespace Http

structure Response where
  status : ℕ
  contentType : String
  body : String
  deriving DecidableEq

def unauthorized : Response := ⟨401, "application/json", "\x7b\"error\":\"unauthorized\"\x7d"⟩

def extractBearerToken (headers : HeaderMap) : Option (List UInt8) := do
  let value ← headers.get "authorization"
  let value ← value.toStr
  value.dropPrefix? (bytes "Bearer ")

/-- Compare without an early exit. -/
def ctEq (a b : List UInt8) : Bool :=
  if a.length ≠ b.length then false
  else (a.zip b).foldl (fun diff p => diff ||| (p.1 ^^^ p.2)) 0 = 0

/-- `.ok ()` runs the rest of the request. -/
def requireBearerToken (expectedToken : String) (headers : HeaderMap) : Except Response Unit :=
  match extractBearerToken headers with
  | none          => .error unauthorized
  | some received =>
    if !ctEq received (bytes expectedToken) then .error unauthorized else .ok ()

/-! ### The comparison -/

lemma foldl_diff_eq_zero (ps : List (UInt8 × UInt8)) (diff : UInt8) :
    ps.foldl (fun diff p => diff ||| (p.1 ^^^ p.2)) diff = 0 ↔
      diff = 0 ∧ ∀ p ∈ ps, p.1 = p.2 := by
  induction ps generalizing diff with
  | nil => simp
  | cons p ps ih =>
    rw [List.foldl_cons, ih, UInt8.or_eq_zero_iff, UInt8.xor_eq_zero_iff, List.forall_mem_cons,
      and_assoc]

lemma ctEq_iff {a b : List UInt8} : ctEq a b ↔ a = b := by
  rw [ctEq]
  split_ifs with h
  · simpa using fun heq => h (congrArg List.length heq)
  · rw [decide_eq_true_iff, foldl_diff_eq_zero]
    have hzip : a = b ↔ a.length = b.length ∧ ∀ {x y}, (x, y) ∈ a.zip b → x = y := by
      rw [← List.forall₂_iff_zip, List.forall₂_eq_eq_eq]
    rw [hzip]
    constructor
    · intro hall
      exact ⟨not_not.mp h, fun hp => hall.2 _ hp⟩
    · intro hall
      exact ⟨rfl, fun p hp => hall.2 hp⟩

/-! ### Who gets in -/

/-- The first `Authorization` header is `Bearer <token>`, byte for byte. -/
def Carries (headers : HeaderMap) (token : String) : Prop :=
  ∃ v, headers.get "authorization" = some v ∧ v.bytes = bytes "Bearer " ++ bytes token

def IsAscii (s : String) : Prop := ∀ b ∈ bytes s, b < 128

instance (s : String) : Decidable (IsAscii s) := inferInstanceAs (Decidable (∀ _ ∈ _, _))

lemma extractBearerToken_eq_some_iff {headers : HeaderMap} {received : List UInt8} :
    extractBearerToken headers = some received ↔ ∃ v, headers.get "authorization" = some v ∧
      v.bytes = bytes "Bearer " ++ received ∧ ∀ b ∈ v.bytes, IsVisibleAscii b := by
  rw [extractBearerToken, Option.bind_eq_bind, Option.bind_eq_some_iff]
  refine exists_congr fun v => and_congr_right fun _ => ?_
  rw [Option.bind_eq_bind, HeaderValue.toStr]
  split_ifs with hvisible
  · simp only [Option.bind_some, List.dropPrefix?_eq_some_iff, beq_iff_eq, exists_eq_right]
    exact ⟨fun h => ⟨h, hvisible⟩, And.left⟩
  · rw [Option.bind_none]
    exact ⟨nofun, fun h => absurd h.2 hvisible⟩

theorem requireBearerToken_eq_ok_iff {token : String} {headers : HeaderMap} :
    requireBearerToken token headers = .ok () ↔ ∃ v, headers.get "authorization" = some v ∧
      v.bytes = bytes "Bearer " ++ bytes token ∧ ∀ b ∈ v.bytes, IsVisibleAscii b := by
  rw [← extractBearerToken_eq_some_iff, requireBearerToken]
  cases extractBearerToken headers with
  | none          => simp
  | some received =>
    rw [Option.some.injEq, ← ctEq_iff]
    by_cases h : ctEq received (bytes token)
    · simp [h]
    · simp [h]

/-- What a request carries is visible if the token is ASCII. -/
lemma forall_isVisibleAscii_iff {v : HeaderValue} {token : String}
    (h : v.bytes = bytes "Bearer " ++ bytes token) :
    (∀ b ∈ v.bytes, IsVisibleAscii b) ↔ IsAscii token := by
  have hscheme : ∀ b ∈ bytes "Bearer ", IsVisibleAscii b := by decide
  have hvalid := v.valid
  rw [h, List.forall_mem_append] at hvalid ⊢
  constructor
  · rintro ⟨-, hvisible⟩ b hb
    have := hvisible b hb
    simp only [IsVisibleAscii, UInt8.lt_iff_toNat_lt, UInt8.reduceToNat] at this ⊢
    rcases this with this | rfl
    · omega
    · decide
  · intro hascii
    refine ⟨hscheme, fun b hb => (hvalid.2 b hb).imp_left fun hvalid => ⟨hvalid.1, ?_⟩⟩
    have hlt := hascii b hb
    have hne : b.toNat ≠ 127 := fun heq => hvalid.2 (UInt8.toNat_inj.mp heq)
    simp only [UInt8.lt_iff_toNat_lt, UInt8.reduceToNat] at hlt ⊢
    omega

/-- Comparing takes no byte for another, and a request is treated as it should unless it carries a
token that is not ASCII. -/
theorem admits_iff_carries_iff (a b : List UInt8) (token : String) (headers : HeaderMap) :
    (ctEq a b ↔ a = b) ∧
    ((requireBearerToken token headers = .ok () ↔ Carries headers token) ↔
      ¬ (Carries headers token ∧ ¬ IsAscii token)) := by
  refine ⟨ctEq_iff, ?_⟩
  rw [requireBearerToken_eq_ok_iff]
  constructor
  · rintro hiff ⟨hcarries, hascii⟩
    obtain ⟨v, -, hbytes, hvisible⟩ := hiff.mpr hcarries
    exact hascii ((forall_isVisibleAscii_iff hbytes).mp hvisible)
  · intro hnot
    constructor
    · rintro ⟨v, hget, hbytes, -⟩
      exact ⟨v, hget, hbytes⟩
    · intro hcarries
      obtain ⟨v, hget, hbytes⟩ := hcarries
      refine ⟨v, hget, hbytes, (forall_isVisibleAscii_iff hbytes).mpr ?_⟩
      by_contra hascii
      exact hnot ⟨⟨v, hget, hbytes⟩, hascii⟩

example : requireBearerToken "correct horse battery staple ~ 0123"
    [("host", ⟨bytes "localhost", by decide⟩),
      ("authorization", ⟨bytes "Bearer correct horse battery staple ~ 0123", by decide⟩)] =
    .ok () := by decide

/-- A token of 32 characters in 64 bytes lets nobody in. -/
theorem not_admits_iff_carries :
    ¬ ∀ (auth : Auth) (headers : HeaderMap), auth.validate = .ok () →
      (requireBearerToken auth.token headers = .ok () ↔ Carries headers auth.token) := by
  intro h
  let auth : Auth := ⟨"éééééééééééééééééééééééééééééééé", "0123456789abcdef0123456789abcdef"⟩
  let v : HeaderValue := ⟨bytes "Bearer " ++ bytes auth.token, by decide⟩
  have hrejected : requireBearerToken auth.token [("authorization", v)] = .error unauthorized := by
    decide
  have hpasses := (h auth [("authorization", v)] (by decide)).mpr ⟨v, rfl, rfl⟩
  rw [hrejected] at hpasses
  cases hpasses

end Http

end PhpTreeViz
