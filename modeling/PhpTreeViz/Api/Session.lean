import PhpTreeViz.Api.Config
import PhpTreeViz.Core.Base64
import PhpTreeViz.Core.Run

/-!
# Sessions

The token of the configuration is exchanged for a cookie, whose value is derived from the token and
a salt, and every request for data has to bring it along. The server keeps no sessions: a cookie is
good as long as the configuration derives the same value. So a browser is logged in if and only if
its last login is not followed by a logout, and the secrets have not been changed since.
-/

namespace PhpTreeViz

open Core

/-! ### Errors -/

/-- How a request ends before it has an answer: `json_error`, which exits, or an exception that
nobody catches. -/
inductive Failure where
  | json (e : JsonError)
  | schemaVersionMismatch
  | sqliteFileNotFound
  | exception
  deriving DecidableEq

/-- `phptv_handle_uncaught_exception`, of what is not an error already -/
def Failure.toJsonError : Failure → JsonError
  | .json e                 => e
  | .schemaVersionMismatch  => ⟨500, "schema_version_mismatch"⟩
  | .sqliteFileNotFound     => ⟨500, "internal_error"⟩
  | .exception              => ⟨500, "internal_error"⟩

def unauthorizedError : JsonError := ⟨401, "unauthorized"⟩

namespace Config

/-- `Config::load`, of a file that may be unreadable -/
def load (path : String) : Option (List UInt8) → Except Failure Sections
  | none     => .error .exception
  | some raw =>
    match parseConfig raw path with
    | .ok sections => .ok sections
    | .error _     => .error .exception

def getString (sections : Sections) (section' key : List UInt8) : Except Failure (List UInt8) :=
  match sections.get section' key with
  | some (.string s) => .ok s
  | _                => .error .exception

def getBool (sections : Sections) (section' key : List UInt8) (default : Bool) :
    Except Failure Bool :=
  match sections.get section' key with
  | none           => .ok default
  | some (.bool b) => .ok b
  | some _         => .error .exception

def token (sections : Sections) : Except Failure (List UInt8) :=
  getString sections (bytes "auth") (bytes "token")

def sessionSalt (sections : Sections) : Except Failure (List UInt8) :=
  getString sections (bytes "auth") (bytes "session_salt")

end Config

/-! ### Requests -/

/-- A member of a JSON object, as far as it matters -/
inductive JsonMember where
  | string (s : List UInt8)
  | other
  deriving DecidableEq

/-- What `json_decode` makes of the body of a request -/
inductive JsonBody where
  | malformed
  | scalar
  | array (token : Option JsonMember)
  deriving DecidableEq

/-- `uri` is `REQUEST_URI`, `cookie` the `Cookie` header. -/
structure HttpRequest where
  method : List UInt8
  uri : List UInt8
  cookie : List UInt8
  contentType : List UInt8
  body : JsonBody
  deriving DecidableEq

def toUpper (b : UInt8) : UInt8 := if 97 ≤ b ∧ b ≤ 122 then b - 32 else b

def dispatchMethod (expectedMethod : String) (r : HttpRequest) : Except Failure Unit :=
  if r.method.map toUpper ≠ bytes expectedMethod then .error (.json ⟨405, "method_not_allowed"⟩)
  else .ok ()

/-- The member `token` of the body, if there is one -/
def readJsonBody (r : HttpRequest) : Except Failure (Option JsonMember) :=
  let mime := trim trimmedBytes ((r.contentType.takeWhile (· ≠ 59)).map toAsciiLowercase)
  if mime ≠ bytes "application/json" then .error (.json ⟨415, "unsupported_media_type"⟩)
  else
    match r.body with
    | .malformed   => .error (.json badRequest)
    | .scalar      => .error (.json badRequest)
    | .array token => .ok token

/-! ### Cookies -/

def cookieName : List UInt8 := bytes "phptv_session"

/-- What `$_COOKIE` holds under a name: the string of a cookie, or an array where the name is
written with brackets -/
inductive CookieEntry where
  | string (value : List UInt8)
  | array
  deriving DecidableEq

/-- PHP writes an underscore for a dot, a space and a bracket that is never closed. -/
def mangle (name : List UInt8) : List UInt8 :=
  name.map fun b => if b = 32 ∨ b = 46 ∨ b = 91 then 95 else b

/-- The number of brackets that follow on one another. `inside` says that one is open. -/
def nesting (inside : Bool) : List UInt8 → ℕ
  | []     => 0
  | b :: s =>
    if inside then nesting (b ≠ 93) s
    else if b = 91 then nesting true s + 1
    else 0

/-- `php_register_variable_ex`: what a pair of the header makes of the entry under `name`. The first
of several strings counts, an array takes the place of a string, and brackets that are nested more
than 64 levels deep take the entry away. -/
def registerCookie (name : List UInt8) (entry : Option CookieEntry) (pair : List UInt8) :
    Option CookieEntry :=
  let written := pair.takeWhile (· ≠ 61)
  let value := percentDecode (pair.dropWhile (· ≠ 61)).tail
  let var := written.takeWhile (· ≠ 91)
  let index := (written.dropWhile (· ≠ 91)).tail
  if var = [] then entry
  else if 93 ∈ index then
    if mangle var ≠ name then entry
    else if nesting true index < 64 then some .array
    else none
  else if mangle written ≠ name then entry
  else some (entry.getD (.string value))

/-- The pairs of a `Cookie` header that have a name, up to `max_input_vars` -/
def cookiePairs (header : List UInt8) : List (List UInt8) :=
  (((header.splitOn 59).map (·.dropWhile (· ∈ spaceBytes))).filter
    (·.takeWhile (· ≠ 61) ≠ [])).take 1000

/-- The string under a name in `$_COOKIE`, if there is one -/
def phpCookie (header name : List UInt8) : Option (List UInt8) :=
  match (cookiePairs header).foldl (registerCookie name) none with
  | some (.string value) => some value
  | _                    => none

example : phpCookie (bytes "lang=en; phptv.session=%61; phptv_session=b") cookieName =
    some (bytes "a") := by decide

/-- What the browser sends back: the value of the session cookie, if it has one. The site sets no
other cookies. -/
def cookieHeader : Option (List UInt8) → List UInt8
  | none       => []
  | some value => cookieName ++ 61 :: value

/-- What the browser makes of a `Set-Cookie` header. It takes a secure cookie on secure pages
only. -/
def setCookie (https : Bool) (cookie : Option (List UInt8)) (line : List UInt8) :
    Option (List UInt8) :=
  let parts := (line.splitOn 59).map (trim [32, 9])
  let pair := parts.headD []
  if pair.takeWhile (· ≠ 61) ≠ cookieName then cookie
  else if bytes "Secure" ∈ parts.tail ∧ https = false then cookie
  else if bytes "Max-Age=0" ∈ parts.tail then none
  else some (trim [32, 9] (pair.dropWhile (· ≠ 61)).tail)

/-! ### Sessions -/

/-- `hash_hmac('sha256', data, key, true)` -/
class Hmac where
  hashHmac : (data key : List UInt8) → List UInt8
  length_hashHmac : ∀ data key, (hashHmac data key).length = 32

/-- The digests of the tokens `token` and `other` with the salt `salt` -/
@[reducible] def Hmac.stored : Hmac where
  hashHmac data _ :=
    if data = bytes "phptv:v1:other"
    then [23, 77, 196, 200, 65, 241, 214, 79, 164, 7, 149, 215, 68, 76, 150, 238, 129, 229, 4, 114,
      42, 226, 236, 20, 12, 191, 169, 188, 160, 72, 57, 173]
    else [131, 24, 89, 50, 130, 53, 180, 63, 14, 34, 71, 73, 16, 195, 25, 179, 58, 205, 65, 114,
      195, 51, 63, 56, 60, 85, 139, 241, 146, 76, 165, 156]
  length_hashHmac _ _ := by split_ifs <;> rfl

section session

variable [Hmac]

def hmacPrefix : List UInt8 := bytes "phptv:v1:"

def computeSessionValue (token salt : List UInt8) : List UInt8 :=
  base64UrlEncode (Hmac.hashHmac (hmacPrefix ++ token) salt)

/-- The cookie that `issue_session_cookie` sets -/
def issueSessionCookie (sections : Sections) (value : List UInt8) :
    Except Failure (List UInt8) := do
  let secure ← Config.getBool sections (bytes "server") (bytes "tls") false
  let parts :=
    [cookieName ++ 61 :: value, bytes "Path=/", bytes "HttpOnly", bytes "SameSite=Lax"] ++
    if secure then [bytes "Secure"] else []
  return (bytes "; ").intercalate parts

def clearSessionCookie : List UInt8 :=
  cookieName ++ bytes "=; Path=/; Max-Age=0; HttpOnly; SameSite=Lax"

def requireSession (sections : Sections) (r : HttpRequest) : Except Failure Unit :=
  match phpCookie r.cookie cookieName with
  | none        => .error (.json unauthorizedError)
  | some cookie =>
    if cookie = [] then .error (.json unauthorizedError)
    else do
      let token ← Config.token sections
      let salt ← Config.sessionSalt sections
      if computeSessionValue token salt ≠ cookie then throw (.json unauthorizedError)

/-- `phptv_handle_login`: the cookie that comes with the status 204 -/
def handleLogin (sections : Sections) (r : HttpRequest) : Except Failure (List UInt8) := do
  dispatchMethod "POST" r
  let member ← readJsonBody r
  match member with
  | some (.string submittedToken) =>
    if submittedToken = [] then throw (.json badRequest)
    let configuredToken ← Config.token sections
    if configuredToken ≠ submittedToken then throw (.json unauthorizedError)
    let salt ← Config.sessionSalt sections
    issueSessionCookie sections (computeSessionValue configuredToken salt)
  | _ => throw (.json badRequest)

/-- `phptv_handle_logout` -/
def handleLogout (r : HttpRequest) : Except Failure (List UInt8) := do
  dispatchMethod "POST" r
  return clearSessionCookie

/-- The path of `REQUEST_URI` -/
def phpPath (uri : List UInt8) : List UInt8 := uri.takeWhile fun b => b ≠ 63 ∧ b ≠ 35

/-- `auth.php` -/
def authPhp (sections : Sections) (r : HttpRequest) : Except Failure (List UInt8) :=
  if phpPath r.uri = bytes "/api/auth" then handleLogin sections r
  else if phpPath r.uri = bytes "/api/auth/logout" then handleLogout r
  else .error (.json ⟨404, "not_found"⟩)

end session

/-! ### A cookie on its way -/

section cookies

variable {value : List UInt8} {cookie : Option (List UInt8)}

/-- What a session value consists of -/
def IsSessionValue (value : List UInt8) : Prop := value ≠ [] ∧ ∀ b ∈ value, b ∈ base64UrlDigits

lemma isSessionValue [Hmac] (token salt : List UInt8) :
    IsSessionValue (computeSessionValue token salt) := by
  refine ⟨base64UrlEncode_ne_nil ?_, fun b hb => mem_base64UrlEncode hb⟩
  rw [← List.length_pos_iff, Hmac.length_hashHmac]
  decide

namespace IsSessionValue

variable (h : IsSessionValue value)
include h

lemma notMem {b : UInt8} (hb : b ∉ base64UrlDigits) : b ∉ value := fun hmem => hb (h.2 b hmem)

/-- PHP reads the value that the browser has. -/
lemma phpCookie_cookieHeader : phpCookie (cookieHeader (some value)) cookieName = some value := by
  have hsplit : (cookieName ++ 61 :: value).splitOn 59 = [cookieName ++ 61 :: value] := by
    refine List.splitOn_eq_singleton fun hmem => ?_
    rcases List.mem_append.mp hmem with hmem | hmem
    · exact absurd hmem (by decide)
    · rcases List.mem_cons.mp hmem with heq | hmem
      · exact absurd heq (by decide)
      · exact h.notMem (by decide) hmem
  have hpairs : cookiePairs (cookieName ++ 61 :: value) = [cookieName ++ 61 :: value] := by
    rw [cookiePairs, hsplit]
    rfl
  have hregister : registerCookie cookieName none (cookieName ++ 61 :: value) =
      some (.string (percentDecode value)) := rfl
  rw [phpCookie, cookieHeader, hpairs, List.foldl_cons, List.foldl_nil, hregister,
    percentDecode_of_notMem (h.notMem (by decide))]

/-- The pair in the browser's hands -/
lemma setCookie_line {https : Bool} {rest : List UInt8} :
    setCookie https cookie (cookieName ++ 61 :: value ++ 59 :: rest) =
      if bytes "Secure" ∈ (rest.splitOn 59).map (trim [32, 9]) ∧ https = false then cookie
      else if bytes "Max-Age=0" ∈ (rest.splitOn 59).map (trim [32, 9]) then none
      else some value := by
  have hnot : ∀ c, c ∉ base64UrlDigits → c ≠ 61 → c ∉ cookieName →
      c ∉ cookieName ++ 61 :: value := by
    intro c hc heq hname hmem
    rcases List.mem_append.mp hmem with hmem | hmem
    · exact hname hmem
    · rcases List.mem_cons.mp hmem with hc' | hmem
      · exact heq hc'
      · exact h.notMem hc hmem
  have hsplit : (cookieName ++ 61 :: value ++ 59 :: rest).splitOn 59 =
      (cookieName ++ 61 :: value) :: rest.splitOn 59 :=
    List.splitOn_append_cons_self_of_not_mem (hnot 59 (by decide) (by decide) (by decide)) rest
  have hspaces : ∀ b ∈ [32, 9], b ∉ base64UrlDigits ∧ b ≠ 61 ∧ b ∉ cookieName := by decide
  have htrim : trim [32, 9] (cookieName ++ 61 :: value) = cookieName ++ 61 :: value := by
    refine trim_eq_self fun b hb hspace => ?_
    obtain ⟨hdigit, hequals, hname⟩ := hspaces b hspace
    exact hnot b hdigit hequals hname hb
  have hname : (cookieName ++ 61 :: value).takeWhile (· ≠ 61) = cookieName := rfl
  have hvalue : (cookieName ++ 61 :: value).dropWhile (· ≠ 61) = 61 :: value := rfl
  have hvalueTrim : trim [32, 9] value = value :=
    trim_eq_self fun b hb hspace => h.notMem (hspaces b hspace).1 hb
  rw [setCookie, hsplit]
  simp only [List.map_cons, List.headD_cons, List.tail_cons, htrim, hname, ne_eq, not_true_eq_false,
    if_false, hvalue, hvalueTrim]

/-- The browser takes the value that PHP sends. -/
lemma setCookie_issue (cookie : Option (List UInt8)) (https : Bool) {tls : Bool}
    {sections : Sections}
    (htls : Config.getBool sections (bytes "server") (bytes "tls") false = .ok tls) :
    ∃ line, issueSessionCookie sections value = .ok line ∧
      setCookie https cookie line = if tls = true ∧ https = false then cookie else some value := by
  have hissue : issueSessionCookie sections value = .ok ((bytes "; ").intercalate
      ([cookieName ++ 61 :: value, bytes "Path=/", bytes "HttpOnly", bytes "SameSite=Lax"] ++
        if tls then [bytes "Secure"] else [])) := by
    rw [issueSessionCookie, htls]
    rfl
  refine ⟨_, hissue, ?_⟩
  have hcons : ∀ parts : List (List UInt8), parts ≠ [] →
      (bytes "; ").intercalate ((cookieName ++ 61 :: value) :: parts) =
        cookieName ++ 61 :: value ++ 59 :: (32 :: (bytes "; ").intercalate parts) := by
    intro parts hne
    obtain ⟨part, parts, rfl⟩ := List.exists_cons_of_ne_nil hne
    rw [List.intercalate_cons_cons, List.append_assoc]
    rfl
  rw [List.cons_append, hcons _ (by simp), h.setCookie_line]
  cases tls with
  | true =>
    have hsecure : bytes "Secure" ∈ ((32 :: (bytes "; ").intercalate
        ([bytes "Path=/", bytes "HttpOnly", bytes "SameSite=Lax"] ++ [bytes "Secure"])).splitOn
          59).map (trim [32, 9]) := by decide
    have hage : bytes "Max-Age=0" ∉ ((32 :: (bytes "; ").intercalate
        ([bytes "Path=/", bytes "HttpOnly", bytes "SameSite=Lax"] ++ [bytes "Secure"])).splitOn
          59).map (trim [32, 9]) := by decide
    simp only [if_true, hsecure, hage, true_and, if_false]
  | false =>
    have hsecure : bytes "Secure" ∉ ((32 :: (bytes "; ").intercalate
        ([bytes "Path=/", bytes "HttpOnly", bytes "SameSite=Lax"] ++ [])).splitOn
          59).map (trim [32, 9]) := by decide
    have hage : bytes "Max-Age=0" ∉ ((32 :: (bytes "; ").intercalate
        ([bytes "Path=/", bytes "HttpOnly", bytes "SameSite=Lax"] ++ [])).splitOn
          59).map (trim [32, 9]) := by decide
    simp only [Bool.false_eq_true, if_false, hsecure, hage, false_and]

end IsSessionValue

lemma setCookie_clear (https : Bool) (cookie : Option (List UInt8)) :
    setCookie https cookie clearSessionCookie = none := by
  have hparts : (clearSessionCookie.splitOn 59).map (trim [32, 9]) =
      [cookieName ++ [61], bytes "Path=/", bytes "Max-Age=0", bytes "HttpOnly",
        bytes "SameSite=Lax"] := by decide
  rw [setCookie, hparts]
  rfl

end cookies

/-! ### A browser and the API -/

/-- A browser, and the configuration file, which the operator may replace at any time -/
structure Client where
  configFile : Option (List UInt8)
  cookie : Option (List UInt8)
  deriving DecidableEq

/-- The cookie has no age, so that it is gone when the browser is started again. -/
inductive ClientEvent where
  | configure (file : Option (List UInt8))
  | login (token : List UInt8)
  | logout
  | restart
  deriving DecidableEq

namespace Client

variable [Hmac] (https : Bool) (path : String) (c : Client)

/-- The request of the login page -/
def loginRequest (token : List UInt8) : HttpRequest where
  method := bytes "POST"
  uri := bytes "/api/auth"
  cookie := cookieHeader c.cookie
  contentType := bytes "application/json"
  body := .array (some (.string token))

def logoutRequest : HttpRequest where
  method := bytes "POST"
  uri := bytes "/api/auth/logout"
  cookie := cookieHeader c.cookie
  contentType := []
  body := .malformed

/-- Every request loads the configuration anew. -/
def send (r : HttpRequest) : Client :=
  match (Config.load path c.configFile).bind (authPhp · r) with
  | .ok line => { c with cookie := setCookie https c.cookie line }
  | .error _ => c

def after : ClientEvent → Client
  | .configure file => { c with configFile := file }
  | .login token    => c.send https path (c.loginRequest token)
  | .logout         => c.send https path c.logoutRequest
  | .restart        => { c with cookie := none }

def Step (c : Client) (e : ClientEvent) (c' : Client) : Prop := c' = c.after https path e

/-- A request for data gets past `require_session`. -/
def Admitted (r : HttpRequest) : Prop :=
  (Config.load path c.configFile).bind (requireSession · r) = .ok ()

end Client

/-! ### Who is logged in -/

/-- A login with the token starts a session with the salt. -/
structure Opens (https : Bool) (sections : Sections) (token salt : List UInt8) : Prop where
  ne_nil : token ≠ []
  token : Config.token sections = .ok token
  salt : Config.sessionSalt sections = .ok salt
  tls : ∃ tls, Config.getBool sections (bytes "server") (bytes "tls") false = .ok tls ∧
    (tls = true → https = true)

/-- A user without a browser: the secrets at the time of the last login, if there was no logout
after it -/
structure Account where
  configFile : Option (List UInt8)
  session : Option (List UInt8 × List UInt8)

namespace Account

/-- A login succeeds or changes nothing, and a logout succeeds unless the configuration does not
load. -/
inductive Step (https : Bool) (path : String) : Account → ClientEvent → Account → Prop where
  | configure (a : Account) (file : Option (List UInt8)) :
      Step https path a (.configure file) { a with configFile := file }
  | opened {a : Account} {sections : Sections} {token salt : List UInt8} :
      Config.load path a.configFile = .ok sections → Opens https sections token salt →
      Step https path a (.login token) { a with session := some (token, salt) }
  | refused {a : Account} {token : List UInt8} :
      (∀ sections salt, Config.load path a.configFile = .ok sections →
        ¬ Opens https sections token salt) → Step https path a (.login token) a
  | closed {a : Account} {sections : Sections} : Config.load path a.configFile = .ok sections →
      Step https path a .logout { a with session := none }
  | failed {a : Account} {e : Failure} : Config.load path a.configFile = .error e →
      Step https path a .logout a
  | restart (a : Account) : Step https path a .restart { a with session := none }

/-- The secrets are still the ones of the last login, or not to be told from them. -/
def LoggedIn [Hmac] (path : String) (a : Account) : Prop :=
  ∃ sections token salt token' salt', a.session = some (token, salt) ∧
    Config.load path a.configFile = .ok sections ∧ Config.token sections = .ok token' ∧
    Config.sessionSalt sections = .ok salt' ∧
    Hmac.hashHmac (hmacPrefix ++ token') salt' = Hmac.hashHmac (hmacPrefix ++ token) salt

end Account

section login

variable [Hmac] {https : Bool} {path : String} {sections : Sections} {c c' : Client} {a : Account}
  {token salt line : List UInt8}

/-- What a login answers once the configuration is loaded -/
lemma authPhp_loginRequest (htoken : token ≠ []) :
    authPhp sections (c.loginRequest token) = (do
      let configuredToken ← Config.token sections
      if configuredToken ≠ token then throw (.json unauthorizedError)
      let salt ← Config.sessionSalt sections
      issueSessionCookie sections (computeSessionValue configuredToken salt)) := by
  have hmember : readJsonBody (c.loginRequest token) = .ok (some (.string token)) := rfl
  have hmethod : dispatchMethod "POST" (c.loginRequest token) = .ok () := rfl
  have hroute : authPhp sections (c.loginRequest token) =
      handleLogin sections (c.loginRequest token) := rfl
  rw [hroute, handleLogin, hmethod, hmember]
  simp only [bind, Except.bind, htoken, if_false]

lemma authPhp_of_opens (h : Opens https sections token salt) :
    authPhp sections (c.loginRequest token) =
      issueSessionCookie sections (computeSessionValue token salt) := by
  rw [authPhp_loginRequest h.ne_nil, h.token, h.salt]
  simp [bind, Except.bind]

variable (https) in
/-- A login that is answered with a cookie brought the token. -/
lemma opens_of_authPhp (h : authPhp sections (c.loginRequest token) = .ok line) :
    ∃ salt tls, Config.getBool sections (bytes "server") (bytes "tls") false = .ok tls ∧
      authPhp sections (c.loginRequest token) =
        issueSessionCookie sections (computeSessionValue token salt) ∧
      ((tls = true → https = true) → Opens https sections token salt) := by
  have htoken : token ≠ [] := by
    rintro rfl
    cases h
  have hlogin := h
  rw [authPhp_loginRequest htoken] at h
  cases hconfigured : Config.token sections with
  | error e =>
    rw [hconfigured] at h
    cases h
  | ok configured =>
    rw [hconfigured] at h
    by_cases heq : configured = token
    · subst heq
      cases hsalt : Config.sessionSalt sections with
      | error e =>
        rw [hsalt] at h
        simp [bind, Except.bind] at h
      | ok salt =>
        rw [hsalt] at h
        simp only [bind, Except.bind, ne_eq, not_true_eq_false, if_false] at h
        cases htls : Config.getBool sections (bytes "server") (bytes "tls") false with
        | error e =>
          rw [issueSessionCookie, htls] at h
          cases h
        | ok tls =>
          exact ⟨salt, tls, rfl, hlogin.trans h.symm,
            fun hsecure => ⟨htoken, hconfigured, hsalt, tls, htls, hsecure⟩⟩
    · simp [bind, Except.bind, heq, throw, throwThe, MonadExceptOf.throw] at h

/-- `require_session` returns if the cookie is the value that the secrets give. -/
lemma requireSession_eq_ok_iff {r : HttpRequest} : requireSession sections r = .ok () ↔
    ∃ token salt, Config.token sections = .ok token ∧ Config.sessionSalt sections = .ok salt ∧
      phpCookie r.cookie cookieName = some (computeSessionValue token salt) := by
  rw [requireSession]
  cases hcookie : phpCookie r.cookie cookieName with
  | none => exact iff_of_false nofun (by simp)
  | some cookie =>
    by_cases hnil : cookie = []
    · refine iff_of_false (by simp [hnil]) ?_
      rintro ⟨token, salt, -, -, hvalue⟩
      exact (isSessionValue token salt).1 ((Option.some.inj hvalue).symm.trans hnil)
    · simp only [if_neg hnil, bind, Except.bind]
      cases htoken : Config.token sections with
      | error e => exact iff_of_false nofun (by simp)
      | ok token =>
        cases hsalt : Config.sessionSalt sections with
        | error e => exact iff_of_false nofun (by simp)
        | ok salt =>
          by_cases heq : computeSessionValue token salt = cookie
          · simp [heq, pure, Except.pure]
          · have hne : cookie ≠ computeSessionValue token salt := Ne.symm heq
            simp [heq, hne, throw, throwThe, MonadExceptOf.throw]

/-- The browser has the cookie of the session. -/
structure Follows (c : Client) (a : Account) : Prop where
  configFile : a.configFile = c.configFile
  cookie : c.cookie = a.session.map fun s => computeSessionValue s.1 s.2

namespace Follows

variable (h : Follows c a)
include h

lemma login (token : List UInt8) : ∃ a', Account.Step https path a (.login token) a' ∧
    Follows (c.after https path (.login token)) a' := by
  have hfile := h.configFile
  rw [Client.after, Client.send]
  cases hload : Config.load path c.configFile with
  | error e =>
    refine ⟨a, .refused fun sections salt hsections => ?_, h⟩
    rw [hfile, hload] at hsections
    cases hsections
  | ok sections =>
    rw [Except.bind]
    by_cases hopens : ∃ salt, Opens https sections token salt
    · obtain ⟨salt, hopens⟩ := hopens
      obtain ⟨tls, htls, hsecure⟩ := hopens.tls
      obtain ⟨line, hline, hset⟩ :=
        (isSessionValue token salt).setCookie_issue c.cookie https htls
      refine ⟨_, .opened (hfile ▸ hload) hopens, ?_⟩
      rw [authPhp_of_opens hopens, hline]
      refine ⟨hfile, hset.trans (if_neg fun hboth => ?_)⟩
      have := hsecure hboth.1
      rw [hboth.2] at this
      cases this
    · refine ⟨a, .refused fun sections' salt hsections => ?_, ?_⟩
      · rw [hfile, hload] at hsections
        obtain rfl := Except.ok.inj hsections
        exact fun hopens' => hopens ⟨salt, hopens'⟩
      · cases hanswer : authPhp sections (c.loginRequest token) with
        | error e => exact h
        | ok line =>
          obtain ⟨salt, tls, htls, hissue, himp⟩ := opens_of_authPhp https hanswer
          have hrefused : tls = true ∧ https = false := by
            by_contra hnot
            refine hopens ⟨salt, himp fun ht => ?_⟩
            by_contra hs
            exact hnot ⟨ht, by simpa using hs⟩
          obtain ⟨line', hline', hset⟩ :=
            (isSessionValue token salt).setCookie_issue c.cookie https htls
          obtain rfl : line = line' := by
            rw [hanswer, hline'] at hissue
            exact Except.ok.inj hissue
          exact ⟨hfile, (hset.trans (if_pos hrefused)).trans h.cookie⟩

lemma logout : ∃ a', Account.Step https path a .logout a' ∧
    Follows (c.after https path .logout) a' := by
  have hfile := h.configFile
  rw [Client.after, Client.send]
  cases hload : Config.load path c.configFile with
  | error e => exact ⟨a, .failed (hfile ▸ hload), h⟩
  | ok sections =>
    have hanswer : authPhp sections c.logoutRequest = .ok clearSessionCookie := rfl
    refine ⟨_, .closed (hfile ▸ hload), ?_⟩
    rw [Except.bind, hanswer]
    exact ⟨hfile, setCookie_clear https c.cookie⟩

/-- Every event keeps the browser and the user together. -/
lemma step {e : ClientEvent} (hstep : c.Step https path e c') :
    ∃ a', Account.Step https path a e a' ∧ Follows c' a' := by
  obtain rfl : c' = c.after https path e := hstep
  cases e with
  | configure file => exact ⟨_, .configure a file, rfl, h.cookie⟩
  | login token    => exact h.login token
  | logout         => exact h.logout
  | restart        => exact ⟨_, .restart a, h.configFile, rfl⟩

/-- Only the cookie of the session gets a request past `require_session`. -/
lemma admitted_iff {r : HttpRequest} (hr : r.cookie = cookieHeader c.cookie) :
    c.Admitted path r ↔ a.LoggedIn path := by
  have hcookie : phpCookie r.cookie cookieName =
      a.session.map fun s => computeSessionValue s.1 s.2 := by
    rw [hr, h.cookie]
    cases a.session with
    | none         => rfl
    | some secrets => exact (isSessionValue secrets.1 secrets.2).phpCookie_cookieHeader
  rw [Client.Admitted, Account.LoggedIn, h.configFile]
  cases hload : Config.load path c.configFile with
  | error e =>
    refine iff_of_false nofun ?_
    rintro ⟨sections, token, salt, token', salt', -, hsections, -⟩
    cases hsections
  | ok sections =>
    rw [Except.bind, requireSession_eq_ok_iff, hcookie]
    constructor
    · rintro ⟨token', salt', htoken', hsalt', hvalue⟩
      obtain ⟨secrets, hsession, heq⟩ := Option.map_eq_some_iff.mp hvalue
      exact ⟨sections, secrets.1, secrets.2, token', salt', hsession, rfl, htoken', hsalt',
        (base64UrlEncode_inj.mp heq).symm⟩
    · rintro ⟨sections', token, salt, token', salt', hsession, hsections, htoken', hsalt', heq⟩
      obtain rfl := Except.ok.inj hsections
      refine ⟨token', salt', htoken', hsalt', ?_⟩
      rw [hsession, Option.map_some, computeSessionValue, computeSessionValue, heq]

end Follows

/-- A browser is let through exactly if its user is logged in, whatever logins, logouts and changes
of the configuration there were. -/
theorem admitted_iff_of_run {file : Option (List UInt8)} {es : List ClientEvent}
    (hrun : Run (Client.Step https path) ⟨file, none⟩ es c) :
    ∃ a, Run (Account.Step https path) ⟨file, none⟩ es a ∧ a.configFile = c.configFile ∧
      ∀ r : HttpRequest, r.cookie = cookieHeader c.cookie →
        (c.Admitted path r ↔ a.LoggedIn path) := by
  have hstep : ∀ c e c' a, Client.Step https path c e c' → Follows c a →
      ∃ a', Account.Step https path a e a' ∧ Follows c' a' := fun _ _ _ _ hstep h => h.step hstep
  obtain ⟨a, hrun', hfollows⟩ :=
    hrun.simulate hstep (⟨rfl, rfl⟩ : Follows ⟨file, none⟩ ⟨file, none⟩)
  exact ⟨a, hrun', hfollows.configFile, fun r hr => hfollows.admitted_iff hr⟩

end login

/-- A login, and the configuration is replaced by one with the same secrets. -/
theorem admitted_iff_of_run_login :
    letI := Hmac.stored
    ∃ file es c, Run (Client.Step false "") ⟨file, none⟩ es c ∧
      c.cookie = some (bytes "gxhZMoI1tD8OIkdJEMMZszrNQXLDMz84PFWL8ZJMpZw") ∧
      ∃ a, Run (Account.Step false "") ⟨file, none⟩ es a ∧ a.configFile = c.configFile ∧
        ∀ r : HttpRequest, r.cookie = cookieHeader c.cookie →
          (c.Admitted "" r ↔ a.LoggedIn "") := by
  let _ := Hmac.stored
  let file := some (bytes "[auth]\ntoken = \"token\"\nsession_salt = \"salt\"\n")
  let file' := some (bytes "[auth]\nsession_salt = \"salt\"\ntoken = \"token\"\n")
  let c : Client := (Client.mk file none).after false "" (.login (bytes "token"))
  have hrun : Run (Client.Step false "") ⟨file, none⟩
      [.login (bytes "token"), .configure file'] ⟨file', c.cookie⟩ :=
    .cons (t := c) rfl (.single (congrArg (Client.mk file') rfl))
  exact ⟨file, _, _, hrun, by decide +kernel, admitted_iff_of_run hrun⟩

end PhpTreeViz
