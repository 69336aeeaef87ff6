import PhpTreeViz.Api.Children
import PhpTreeViz.Api.Session
import PhpTreeViz.Api.Traces

/-!
# The API

The endpoints behind one door: a request is routed by its path, checked for its method and its
session, parsed, and answered from the database files that the collector has written. What the pages
ask for is what they get. Whoever has neither the token nor a session gets the same answers whatever
is in the files and whatever the secrets are.
-/

namespace PhpTreeViz

open Core

/-! ### Database files -/

/-- What is found at the path of a database: no file, a file that cannot be opened and asked for its
version, or a database with its `user_version` -/
inductive SqliteFile (Db : Type*) where
  | missing
  | broken
  | opened (userVersion : ℤ) (db : Db)

/-- `phptv_open_sqlite_ro` -/
def openSqliteRo {Db : Type*} : SqliteFile Db → Except Failure Db
  | .missing      => .error .sqliteFileNotFound
  | .broken       => .error .exception
  | .opened userVersion db => if userVersion ≠ 1 then .error .schemaVersionMismatch else .ok db

/-- The configuration file, and what stands at each path -/
structure Site where
  configFile : Option (List UInt8)
  indexDb : List UInt8 → SqliteFile (Table TraceRow.traceKey)
  traceDb : List UInt8 → SqliteFile TraceDb

namespace Site

variable (site : Site) (sections : Sections)

def resolveDataDir : Except Failure (List UInt8) :=
  Config.getString sections (bytes "storage") (bytes "data_dir")

def openIndexDbRo : Except Failure (Table TraceRow.traceKey) := do
  let dataDir ← resolveDataDir sections
  openSqliteRo (site.indexDb (rtrimSlash dataDir ++ bytes "/index.sqlite"))

/-- An invalid key is an exception before the configuration is asked. -/
def openTraceDbRo (traceKey : List UInt8) : Except Failure TraceDb :=
  if !isValidTraceKey traceKey then .error .exception
  else do
    let dataDir ← resolveDataDir sections
    match PhpTreeViz.openTraceDbRo dataDir traceKey with
    | .ok path => openSqliteRo (site.traceDb path)
    | .error _ => .error .exception

def notFound : JsonError := ⟨404, "not_found"⟩

def openTraceDbOr404 (traceKey : List UInt8) : Except Failure TraceDb :=
  match site.openTraceDbRo sections traceKey with
  | .error .sqliteFileNotFound => .error (.json notFound)
  | result                     => result

end Site

/-! ### Answers -/

/-- The response of the metadata endpoint -/
structure TraceMetaResponse where
  traceKey : String
  traceId : String
  host : String
  pid : ℤ
  startTime : String
  sapi : String
  uriOrScript : String
  state : String
  droppedRecords : ℤ
  anomalyCount : ℕ
  cpuSnapshotAvailable : Bool
  rootNodeId : ℕ
  deriving DecidableEq

inductive Reply where
  | error (e : JsonError)
  | noContent (cookie : List UInt8)
  | traces (response : TracesResponse)
  | traceMeta (response : TraceMetaResponse)
  | tree (nodes : List TreeItem)
  | children (nodes : List TreeItem)
  deriving DecidableEq

def traceMetaItem (row : TraceMetaRow) (anomalyCount : ℕ) : TraceMetaResponse where
  traceKey := row.traceKey.stem
  traceId := row.traceId
  host := row.host
  pid := row.pid.toInt
  startTime := formatRfc3339Ns row.startTimeNs
  sapi := row.sapi
  uriOrScript := row.uriOrScript
  state := row.state.name
  droppedRecords := row.droppedRecords.toInt
  anomalyCount := anomalyCount
  cpuSnapshotAvailable := row.cpuSnapshotAvailable
  rootNodeId := syntheticRootNodeId

/-- `$_GET` of a request -/
def HttpRequest.query (r : HttpRequest) : Query := phpGet (r.uri.dropWhile (· ≠ 63)).tail

/-- A parsed parameter list or the answer that it is malformed -/
def orJsonError {α : Type*} : Except JsonError α → Except Failure α
  | .ok a    => .ok a
  | .error e => .error (.json e)

section handlers

variable [Php] [Hmac] (order : StartDesc) (site : Site) (sections : Sections) (r : HttpRequest)

/-- `phptv_handle_traces_list`. Filter texts that are not UTF-8 are left out. -/
def tracesList : Except Failure TracesResponse := do
  dispatchMethod "GET" r
  requireSession sections r
  let p ← orJsonError (parseTracesQuery r.query)
  let index ← site.openIndexDbRo sections
  match (textOf p.q).bind fun q =>
    handleTracesList order index q p.limit.toNat p.offset.toNat with
  | some response => return response
  | none          => throw .exception

/-- `phptv_handle_trace_meta`. An index that cannot be read counts no anomalies. -/
def traceMeta (key : List UInt8) : Except Failure TraceMetaResponse := do
  dispatchMethod "GET" r
  requireSession sections r
  let traceDb ← site.openTraceDbOr404 sections key
  match traceDb.traceMeta with
  | none     => throw (.json Site.notFound)
  | some row =>
    let anomalyCount :=
      match site.openIndexDbRo sections with
      | .ok index =>
        ((index.rows.find? (bytes ·.traceKey.stem = key)).map (·.anomalyCount)).getD 0
      | .error _  => 0
    return traceMetaItem row anomalyCount

/-- `phptv_handle_trace_tree` -/
def traceTree (key : List UInt8) : Except Failure (List TreeItem) := do
  dispatchMethod "GET" r
  requireSession sections r
  let (depth, sort) ← orJsonError (parseTreeQuery r.query)
  let traceDb ← site.openTraceDbOr404 sections key
  return handleTraceTree traceDb depth.toNat sort

/-- `phptv_handle_trace_children` -/
def traceChildren (key : List UInt8) (nodeId : ℕ) : Except Failure (List TreeItem) := do
  dispatchMethod "GET" r
  requireSession sections r
  let (sort, limit, offset) ← orJsonError (parseChildrenQuery r.query)
  let traceDb ← site.openTraceDbOr404 sections key
  return handleTraceChildren traceDb nodeId sort (limit.map Int.toNat) offset.toNat

/-! ### Routing -/

/-- A path without the newline that may stand before the end of a pattern -/
def dropNewline (path : List UInt8) : List UInt8 :=
  if path.getLast? = some 10 then path.dropLast else path

/-- `[0-9a-f]{32}` -/
def isKeySegment (s : List UInt8) : Bool := (hexDigit ^ 32).rmatch s

/-- `[1-9][0-9]*` -/
def isNodeSegment (s : List UInt8) : Bool := (nonzeroDigit * digit.star).rmatch s

/-- `trace.php`: the three shapes of its paths, or none of them -/
def tracePhp : Except Failure Reply :=
  match (dropNewline (phpPath r.uri)).splitOn 47 with
  | [root, api, traces, key] =>
    if root = [] ∧ api = bytes "api" ∧ traces = bytes "traces" ∧ isKeySegment key then
      (traceMeta site sections r key).map .traceMeta
    else .error (.json Site.notFound)
  | [root, api, traces, key, tree] =>
    if root = [] ∧ api = bytes "api" ∧ traces = bytes "traces" ∧ isKeySegment key ∧
        tree = bytes "tree" then
      (traceTree site sections r key).map .tree
    else .error (.json Site.notFound)
  | [root, api, traces, key, tree, nodeId, children] =>
    if root = [] ∧ api = bytes "api" ∧ traces = bytes "traces" ∧ isKeySegment key ∧
        tree = bytes "tree" ∧ isNodeSegment nodeId ∧ children = bytes "children" then
      (traceChildren site sections r key (leadingInt nodeId).toNat).map .children
    else .error (.json Site.notFound)
  | _ => .error (.json Site.notFound)

/-- The scripts behind the proxy -/
inductive Script where
  | auth
  | traces
  | trace
  deriving DecidableEq

/-- The script that the proxy runs for a path -/
def script (path : List UInt8) : Option Script :=
  if path = bytes "/api/auth" ∨ path = bytes "/api/auth/logout" then some .auth
  else if path = bytes "/api/traces" then some .traces
  else if bytes "/api/traces/" <+: path then some .trace
  else none

def Script.run : Script → Except Failure Reply
  | .auth   => (authPhp sections r).map .noContent
  | .traces => (tracesList order site sections r).map .traces
  | .trace  => tracePhp site sections r

/-- Every script loads the configuration before anything else. -/
def respond (path : String) : Reply :=
  match script (phpPath r.uri) with
  | none   => .error Site.notFound
  | some s =>
    match (Config.load path site.configFile).bind (s.run order site · r) with
    | .ok reply => reply
    | .error e  => .error e.toJsonError

end handlers

/-! ### Strangers -/

/-- The request brings neither a session of the site nor its token. -/
def Stranger [Hmac] (path : String) (site : Site) (r : HttpRequest) : Prop :=
  ∃ sections token salt, Config.load path site.configFile = .ok sections ∧
    Config.token sections = .ok token ∧ Config.sessionSalt sections = .ok salt ∧
    phpCookie r.cookie cookieName ≠ some (computeSessionValue token salt) ∧
    r.body ≠ .array (some (.string token))

/-- What a handler of data answers without a session -/
def refused {α : Type} (r : HttpRequest) : Except Failure α := do
  dispatchMethod "GET" r
  throw (.json unauthorizedError)

/-- What the login answers to a wrong token -/
def loginRefused (r : HttpRequest) : Except Failure (List UInt8) := do
  dispatchMethod "POST" r
  let member ← readJsonBody r
  match member with
  | some (.string submittedToken) =>
    if submittedToken = [] then throw (.json badRequest)
    throw (.json unauthorizedError)
  | _ => throw (.json badRequest)

section stranger

variable [Hmac] {sections : Sections} {r : HttpRequest} {token salt : List UInt8}

lemma requireSession_of_stranger (htoken : Config.token sections = .ok token)
    (hsalt : Config.sessionSalt sections = .ok salt)
    (hcookie : phpCookie r.cookie cookieName ≠ some (computeSessionValue token salt)) :
    requireSession sections r = .error (.json unauthorizedError) := by
  rw [requireSession]
  cases h : phpCookie r.cookie cookieName with
  | none => rfl
  | some cookie =>
    have hne : computeSessionValue token salt ≠ cookie := fun heq => hcookie (heq ▸ h)
    by_cases hnil : cookie = []
    · simp [hnil]
    · simp [hnil, htoken, hsalt, hne, bind, Except.bind, throw, throwThe, MonadExceptOf.throw]

/-- The session is checked before the parameters and the files. -/
lemma guarded_eq_refused {α : Type} {rest : Except Failure α}
    (h : requireSession sections r = .error (.json unauthorizedError)) : (do
      dispatchMethod "GET" r
      requireSession sections r
      rest) = refused r := by
  rw [h]
  cases hmethod : dispatchMethod "GET" r with
  | error e => simp [refused, hmethod, bind, Except.bind]
  | ok u    => simp [refused, hmethod, bind, Except.bind, throw, throwThe, MonadExceptOf.throw]

/-- The token is compared before the salt and the cookie are looked at. -/
lemma handleLogin_of_stranger (htoken : Config.token sections = .ok token)
    (hbody : r.body ≠ .array (some (.string token))) :
    handleLogin sections r = loginRefused r := by
  rw [handleLogin, loginRefused]
  cases dispatchMethod "POST" r with
  | error e => rfl
  | ok u =>
    cases hread : readJsonBody r with
    | error e => rfl
    | ok member =>
      have hmember : r.body = .array member := by
        rw [readJsonBody] at hread
        split_ifs at hread
        cases h : r.body with
        | malformed => simp [h] at hread
        | scalar    => simp [h] at hread
        | array m   =>
          rw [h] at hread
          rw [Except.ok.inj hread]
      rcases member with _ | (submitted | _)
      · rfl
      · have hne : token ≠ submitted := by
          rintro rfl
          exact hbody hmember
        by_cases hnil : submitted = []
        · simp [hnil, bind, Except.bind, throw, throwThe, MonadExceptOf.throw]
        · simp [hnil, htoken, hne, bind, Except.bind, throw, throwThe, MonadExceptOf.throw]
      · rfl

end stranger

section respond

variable [Php] [Hmac] {order order' : StartDesc} {site site' : Site} {path path' : String}
  {sections sections' : Sections} {r : HttpRequest} {token salt : List UInt8}

lemma tracePhp_of_refused (h : requireSession sections r = .error (.json unauthorizedError))
    (h' : requireSession sections' r = .error (.json unauthorizedError)) :
    tracePhp site sections r = tracePhp site' sections' r := by
  have hmeta : ∀ key, traceMeta site sections r key = traceMeta site' sections' r key := fun key =>
    (guarded_eq_refused h).trans (guarded_eq_refused h').symm
  have htree : ∀ key, traceTree site sections r key = traceTree site' sections' r key := fun key =>
    (guarded_eq_refused h).trans (guarded_eq_refused h').symm
  have hchildren : ∀ key nodeId,
      traceChildren site sections r key nodeId = traceChildren site' sections' r key nodeId :=
    fun key nodeId => (guarded_eq_refused h).trans (guarded_eq_refused h').symm
  simp only [tracePhp, hmeta, htree, hchildren]

/-- Whoever has neither the token nor a session is answered the same by any two sites, whatever
traces there are and whatever the secrets are. -/
theorem respond_of_stranger (h : Stranger path site r) (h' : Stranger path' site' r) :
    respond order site r path = respond order' site' r path' := by
  obtain ⟨sections, token, salt, hload, htoken, hsalt, hcookie, hbody⟩ := h
  obtain ⟨sections', token', salt', hload', htoken', hsalt', hcookie', hbody'⟩ := h'
  have hsession := requireSession_of_stranger htoken hsalt hcookie
  have hsession' := requireSession_of_stranger htoken' hsalt' hcookie'
  have hrun : ∀ s : Script, s.run order site sections r = s.run order' site' sections' r := by
    intro s
    cases s with
    | auth =>
      rw [Script.run, Script.run, authPhp, authPhp, handleLogin_of_stranger htoken hbody,
        handleLogin_of_stranger htoken' hbody']
    | traces =>
      exact congrArg (Except.map Reply.traces)
        ((guarded_eq_refused hsession).trans (guarded_eq_refused hsession').symm)
    | trace => exact tracePhp_of_refused hsession hsession'
  rw [respond, respond]
  cases script (phpPath r.uri) with
  | none   => rfl
  | some s => simp only [hload, hload', Except.bind, hrun]

end respond

/-- Two sites with different tokens, and databases in one of them only, asked without a cookie -/
theorem respond_of_stranger_no_cookie :
    letI : Php := ⟨fun _ => 0⟩
    letI := Hmac.stored
    ∃ (order : StartDesc) (site site' : Site) (r : HttpRequest),
      r.uri = bytes "/api/traces?limit=5" ∧ site.configFile ≠ site'.configFile ∧
      respond order site r "" = respond order site' r "" := by
  let _ : Php := ⟨fun _ => 0⟩
  let _ := Hmac.stored
  let file := some (bytes "[auth]\ntoken = \"token\"\nsession_salt = \"salt\"\n")
  let file' := some (bytes "[auth]\ntoken = \"other\"\nsession_salt = \"salt\"\n")
  let site : Site := ⟨file, fun _ => .opened 1 .empty, fun _ => .opened 1 .fresh⟩
  let site' : Site := ⟨file', fun _ => .missing, fun _ => .missing⟩
  let r : HttpRequest := ⟨bytes "GET", bytes "/api/traces?limit=5", [], [], .malformed⟩
  have hstranger : ∀ (site : Site) (token : List UInt8),
      (Config.load "" site.configFile).toOption.isSome = true →
      (Config.load "" site.configFile).bind Config.token = .ok token →
      (Config.load "" site.configFile).bind Config.sessionSalt = .ok (bytes "salt") →
      Stranger "" site r := by
    intro site token hload htoken hsalt
    cases hsections : Config.load "" site.configFile with
    | error e =>
      rw [hsections] at hload
      cases hload
    | ok sections =>
      rw [hsections] at htoken hsalt
      exact ⟨sections, token, bytes "salt", hsections, htoken, hsalt, nofun, nofun⟩
  refine ⟨DescBy.stable _, site, site', r, rfl, by decide, respond_of_stranger ?_ ?_⟩
  · exact hstranger site (bytes "token") (by decide +kernel) (by decide +kernel) (by decide +kernel)
  · exact hstranger site' (bytes "other") (by decide +kernel) (by decide +kernel)
      (by decide +kernel)

end PhpTreeViz
