import PhpTreeViz.Api.Gateway
import PhpTreeViz.Storage.Basic
import PhpTreeViz.Viz.Listing

/-!
# What the pages ask for

Each page writes what it wants to know into the URL of a request, and the API reads it out of there
again. With a session the answer is computed from what the collector has stored, for the trace, the
node, the order and the filter that the page meant.
-/

namespace PhpTreeViz

open Core

/-! ### Requests of the pages -/

/-- What `encodeURIComponent` leaves as it is -/
def uriComponentSafe : List UInt8 := alphanumerics ++ bytes "-_.!~*'()"

def encodeURIComponent (s : List UInt8) : List UInt8 := percentEncode uriComponentSafe s

/-- What the list and the page of a trace fetch -/
inductive PageRequest where
  | traces (r : TraceList.Fetch)
  | traceMeta (key : String)
  | tree (key : String) (sort : SortKey)
  | children (key : String) (nodeId : ℕ) (sort : SortKey)

namespace PageRequest

def uri : PageRequest → List UInt8
  | .traces r                 => bytes "/api/traces?" ++ r.params
  | .traceMeta key            => bytes "/api/traces/" ++ encodeURIComponent (bytes key)
  | .tree key sort            => bytes "/api/traces/" ++ encodeURIComponent (bytes key) ++
      bytes "/tree" ++ bytes "?depth=2&sort=" ++ bytes sort.name
  | .children key nodeId sort => bytes "/api/traces/" ++ encodeURIComponent (bytes key) ++
      bytes "/tree/" ++ bytes (toString nodeId) ++ bytes "/children?sort=" ++ bytes sort.name

/-- The request of `apiFetch` -/
def request (p : PageRequest) (cookie : List UInt8) : HttpRequest where
  method := bytes "GET"
  uri := p.uri
  cookie := cookie
  contentType := []
  body := .malformed

/-- The page of a trace tests its key before it fetches anything, and the nodes that it knows have
positive numbers. -/
def Valid : PageRequest → Prop
  | .traces r              => r.offset < 2 ^ 63
  | .traceMeta key         => IsTraceKey (bytes key)
  | .tree key _            => IsTraceKey (bytes key)
  | .children key nodeId _ => IsTraceKey (bytes key) ∧ 0 < nodeId ∧ nodeId < 2 ^ 63

/-- What the page wants to know of the stored traces -/
def reply [Php] (order : StartDesc) (storage : Storage) : PageRequest → Reply
  | .traces r =>
    match handleTracesList order storage.index r.q TraceList.pageLimit r.offset with
    | some response => .traces response
    | none          => .error ⟨500, "internal_error"⟩
  | .traceMeta key =>
    match (storage.traces ⟨key⟩).bind TraceDb.traceMeta with
    | some row => .traceMeta (traceMetaItem row
        (((storage.index.find? ⟨key⟩).map (·.anomalyCount)).getD 0))
    | none     => .error Site.notFound
  | .tree key sort =>
    match storage.traces ⟨key⟩ with
    | some db => .tree (handleTraceTree db 2 sort)
    | none    => .error Site.notFound
  | .children key nodeId sort =>
    match storage.traces ⟨key⟩ with
    | some db => .children (handleTraceChildren db nodeId sort none 0)
    | none    => .error Site.notFound

end PageRequest

/-- The site has its secrets and reads the files that the collector writes. -/
structure Site.Serves (path : String) (site : Site) (storage : Storage)
    (sections : Sections) (token salt dataDir : List UInt8) : Prop where
  load : Config.load path site.configFile = .ok sections
  token : Config.token sections = .ok token
  salt : Config.sessionSalt sections = .ok salt
  dir : Site.resolveDataDir sections = .ok dataDir
  index : site.indexDb (rtrimSlash dataDir ++ bytes "/index.sqlite") = .opened 1 storage.index
  traces : ∀ key : TraceKey, site.traceDb (rtrimSlash dataDir ++ bytes "/traces/" ++
    bytes key.stem ++ bytes ".sqlite") =
      match storage.traces key with
      | some db => .opened 1 db
      | none    => .missing

/-! ### The way of a request -/

section routing

variable {key : String} {sort : SortKey} {nodeId : ℕ}

lemma encodeURIComponent_of_isTraceKey {s : List UInt8} (h : IsTraceKey s) :
    encodeURIComponent s = s :=
  percentEncode_of_forall fun b hb =>
    (by decide : ∀ b ∈ bytes "0123456789abcdef", b ∈ uriComponentSafe) b (h.2 b hb)

lemma IsTraceKey.notMem {s : List UInt8} (h : IsTraceKey s) {b : UInt8}
    (hb : b ∉ bytes "0123456789abcdef") : b ∉ s := fun hmem => hb (h.2 b hmem)

lemma IsTraceKey.isKeySegment {s : List UInt8} (h : IsTraceKey s) : isKeySegment s := by
  rw [PhpTreeViz.isKeySegment, hexDigit, oneOf_pow_rmatch_iff]
  exact h

lemma isNodeSegment_toString (h : 0 < nodeId) : isNodeSegment (bytes (toString nodeId)) := by
  rw [isNodeSegment, nonzeroDigits_rmatch_iff]
  refine ⟨isNumeral_toString false nodeId, fun hzero => ?_⟩
  have hdecimal := decimal_bytes_toString nodeId
  rw [hzero] at hdecimal
  exact h.ne hdecimal

lemma leadingInt_toString (h : nodeId < 2 ^ 63) :
    (leadingInt (bytes (toString nodeId))).toNat = nodeId := by
  rw [leadingInt_digits (bytes_toString_ne_nil nodeId) fun b => isDigit_of_mem_bytes_toString,
    decimal_bytes_toString]
  omega

lemma notMem_toString {b : UInt8} (hb : ¬ IsDigit b) : b ∉ bytes (toString nodeId) :=
  fun hmem => hb (isDigit_of_mem_bytes_toString hmem)

/-- A path ends where the query string begins. -/
lemma phpPath_append {path rest : List UInt8} (hquery : 63 ∉ path) (hfragment : 35 ∉ path)
    (hrest : rest.head? = some 63 ∨ rest = []) : phpPath (path ++ rest) = path := by
  have hpath : ∀ b ∈ path, decide (b ≠ 63 ∧ b ≠ 35) = true := fun b hb =>
    decide_eq_true ⟨ne_of_mem_of_not_mem hb hquery, ne_of_mem_of_not_mem hb hfragment⟩
  rw [phpPath, List.takeWhile_append_of_pos hpath]
  rcases hrest with hrest | rfl
  · obtain ⟨b, rest, rfl⟩ := List.exists_cons_of_ne_nil (l := rest) (by rintro rfl; cases hrest)
    obtain rfl := Option.some.inj hrest
    rw [List.takeWhile_cons_of_neg (by decide), List.append_nil]
  · rw [List.takeWhile_nil, List.append_nil]

lemma query_append {path rest : List UInt8} {r : HttpRequest} (huri : r.uri = path ++ 63 :: rest)
    (hquery : 63 ∉ path) : r.query = phpGet rest := by
  have hpath : ∀ b ∈ path, decide (b ≠ 63) = true := fun b hb =>
    decide_eq_true (ne_of_mem_of_not_mem hb hquery)
  rw [HttpRequest.query, huri, List.dropWhile_append_of_pos hpath,
    List.dropWhile_cons_of_neg (by decide), List.tail_cons]

lemma dropNewline_of_notMem {path : List UInt8} (h : 10 ∉ path) : dropNewline path = path :=
  if_neg fun hlast => h (List.mem_of_getLast? hlast)

lemma parseTreeQuery_page (sort : SortKey) :
    parseTreeQuery (phpGet (bytes "depth=2&sort=" ++ bytes sort.name)) = .ok (2, sort) := by
  cases sort <;> decide +kernel

lemma parseChildrenQuery_page (sort : SortKey) :
    parseChildrenQuery (phpGet (bytes "sort=" ++ bytes sort.name)) = .ok (sort, none, 0) := by
  cases sort <;> decide +kernel

lemma script_trace (rest : List UInt8) :
    script (bytes "/api/traces/" ++ rest) = some .trace := by
  have hne : ∀ path, ¬ bytes "/api/traces/" <+: path → bytes "/api/traces/" ++ rest ≠ path :=
    fun path hpath heq => hpath (heq ▸ List.prefix_append _ _)
  rw [script, if_neg (not_or.mpr ⟨hne _ (by decide), hne _ (by decide)⟩),
    if_neg (hne _ (by decide)), if_pos (List.prefix_append _ _)]

/-- Every part of a path stands after a slash. -/
lemma intercalate_path (key : List UInt8) (parts : List (List UInt8)) :
    bytes "/api/traces/" ++ (key ++ parts.flatMap (47 :: ·)) =
      [47].intercalate ([[], bytes "api", bytes "traces", key] ++ parts) := by
  rw [List.cons_append, List.cons_append, List.cons_append, List.cons_append, List.nil_append,
    List.intercalate_cons_cons, List.intercalate_cons_cons, List.intercalate_cons_cons,
    intercalate_cons_eq]
  simp only [List.append_assoc, List.nil_append]
  rfl

/-- The path that names a trace and what is asked of it -/
lemma splitOn_path {key : List UInt8} (hkey : IsTraceKey key) {parts : List (List UInt8)}
    (hparts : ∀ p ∈ parts, 47 ∉ p) :
    (bytes "/api/traces/" ++ (key ++ parts.flatMap (47 :: ·))).splitOn 47 =
      [[], bytes "api", bytes "traces", key] ++ parts := by
  rw [intercalate_path]
  refine splitOn_intercalate (by simp) ?_
  rw [List.forall_mem_append]
  refine ⟨?_, hparts⟩
  simp only [List.forall_mem_cons, List.not_mem_nil, false_imp_iff, implies_true, and_true]
  exact ⟨by decide, by decide, by decide, hkey.notMem (by decide)⟩

/-- A part of a path that stays in one piece -/
def IsPart (p : List UInt8) : Prop := ∀ b ∈ [47, 10, 63, 35], b ∉ p

instance (p : List UInt8) : Decidable (IsPart p) := inferInstanceAs (Decidable (∀ b ∈ _, _))

lemma isPart_toString (n : ℕ) : IsPart (bytes (toString n)) := fun b hb =>
  notMem_toString ((by decide : ∀ b ∈ [47, 10, 63, 35], ¬ IsDigit b) b hb)

lemma IsTraceKey.isPart {s : List UInt8} (h : IsTraceKey s) : IsPart s := fun b hb =>
  h.notMem ((by decide : ∀ b ∈ [47, 10, 63, 35], b ∉ bytes "0123456789abcdef") b hb)

lemma isPart_tree : ∀ p ∈ [bytes "tree"], IsPart p := by
  rw [List.forall_mem_singleton]
  decide

lemma isPart_children (nodeId : ℕ) :
    ∀ p ∈ [bytes "tree", bytes (toString nodeId), bytes "children"], IsPart p := by
  rw [List.forall_mem_cons, List.forall_mem_cons, List.forall_mem_singleton]
  exact ⟨by decide, isPart_toString nodeId, by decide⟩

/-- The URL of what is below the key of a trace -/
def keyUri (key : List UInt8) (parts : List (List UInt8)) (rest : List UInt8) : List UInt8 :=
  bytes "/api/traces/" ++ (key ++ parts.flatMap (47 :: ·)) ++ rest

section keyUri

variable {s rest : List UInt8} {parts : List (List UInt8)}

lemma notMem_keyUri (hs : IsTraceKey s) (hparts : ∀ p ∈ parts, IsPart p) {b : UInt8}
    (hb : b ∈ [10, 63, 35]) : b ∉ bytes "/api/traces/" ++ (s ++ parts.flatMap (47 :: ·)) := by
  have hpart : b ∈ [47, 10, 63, 35] := List.mem_cons_of_mem 47 hb
  rw [List.mem_append, List.mem_append, List.mem_flatMap]
  rintro (hmem | hmem | ⟨p, hp, hmem⟩)
  · exact (by decide : ∀ b ∈ [10, 63, 35], b ∉ bytes "/api/traces/") b hb hmem
  · exact hs.isPart b hpart hmem
  · rcases List.mem_cons.mp hmem with rfl | hmem
    · exact absurd hb (by decide)
    · exact hparts p hp b hpart hmem

lemma phpPath_keyUri (hs : IsTraceKey s) (hparts : ∀ p ∈ parts, IsPart p)
    (hrest : rest.head? = some 63 ∨ rest = []) : phpPath (keyUri s parts rest) =
      bytes "/api/traces/" ++ (s ++ parts.flatMap (47 :: ·)) :=
  phpPath_append (notMem_keyUri hs hparts (by decide)) (notMem_keyUri hs hparts (by decide)) hrest

lemma query_keyUri {r : HttpRequest} (hs : IsTraceKey s) (hparts : ∀ p ∈ parts, IsPart p)
    (huri : r.uri = keyUri s parts (63 :: rest)) : r.query = phpGet rest :=
  query_append huri (notMem_keyUri hs hparts (by decide))

lemma script_keyUri (hs : IsTraceKey s) (hparts : ∀ p ∈ parts, IsPart p)
    (hrest : rest.head? = some 63 ∨ rest = []) :
    script (phpPath (keyUri s parts rest)) = some .trace := by
  rw [phpPath_keyUri hs hparts hrest, script_trace]

end keyUri

lemma uri_traceMeta (hkey : IsTraceKey (bytes key)) :
    (PageRequest.traceMeta key).uri = keyUri (bytes key) [] [] := by
  rw [PageRequest.uri, encodeURIComponent_of_isTraceKey hkey, keyUri, List.flatMap_nil,
    List.append_nil, List.append_nil]

lemma uri_tree (hkey : IsTraceKey (bytes key)) : (PageRequest.tree key sort).uri =
    keyUri (bytes key) [bytes "tree"] (63 :: (bytes "depth=2&sort=" ++ bytes sort.name)) := by
  rw [PageRequest.uri, encodeURIComponent_of_isTraceKey hkey, keyUri, List.append_assoc,
    List.append_assoc _ (bytes key)]
  rfl

lemma uri_children (hkey : IsTraceKey (bytes key)) : (PageRequest.children key nodeId sort).uri =
    keyUri (bytes key) [bytes "tree", bytes (toString nodeId), bytes "children"]
      (63 :: (bytes "sort=" ++ bytes sort.name)) := by
  have hchildren : bytes "/children?sort=" = 47 :: bytes "children" ++ 63 :: bytes "sort=" := rfl
  have htree : bytes "/tree/" = 47 :: bytes "tree" ++ [47] := rfl
  rw [PageRequest.uri, encodeURIComponent_of_isTraceKey hkey, keyUri, hchildren, htree]
  simp only [List.flatMap_cons, List.flatMap_nil, List.append_assoc, List.cons_append,
    List.nil_append]

/-- The script that a page means -/
def PageRequest.script : PageRequest → Script
  | .traces _       => .traces
  | .traceMeta _    => .trace
  | .tree _ _       => .trace
  | .children _ _ _ => .trace

lemma script_request {p : PageRequest} (hp : p.Valid) (cookie : List UInt8) :
    script (phpPath (p.request cookie).uri) = some p.script := by
  cases p with
  | traces r =>
    have hpath : phpPath ((PageRequest.traces r).request cookie).uri = bytes "/api/traces" :=
      @phpPath_append (bytes "/api/traces") (63 :: r.params) (by decide) (by decide) (.inl rfl)
    rw [hpath]
    rfl
  | traceMeta key =>
    rw [PageRequest.request, uri_traceMeta hp]
    exact script_keyUri hp (by simp) (.inr rfl)
  | tree key sort =>
    rw [PageRequest.request, uri_tree hp]
    exact script_keyUri hp isPart_tree (.inl rfl)
  | children key nodeId sort =>
    rw [PageRequest.request, uri_children hp.1]
    exact script_keyUri hp.1 (isPart_children nodeId) (.inl rfl)

end routing

/-! ### Answers -/

section answers

variable {path : String} {site : Site} {storage : Storage} {sections : Sections}
  {token salt dataDir cookie : List UInt8} {key : String} {sort : SortKey} {nodeId : ℕ}

namespace Site.Serves

lemma openIndexDbRo_eq (h : site.Serves path storage sections token salt dataDir) :
    site.openIndexDbRo sections = .ok storage.index := by
  rw [Site.openIndexDbRo, h.dir]
  simp only [bind, Except.bind, h.index]
  rfl

lemma openTraceDbOr404_eq (h : site.Serves path storage sections token salt dataDir)
    (hkey : IsTraceKey (bytes key)) : site.openTraceDbOr404 sections (bytes key) =
      match storage.traces ⟨key⟩ with
      | some db => .ok db
      | none    => .error (.json notFound) := by
  have hvalid : isValidTraceKey (bytes key) = true := isValidTraceKey_iff.mpr (.inl hkey)
  have hfile := h.traces ⟨key⟩
  rw [openTraceDbOr404, Site.openTraceDbRo, hvalid, h.dir]
  simp only [PhpTreeViz.openTraceDbRo, hvalid, bind, Except.bind, Bool.not_true, Bool.false_eq_true,
    if_false, hfile]
  cases storage.traces ⟨key⟩ with
  | none    => rfl
  | some db => rfl

end Site.Serves

variable [Hmac]

lemma guarded_eq {α : Type} {r : HttpRequest} {rest : Except Failure α}
    (hmethod : dispatchMethod "GET" r = .ok ()) (hsession : requireSession sections r = .ok ()) :
    (do
      dispatchMethod "GET" r
      requireSession sections r
      rest) = rest := by
  rw [hmethod, hsession]
  rfl

namespace Site.Serves

variable (h : site.Serves path storage sections token salt dataDir)
include h

/-- The metadata endpoint -/
lemma traceMeta_eq (hkey : IsTraceKey (bytes key)) {r : HttpRequest}
    (hmethod : dispatchMethod "GET" r = .ok ()) (hsession : requireSession sections r = .ok ()) :
    traceMeta site sections r (bytes key) =
      match (storage.traces ⟨key⟩).bind TraceDb.traceMeta with
      | some row => .ok (traceMetaItem row
          (((storage.index.find? ⟨key⟩).map (·.anomalyCount)).getD 0))
      | none     => .error (.json notFound) := by
  have hfind : (storage.index.rows.find? fun row => bytes row.traceKey.stem = bytes key) =
      storage.index.find? ⟨key⟩ := by
    refine congrArg (List.find? · storage.index.rows) (funext fun row => ?_)
    rw [decide_eq_decide, bytes_inj]
    exact ⟨fun heq => congrArg TraceKey.mk heq, fun heq => congrArg TraceKey.stem heq⟩
  rw [traceMeta, guarded_eq hmethod hsession, h.openTraceDbOr404_eq hkey, h.openIndexDbRo_eq]
  cases storage.traces ⟨key⟩ with
  | none => rfl
  | some db =>
    simp only [bind, Except.bind, Option.bind_some]
    cases db.traceMeta with
    | none => rfl
    | some row =>
      rw [← hfind]
      rfl

variable [Php] {order : StartDesc}

/-- The list endpoint -/
lemma run_traces {r : TraceList.Fetch} (hoffset : r.offset < 2 ^ 63)
    (hsession : requireSession sections ((PageRequest.traces r).request cookie) = .ok ()) :
    Script.traces.run order site sections ((PageRequest.traces r).request cookie) =
      match handleTracesList order storage.index r.q TraceList.pageLimit r.offset with
      | some response => .ok (.traces response)
      | none          => .error .exception := by
  have hquery : ((PageRequest.traces r).request cookie).query = phpGet r.params :=
    @query_append (bytes "/api/traces") r.params ((PageRequest.traces r).request cookie) rfl
      (by decide)
  rw [Script.run, tracesList, guarded_eq rfl hsession, hquery,
    TraceList.parseTracesQuery_params hoffset, h.openIndexDbRo_eq]
  simp only [orJsonError, bind, Except.bind, textOf_bytes, Option.bind_some, Int.toNat_natCast]
  cases handleTracesList order storage.index r.q TraceList.pageLimit r.offset with
  | none          => rfl
  | some response => rfl

/-- The tree endpoint -/
lemma traceTree_eq (hkey : IsTraceKey (bytes key)) {r : HttpRequest}
    (hquery : r.query = phpGet (bytes "depth=2&sort=" ++ bytes sort.name))
    (hmethod : dispatchMethod "GET" r = .ok ()) (hsession : requireSession sections r = .ok ()) :
    traceTree site sections r (bytes key) =
      match storage.traces ⟨key⟩ with
      | some db => .ok (handleTraceTree db 2 sort)
      | none    => .error (.json notFound) := by
  rw [traceTree, guarded_eq hmethod hsession, hquery, parseTreeQuery_page,
    h.openTraceDbOr404_eq hkey]
  cases storage.traces ⟨key⟩ with
  | none    => rfl
  | some db => rfl

/-- The children endpoint -/
lemma traceChildren_eq (hkey : IsTraceKey (bytes key)) {r : HttpRequest}
    (hquery : r.query = phpGet (bytes "sort=" ++ bytes sort.name))
    (hmethod : dispatchMethod "GET" r = .ok ()) (hsession : requireSession sections r = .ok ()) :
    traceChildren site sections r (bytes key) nodeId =
      match storage.traces ⟨key⟩ with
      | some db => .ok (handleTraceChildren db nodeId sort none 0)
      | none    => .error (.json notFound) := by
  rw [traceChildren, guarded_eq hmethod hsession, hquery, parseChildrenQuery_page,
    h.openTraceDbOr404_eq hkey]
  cases storage.traces ⟨key⟩ with
  | none    => rfl
  | some db => rfl

end Site.Serves

end answers

/-! ### The three shapes -/

section shapes

variable [Hmac] [Php] {order : StartDesc} {path : String} {site : Site} {storage : Storage}
  {sections : Sections} {token salt dataDir cookie : List UInt8} {key : String} {sort : SortKey}
  {nodeId : ℕ}

/-- What the rest of a path asks of a trace -/
def askTrace (site : Site) (sections : Sections) (r : HttpRequest) (key : List UInt8) :
    List (List UInt8) → Except Failure Reply
  | [] => (traceMeta site sections r key).map .traceMeta
  | [tree] =>
    if tree = bytes "tree" then (traceTree site sections r key).map .tree
    else .error (.json Site.notFound)
  | [tree, nodeId, children] =>
    if tree = bytes "tree" ∧ isNodeSegment nodeId ∧ children = bytes "children" then
      (traceChildren site sections r key (leadingInt nodeId).toNat).map .children
    else .error (.json Site.notFound)
  | _ => .error (.json Site.notFound)

lemma tracePhp_eq {r : HttpRequest} {parts : List (List UInt8)} {rest : List UInt8}
    (hkey : IsTraceKey (bytes key)) (huri : r.uri = keyUri (bytes key) parts rest)
    (hparts : ∀ p ∈ parts, IsPart p) (hrest : rest.head? = some 63 ∨ rest = []) :
    tracePhp site sections r = askTrace site sections r (bytes key) parts := by
  have hpath := phpPath_keyUri hkey hparts hrest
  rw [tracePhp, huri, hpath, dropNewline_of_notMem (notMem_keyUri hkey hparts (by decide)),
    splitOn_path hkey fun p hp => hparts p hp 47 (by decide)]
  have hsegment := hkey.isKeySegment
  rcases parts with _ | ⟨tree, _ | ⟨id, _ | ⟨children, _ | ⟨other, parts⟩⟩⟩⟩
  · simp [askTrace, hsegment]
  · simp [askTrace, hsegment]
  · rfl
  · simp [askTrace, hsegment]
  · rfl

lemma tracePhp_traceMeta (hkey : IsTraceKey (bytes key)) :
    tracePhp site sections ((PageRequest.traceMeta key).request cookie) =
      (traceMeta site sections ((PageRequest.traceMeta key).request cookie) (bytes key)).map
        .traceMeta :=
  tracePhp_eq hkey (uri_traceMeta hkey) (List.forall_mem_nil _) (.inr rfl)

lemma tracePhp_tree (hkey : IsTraceKey (bytes key)) :
    tracePhp site sections ((PageRequest.tree key sort).request cookie) =
      (traceTree site sections ((PageRequest.tree key sort).request cookie) (bytes key)).map
        .tree :=
  tracePhp_eq hkey (uri_tree hkey) isPart_tree (.inl rfl)

lemma tracePhp_children (hkey : IsTraceKey (bytes key)) (hpos : 0 < nodeId)
    (hlt : nodeId < 2 ^ 63) :
    tracePhp site sections ((PageRequest.children key nodeId sort).request cookie) =
      (traceChildren site sections ((PageRequest.children key nodeId sort).request cookie)
        (bytes key) nodeId).map .children := by
  rw [tracePhp_eq hkey (uri_children hkey) (isPart_children nodeId) (.inl rfl)]
  simp only [askTrace, isNodeSegment_toString hpos, leadingInt_toString hlt, true_and, if_true]

/-- The answer of a script -/
def Script.reply (order : StartDesc) (site : Site) (sections : Sections) (r : HttpRequest)
    (s : Script) : Reply :=
  match s.run order site sections r with
  | .ok reply => reply
  | .error e  => .error e.toJsonError

lemma respond_eq {r : HttpRequest} {s : Script}
    (hload : Config.load path site.configFile = .ok sections)
    (hscript : script (phpPath r.uri) = some s) :
    respond order site r path = s.reply order site sections r := by
  rw [respond, hscript, hload]
  rfl

/-- With a session the scripts answer what the pages mean. -/
lemma reply_of_session (h : site.Serves path storage sections token salt dataDir)
    {p : PageRequest} (hp : p.Valid)
    (hsession : requireSession sections (p.request cookie) = .ok ()) :
    p.script.reply order site sections (p.request cookie) = p.reply order storage := by
  cases p with
  | traces r =>
    rw [PageRequest.script, Script.reply, h.run_traces hp hsession, PageRequest.reply]
    cases handleTracesList order storage.index r.q TraceList.pageLimit r.offset with
    | none          => rfl
    | some response => rfl
  | traceMeta key =>
    rw [PageRequest.script, Script.reply, Script.run, tracePhp_traceMeta hp,
      h.traceMeta_eq hp rfl hsession, PageRequest.reply]
    cases (storage.traces ⟨key⟩).bind TraceDb.traceMeta with
    | none     => rfl
    | some row => rfl
  | tree key sort =>
    have hquery := query_keyUri (r := (PageRequest.tree key sort).request cookie) hp isPart_tree
      (uri_tree hp)
    rw [PageRequest.script, Script.reply, Script.run, tracePhp_tree hp,
      h.traceTree_eq hp hquery rfl hsession, PageRequest.reply]
    cases storage.traces ⟨key⟩ with
    | none    => rfl
    | some db => rfl
  | children key nodeId sort =>
    obtain ⟨hkey, hpos, hlt⟩ := hp
    have hquery := query_keyUri (r := (PageRequest.children key nodeId sort).request cookie) hkey
      (isPart_children nodeId) (uri_children hkey)
    rw [PageRequest.script, Script.reply, Script.run, tracePhp_children hkey hpos hlt,
      h.traceChildren_eq hkey hquery rfl hsession, PageRequest.reply]
    cases storage.traces ⟨key⟩ with
    | none    => rfl
    | some db => rfl

/-- Without one they answer that there is none. -/
lemma reply_of_refused {p : PageRequest} (hp : p.Valid)
    (hsession : requireSession sections (p.request cookie) = .error (.json unauthorizedError)) :
    p.script.reply order site sections (p.request cookie) = .error unauthorizedError := by
  cases p with
  | traces r =>
    rw [PageRequest.script, Script.reply, Script.run, tracesList, guarded_eq_refused hsession]
    rfl
  | traceMeta key =>
    rw [PageRequest.script, Script.reply, Script.run, tracePhp_traceMeta hp, traceMeta,
      guarded_eq_refused hsession]
    rfl
  | tree key sort =>
    rw [PageRequest.script, Script.reply, Script.run, tracePhp_tree hp, traceTree,
      guarded_eq_refused hsession]
    rfl
  | children key nodeId sort =>
    rw [PageRequest.script, Script.reply, Script.run, tracePhp_children hp.1 hp.2.1 hp.2.2,
      traceChildren, guarded_eq_refused hsession]
    rfl

/-- The API understands what the pages ask for: with a session it answers from the stored trace, and
without one it does not answer. -/
theorem respond_request (h : site.Serves path storage sections token salt dataDir)
    {p : PageRequest} (hp : p.Valid) (cookie : List UInt8) :
    respond order site (p.request cookie) path =
      if phpCookie cookie cookieName = some (computeSessionValue token salt)
      then p.reply order storage
      else .error unauthorizedError := by
  rw [respond_eq h.load (script_request hp cookie)]
  split_ifs with hcookie
  · have hsession : requireSession sections (p.request cookie) = .ok () :=
      requireSession_eq_ok_iff.mpr ⟨token, salt, h.token, h.salt, hcookie⟩
    exact reply_of_session h hp hsession
  · exact reply_of_refused hp (requireSession_of_stranger h.token h.salt hcookie)

end shapes

/-- The page of a stored trace asks for its tree with the cookie of a login. -/
theorem respond_request_tree :
    letI : Php := ⟨fun _ => 0⟩
    letI := Hmac.stored
    ∃ (order : StartDesc) (site : Site) (storage : Storage),
      storage.traces ⟨"0123456789abcdef0123456789abcdef"⟩ = some twoChildren ∧
      respond order site ((PageRequest.tree "0123456789abcdef0123456789abcdef"
          .totalWallDesc).request
        (cookieHeader (some (bytes "gxhZMoI1tD8OIkdJEMMZszrNQXLDMz84PFWL8ZJMpZw")))) "" =
      .tree (handleTraceTree twoChildren 2 .totalWallDesc) ∧
      (handleTraceTree twoChildren 2 .totalWallDesc).map (·.nodeId) = [1, 2, 3] := by
  let _ : Php := ⟨fun _ => 0⟩
  let _ := Hmac.stored
  let key : TraceKey := ⟨"0123456789abcdef0123456789abcdef"⟩
  let storage : Storage := Storage.empty.setTrace key twoChildren
  let file := bytes "[auth]\ntoken = \"token\"\nsession_salt = \"salt\"\n" ++
    bytes "[storage]\ndata_dir = \"/srv/\"\n"
  let tracePath (stem : List UInt8) := bytes "/srv" ++ bytes "/traces/" ++ stem ++ bytes ".sqlite"
  let site : Site := ⟨some file, fun _ => .opened 1 storage.index,
    fun path => if path = tracePath (bytes key.stem) then .opened 1 twoChildren else .missing⟩
  have hload : (Config.load "" site.configFile).toOption.isSome = true := by decide +kernel
  have htoken : (Config.load "" site.configFile).bind Config.token = .ok (bytes "token") := by
    decide +kernel
  have hsalt : (Config.load "" site.configFile).bind Config.sessionSalt = .ok (bytes "salt") := by
    decide +kernel
  have hdir : (Config.load "" site.configFile).bind Site.resolveDataDir = .ok (bytes "/srv/") := by
    decide +kernel
  have htrace : storage.traces key = some twoChildren := by simp [storage, Storage.setTrace]
  have hopen : ∀ path, site.traceDb path =
      if path = tracePath (bytes key.stem) then .opened 1 twoChildren else .missing := fun _ => rfl
  have htraces : ∀ k : TraceKey, site.traceDb (rtrimSlash (bytes "/srv/") ++ bytes "/traces/" ++
      bytes k.stem ++ bytes ".sqlite") =
        match storage.traces k with
        | some db => .opened 1 db
        | none    => .missing := by
    intro k
    by_cases hk : k = key
    · rw [hk, htrace]
      exact (hopen _).trans (if_pos rfl)
    · have hnone : storage.traces k = none := by
        simp [storage, Storage.setTrace, Storage.empty, hk]
      rw [hnone]
      exact (hopen _).trans (if_neg fun heq => hk (congrArg TraceKey.mk
        (bytes_inj.mp (List.append_cancel_left (List.append_cancel_right heq)))))
  cases hsections : Config.load "" site.configFile with
  | error e =>
    rw [hsections] at hload
    cases hload
  | ok sections =>
    rw [hsections] at htoken hsalt hdir
    have hserves : site.Serves "" storage sections (bytes "token") (bytes "salt")
        (bytes "/srv/") := ⟨hsections, htoken, hsalt, hdir, rfl, htraces⟩
    refine ⟨DescBy.stable _, site, storage, htrace, ?_, by decide +kernel⟩
    have hkey : IsTraceKey (bytes key.stem) := ⟨by decide, by decide⟩
    rw [respond_request hserves (p := .tree key.stem .totalWallDesc) hkey,
      if_pos (by decide +kernel), PageRequest.reply, htrace]

end PhpTreeViz
