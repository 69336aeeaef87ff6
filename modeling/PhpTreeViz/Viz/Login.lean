import PhpTreeViz.Core.Url
import PhpTreeViz.Viz.Requests

/-!
# There and back again

A request that is answered with 401 sends the tab to the login page, and the URL of the login page
carries the page that the user comes from. A login that succeeds sends the tab there, and nowhere
else: the link in the URL, which anybody can make up, has to stay below `/viz/`.
-/

namespace PhpTreeViz

open Core

/-! ### The login page -/

/-- `/viz/login.html` -/
def loginHtml : Location :=
  ⟨[bytes "viz", bytes "login.html"], [], by decide, by decide, List.forall_mem_nil _⟩

/-- What `redirectToLogin` replaces a page with -/
def loginTarget (l : Location) : List UInt8 :=
  bytes "/viz/login.html?next=" ++ encodeURIComponent l.href

/-- The login page that the target leads to -/
def loginPage (l : Location) : Location :=
  loginHtml.withQuery (bytes "next" ++ 61 :: encodeURIComponent l.href)

/-- `new URLSearchParams(location.search).get(name)` -/
def searchParam (search name : List UInt8) : Option (List UInt8) :=
  ((formParse (if search.head? = some 63 then search.tail else search)).find? (·.1 = name)).map
    (·.2)

def resolveNext (search : List UInt8) : List UInt8 :=
  let fallback := bytes "/viz/index.html"
  match searchParam search (bytes "next") with
  | none     => fallback
  | some raw => if bytes "/viz/" <+: raw then raw else fallback

/-- The link of a row in the list -/
def rowHref (key : String) : List UInt8 :=
  bytes "/viz/trace.html?key=" ++ encodeURIComponent (bytes key)

/-- `/viz/trace.html` -/
def traceHtml : Location :=
  ⟨[bytes "viz", bytes "trace.html"], [], by decide, by decide, List.forall_mem_nil _⟩

/-- The page of a trace -/
def tracePage (key : String) : Location :=
  traceHtml.withQuery (bytes "key" ++ 61 :: encodeURIComponent (bytes key))

/-- A page with data, which the login page is not -/
structure IsPage (l : Location) : Prop where
  viz : bytes "/viz/" <+: l.pathname
  ne_login : l.pathname ≠ loginHtml.pathname

section links

variable {l p : Location} {t value : List UInt8}

lemma isSome_parse_of_viz (h : bytes "/viz/" <+: t) : (Location.parse t).isSome := by
  obtain ⟨rest, rfl⟩ := h
  exact @Location.isSome_parse 118 (by decide) (bytes "iz/" ++ rest)

lemma prefix_resolveNext (search : List UInt8) : bytes "/viz/" <+: resolveNext search := by
  rw [resolveNext]
  cases searchParam search (bytes "next") with
  | none => exact List.prefix_append _ (bytes "index.html")
  | some raw =>
    dsimp only
    split_ifs with h
    · exact h
    · exact List.prefix_append _ (bytes "index.html")

lemma prefix_loginTarget (l : Location) : bytes "/viz/" <+: loginTarget l :=
  (by decide : bytes "/viz/" <+: bytes "/viz/login.html?next=").trans (List.prefix_append _ _)

/-- A page reads the parameter that was put into its URL. -/
lemma searchParam_withQuery {name : List UInt8} (hname : ∀ b ∈ name, b ∈ alphanumerics)
    (l : Location) (value : List UInt8) :
    searchParam (l.withQuery (name ++ 61 :: encodeURIComponent value)).search name =
      some value := by
  have hkept : ∀ b ∈ name, b ∈ querySafe := fun b hb =>
    (by decide : ∀ b ∈ alphanumerics, b ∈ querySafe) b (hname b hb)
  -- the browser encodes the quotes that `encodeURIComponent` leaves
  have hquery : (l.withQuery (name ++ 61 :: encodeURIComponent value)).query =
      name ++ 61 :: percentEncode (uriComponentSafe.filter (· ∈ querySafe)) value := by
    rw [Location.withQuery_query, percentEncode_append, percentEncode_of_forall hkept,
      percentEncode_cons, if_pos (by decide), encodeURIComponent,
      percentEncode_percentEncode (by decide)]
    rfl
  have hne : name ++ 61 :: percentEncode (uriComponentSafe.filter (· ∈ querySafe)) value ≠ [] := by
    simp
  rw [searchParam, Location.search, hquery, if_neg hne, List.head?_cons, if_pos rfl,
    List.tail_cons, formParse_pair hname (by decide), List.find?_singleton, if_pos (by simp),
    Option.map_some]

lemma isPlain_encodeURIComponent {b : UInt8} (h : b ∈ encodeURIComponent value) :
    Location.IsPlain b :=
  (by decide : ∀ b ∈ uriComponentSafe ++ 37 :: bytes "0123456789ABCDEF", Location.IsPlain b) b
    (List.mem_append.mpr ((mem_percentEncode h).imp_right List.mem_cons.mpr))

/-- A link with a parameter leads to the page with this parameter. -/
lemma parse_link (hfirst : l.segments.head l.ne_nil ≠ []) {name : List UInt8}
    (hname : ∀ b ∈ name, b ∈ alphanumerics) (value : List UInt8) :
    Location.parse (l.pathname ++ 63 :: (name ++ 61 :: encodeURIComponent value)) =
      some (l.withQuery (name ++ 61 :: encodeURIComponent value)) := by
  refine Location.parse_append hfirst (.inl rfl) ?_
  rw [List.forall_mem_cons, List.forall_mem_append, List.forall_mem_cons]
  refine ⟨by decide, fun b hb => ?_, by decide, fun b => isPlain_encodeURIComponent⟩
  exact (by decide : ∀ b ∈ alphanumerics, Location.IsPlain b) b (hname b hb)

/-- The target leads to the login page. -/
lemma parse_loginTarget (l : Location) : Location.parse (loginTarget l) = some (loginPage l) := by
  have htarget : bytes "/viz/login.html?next=" =
      loginHtml.pathname ++ 63 :: (bytes "next" ++ [61]) := by decide
  have hlink := @parse_link loginHtml (by decide) (bytes "next") (by decide) l.href
  rw [loginTarget, loginPage, htarget]
  simpa using hlink

/-- The link of a row leads to the page of its trace. -/
lemma parse_rowHref (key : String) : Location.parse (rowHref key) = some (tracePage key) := by
  have hhref : bytes "/viz/trace.html?key=" =
      traceHtml.pathname ++ 63 :: (bytes "key" ++ [61]) := by decide
  have hlink := @parse_link traceHtml (by decide) (bytes "key") (by decide) (bytes key)
  rw [rowHref, tracePage, hhref]
  simpa using hlink

lemma searchParam_tracePage (key : String) :
    searchParam (tracePage key).search (bytes "key") = some (bytes key) :=
  searchParam_withQuery (by decide) traceHtml (bytes key)

lemma isPage_tracePage (key : String) : IsPage (tracePage key) where
  viz := (by decide : bytes "/viz/" <+: traceHtml.pathname)
  ne_login := (by decide : traceHtml.pathname ≠ loginHtml.pathname)

namespace IsPage

variable (h : IsPage p)
include h

lemma head_ne_nil : p.segments.head p.ne_nil ≠ [] := by
  obtain ⟨s, segments, hsegments⟩ := List.exists_cons_of_ne_nil p.ne_nil
  obtain ⟨rest, hviz⟩ := h.viz
  simp only [hsegments, List.head_cons]
  rintro rfl
  rw [Location.pathname_eq, hsegments, intercalate_cons_eq, List.nil_append] at hviz
  cases segments with
  | nil              => cases hviz
  | cons s segments => cases hviz

lemma prefix_href : bytes "/viz/" <+: p.href := h.viz.trans (List.prefix_append _ _)

lemma parse_href : Location.parse p.href = some p := Location.parse_href h.head_ne_nil

/-- The login page knows where the user comes from. -/
lemma resolveNext_loginPage : resolveNext (loginPage p).search = p.href := by
  rw [resolveNext, loginPage, searchParam_withQuery (by decide)]
  exact if_pos h.prefix_href

end IsPage

end links

/-! ### A tab -/

/-- What a tab shows, and what the scripts of its page have done: whether `redirectToLogin` has
run, the links that `location.replace` was called with, and the requests without an answer.
Without a location the tab has left the host. -/
structure Tab where
  location : Option Location
  redirecting : Bool
  replaced : List (List UInt8)
  inFlight : List HttpRequest
  deriving DecidableEq

namespace Tab

/-- A page starts anew. -/
def load (location : Option Location) : Tab := ⟨location, false, [], []⟩

def redirectToLogin (tab : Tab) : Tab :=
  match tab.location with
  | none   => tab
  | some l =>
    if tab.redirecting then tab
    else { tab with redirecting := true, replaced := tab.replaced ++ [loginTarget l] }

/-- `apiFetch` looks at the status. -/
def answered (tab : Tab) : Reply → Tab
  | .error e => if e.status = 401 then tab.redirectToLogin else tab
  | _        => tab

/-- `onSubmit`, of the page with the query `search` -/
def submitted (tab : Tab) (search : List UInt8) : Reply → Tab
  | .noContent _ => { tab with replaced := tab.replaced ++ [resolveNext search] }
  | _            => tab

end Tab

/-- A tab, and the browser that it belongs to -/
structure Visit where
  client : Client
  tab : Tab

/-- `elsewhere` are the other tabs and the operator, and `follow` is a link or a bookmark to some
page of the host. -/
inductive VisitEvent where
  | elsewhere (e : ClientEvent)
  | follow (t : List UInt8)
  | fetch (p : PageRequest)
  | answer (r : HttpRequest) (reply : Reply)
  | submit (token : List UInt8)
  | navigate

namespace Visit

variable [Hmac] [Php] (https : Bool) (path : String)

/-- Requests are answered in any order and by the configuration of that time. A browser that is
started again opens the tab anew, and of several replacements the last one counts. -/
inductive Step : Visit → VisitEvent → Visit → Prop where
  | elsewhere (v : Visit) (e : ClientEvent) :
      Step v (.elsewhere e) ⟨v.client.after https path e,
        if e = .restart then .load v.tab.location else v.tab⟩
  | follow {v : Visit} {t : List UInt8} {l : Location} : Location.parse t = some l →
      Step v (.follow t) { v with tab := .load (some l) }
  | fetch {v : Visit} {l : Location} (p : PageRequest) :
      v.tab.location = some l → l.pathname ≠ loginHtml.pathname →
      Step v (.fetch p) { v with tab := { v.tab with
        inFlight := p.request (cookieHeader v.client.cookie) :: v.tab.inFlight } }
  | answer {v : Visit} {r : HttpRequest} (site : Site) (order : StartDesc) :
      r ∈ v.tab.inFlight → site.configFile = v.client.configFile →
      Step v (.answer r (respond order site r path)) { v with tab :=
        { v.tab with inFlight := v.tab.inFlight.erase r }.answered (respond order site r path) }
  | submit {v : Visit} {l : Location} (site : Site) (order : StartDesc) (token : List UInt8) :
      v.tab.location = some l → l.pathname = loginHtml.pathname →
      site.configFile = v.client.configFile →
      Step v (.submit token) ⟨v.client.after https path (.login token),
        v.tab.submitted l.search (respond order site (v.client.loginRequest token) path)⟩
  | navigate {v : Visit} {t : List UInt8} : v.tab.replaced.getLast? = some t →
      Step v .navigate { v with tab := .load (Location.parse t) }

/-- The page that the user went to last -/
def opened (l : Location) : VisitEvent → Location
  | .follow t => (Location.parse t).getD l
  | _         => l

end Visit

/-! ### Where a tab can be -/

namespace Tab

/-- The tab shows a page of the host, and goes to such a page only. -/
def OnSite (tab : Tab) : Prop :=
  tab.location.isSome ∧ ∀ t ∈ tab.replaced, (Location.parse t).isSome

/-- The tab shows the page or the login page for it. One redirect to the login page is on its way at
most, and from the login page there is no way but back. -/
inductive Near (p : Location) : Tab → Prop where
  | idle {inFlight : List HttpRequest} : Near p ⟨some p, false, [], inFlight⟩
  | leaving {inFlight : List HttpRequest} : Near p ⟨some p, true, [loginTarget p], inFlight⟩
  | login {replaced : List (List UInt8)} : (∀ t ∈ replaced, t = p.href) →
      Near p ⟨some (loginPage p), false, replaced, []⟩

section steps

variable {tab : Tab} {p l : Location}

lemma onSite_load (l : Location) : (load (some l)).OnSite := ⟨rfl, List.forall_mem_nil _⟩

lemma near_load (p : Location) : Near p (load (some p)) := .idle

namespace OnSite

variable (h : tab.OnSite)
include h

lemma append {t : List UInt8} (ht : bytes "/viz/" <+: t) (redirecting : Bool) :
    OnSite { tab with redirecting := redirecting, replaced := tab.replaced ++ [t] } := by
  refine ⟨h.1, List.forall_mem_append.mpr ⟨h.2, ?_⟩⟩
  exact List.forall_mem_singleton.mpr (isSome_parse_of_viz ht)

lemma redirectToLogin : tab.redirectToLogin.OnSite := by
  unfold Tab.redirectToLogin
  split
  · exact h
  · split_ifs
    · exact h
    · exact h.append (prefix_loginTarget _) true

lemma answered (reply : Reply) : (tab.answered reply).OnSite := by
  cases reply with
  | error e =>
    rw [Tab.answered]
    split_ifs
    · exact h.redirectToLogin
    · exact h
  | _ => exact h

lemma submitted (search : List UInt8) (reply : Reply) : (tab.submitted search reply).OnSite := by
  cases reply with
  | noContent line => exact h.append (prefix_resolveNext search) tab.redirecting
  | _              => exact h

lemma navigate {t : List UInt8} (ht : tab.replaced.getLast? = some t) :
    (load (Location.parse t)).OnSite :=
  ⟨h.2 t (List.mem_of_getLast? ht), List.forall_mem_nil _⟩

end OnSite

namespace Near

variable (h : Near p tab)
include h

lemma reload : Near p (load tab.location) := by
  cases h with
  | idle    => exact .idle
  | leaving => exact .idle
  | login _ => exact .login (List.forall_mem_nil _)

/-- On a page with data only the first answer with 401 counts. -/
lemma answered {r : HttpRequest} (hr : r ∈ tab.inFlight) (reply : Reply) :
    Near p ({ tab with inFlight := tab.inFlight.erase r }.answered reply) := by
  have hredirect : Near p ({ tab with inFlight := tab.inFlight.erase r } : Tab) ∧
      Near p ({ tab with inFlight := tab.inFlight.erase r } : Tab).redirectToLogin := by
    cases h with
    | idle    => exact ⟨.idle, .leaving⟩
    | leaving => exact ⟨.leaving, .leaving⟩
    | login _ => cases hr
  cases reply with
  | error e =>
    rw [Tab.answered]
    split_ifs
    · exact hredirect.2
    · exact hredirect.1
  | _ => exact hredirect.1

lemma fetch (hl : tab.location = some l) (hpath : l.pathname ≠ loginHtml.pathname)
    (r : HttpRequest) : Near p { tab with inFlight := r :: tab.inFlight } := by
  cases h with
  | idle    => exact .idle
  | leaving => exact .leaving
  | login _ =>
    obtain rfl := Option.some.inj hl
    exact absurd rfl hpath

lemma submitted (hp : IsPage p) (hl : tab.location = some l)
    (hpath : l.pathname = loginHtml.pathname) (reply : Reply) :
    Near p (tab.submitted l.search reply) := by
  cases h with
  | idle =>
    obtain rfl := Option.some.inj hl
    exact absurd hpath hp.ne_login
  | leaving =>
    obtain rfl := Option.some.inj hl
    exact absurd hpath hp.ne_login
  | login hreplaced =>
    obtain rfl := Option.some.inj hl
    cases reply with
    | noContent line =>
      refine .login (List.forall_mem_append.mpr ⟨hreplaced, ?_⟩)
      exact List.forall_mem_singleton.mpr hp.resolveNext_loginPage
    | _ => exact .login hreplaced

lemma navigate (hp : IsPage p) {t : List UInt8} (ht : tab.replaced.getLast? = some t) :
    Near p (load (Location.parse t)) := by
  cases h with
  | idle    => cases ht
  | leaving =>
    obtain rfl : loginTarget p = t := Option.some.inj ht
    rw [parse_loginTarget]
    exact .login (List.forall_mem_nil _)
  | login hreplaced =>
    rw [hreplaced t (List.mem_of_getLast? ht), hp.parse_href]
    exact .idle

end Near

end steps

end Tab

/-! ### Runs -/

namespace Visit

variable [Hmac] [Php] {https : Bool} {path : String} {v v' : Visit} {e : VisitEvent}
  {p l : Location} {sections : Sections} {token salt : List UInt8}

lemma onSite_step (hstep : Step https path v e v') (h : v.tab.OnSite) : v'.tab.OnSite := by
  cases hstep with
  | elsewhere e =>
    split_ifs
    · exact ⟨h.1, List.forall_mem_nil _⟩
    · exact h
  | follow hl               => exact Tab.onSite_load _
  | fetch p hl hpath        => exact h
  | @answer r site order =>
    have herase : Tab.OnSite { v.tab with inFlight := v.tab.inFlight.erase r } := h
    exact herase.answered _
  | submit site order token => exact h.submitted _ _
  | navigate ht             => exact h.navigate ht

/-- As long as the user goes nowhere else, the tab stays near the page. -/
lemma near_step (hp : IsPage (opened p e)) (hstep : Step https path v e v')
    (h : IsPage p → v.tab.Near p) : v'.tab.Near (opened p e) := by
  cases hstep with
  | elsewhere e =>
    split_ifs
    · exact (h hp).reload
    · exact h hp
  | follow hl =>
    rw [opened, hl]
    exact Tab.near_load _
  | fetch p hl hpath                 => exact (h hp).fetch hl hpath _
  | answer site order hr             => exact (h hp).answered hr _
  | submit site order token hl hpath => exact (h hp).submitted hp hl hpath _
  | navigate ht                      => exact (h hp).navigate hp ht

/-- The page is there again, and its requests are let through. -/
structure Back (path : String) (p : Location) (v : Visit) : Prop where
  location : v.tab.location = some p
  replaced : v.tab.replaced = []
  admitted : ∀ r : HttpRequest, r.cookie = cookieHeader v.client.cookie → v.client.Admitted path r

section back

variable {c : Client} {site : Site} {order : StartDesc}

omit [Php] in
lemma after_login (hload : Config.load path c.configFile = .ok sections)
    (hopens : Opens https sections token salt) : c.after https path (.login token) =
      { c with cookie := some (computeSessionValue token salt) } := by
  obtain ⟨tls, htls, hsecure⟩ := hopens.tls
  obtain ⟨line, hline, hset⟩ := (isSessionValue token salt).setCookie_issue c.cookie https htls
  have hkept : ¬ (tls = true ∧ https = false) := by
    rintro ⟨ht, hs⟩
    have := hsecure ht
    rw [hs] at this
    cases this
  rw [Client.after, Client.send, hload, Except.bind, authPhp_of_opens hopens, hline]
  exact congrArg (Client.mk c.configFile) (hset.trans (if_neg hkept))

lemma respond_login (hload : Config.load path site.configFile = .ok sections)
    (hopens : Opens https sections token salt) :
    ∃ line, respond order site (c.loginRequest token) path = .noContent line := by
  obtain ⟨tls, htls, -⟩ := hopens.tls
  obtain ⟨line, hline, -⟩ := (isSessionValue token salt).setCookie_issue none https htls
  have hscript : script (phpPath (c.loginRequest token).uri) = some .auth := rfl
  refine ⟨line, ?_⟩
  rw [respond_eq hload hscript, Script.reply, Script.run, authPhp_of_opens hopens, hline]
  rfl

variable (hload : Config.load path v.client.configFile = .ok sections)
  (hopens : Opens https sections token salt)
include hload hopens

omit [Php] in
lemma back_of_cookie (hlocation : v.tab.location = some p) (hreplaced : v.tab.replaced = [])
    (hcookie : phpCookie (cookieHeader v.client.cookie) cookieName =
      some (computeSessionValue token salt)) : v.Back path p := by
  refine ⟨hlocation, hreplaced, fun r hr => ?_⟩
  rw [Client.Admitted, hload]
  exact requireSession_eq_ok_iff.mpr ⟨token, salt, hopens.token, hopens.salt, hr ▸ hcookie⟩

/-- The user types in the token. -/
lemma exists_run_of_login (hp : IsPage p) (hl : v.tab.location = some (loginPage p)) :
    ∃ v', Run (Step https path) v [.submit token, .navigate] v' ∧ v'.Back path p := by
  let site : Site := ⟨v.client.configFile, fun _ => .missing, fun _ => .missing⟩
  let order : StartDesc := DescBy.stable _
  let reply : Reply := respond order site (v.client.loginRequest token) path
  let v₁ : Visit := ⟨v.client.after https path (.login token),
    v.tab.submitted (loginPage p).search reply⟩
  have hsubmit : Step https path v (.submit token) v₁ := .submit site order token hl rfl rfl
  have hlast : v₁.tab.replaced.getLast? = some p.href := by
    obtain ⟨line, hreply⟩ := @respond_login _ _ _ _ _ _ _ v.client site order hload hopens
    have htab : v₁.tab = v.tab.submitted (loginPage p).search (.noContent line) :=
      congrArg (v.tab.submitted (loginPage p).search) hreply
    rw [htab, Tab.submitted, hp.resolveNext_loginPage]
    exact List.getLast?_concat
  have hnavigate : Step https path v₁ .navigate ⟨v₁.client, .load (Location.parse p.href)⟩ :=
    .navigate hlast
  have hclient : v₁.client =
      { v.client with cookie := some (computeSessionValue token salt) } :=
    after_login hload hopens
  refine ⟨_, .cons hsubmit (.single hnavigate), back_of_cookie ?_ hopens hp.parse_href rfl ?_⟩
  · rw [hclient]
    exact hload
  · rw [hclient]
    exact (isSessionValue token salt).phpCookie_cookieHeader

/-- The redirect that is on its way is followed first. -/
lemma exists_run_of_leaving (hp : IsPage p)
    (hlast : v.tab.replaced.getLast? = some (loginTarget p)) :
    ∃ v', Run (Step https path) v [.navigate, .submit token, .navigate] v' ∧ v'.Back path p := by
  have hnavigate : Step https path v .navigate ⟨v.client, .load (Location.parse (loginTarget p))⟩ :=
    .navigate hlast
  rw [parse_loginTarget] at hnavigate
  obtain ⟨v', hrun, hback⟩ := exists_run_of_login
    (v := ⟨v.client, .load (some (loginPage p))⟩) hload hopens hp rfl
  exact ⟨v', .cons hnavigate hrun, hback⟩

/-- A request without the cookie of the session starts the redirect. -/
lemma exists_run_of_refused (hp : IsPage p) {inFlight : List HttpRequest}
    (htab : v.tab = ⟨some p, false, [], inFlight⟩)
    (hcookie : phpCookie (cookieHeader v.client.cookie) cookieName ≠
      some (computeSessionValue token salt)) :
    ∃ es v', Run (Step https path) v es v' ∧ (∀ t, .follow t ∉ es) ∧ v'.Back path p := by
  let site : Site := ⟨v.client.configFile, fun _ => .missing, fun _ => .missing⟩
  let order : StartDesc := DescBy.stable _
  let ask : PageRequest := .traceMeta "0123456789abcdef0123456789abcdef"
  let r : HttpRequest := ask.request (cookieHeader v.client.cookie)
  have hask : ask.Valid := ⟨by decide, by decide⟩
  have hreply : respond order site r path = .error unauthorizedError := by
    rw [respond_eq hload (script_request hask _)]
    exact reply_of_refused hask (requireSession_of_stranger hopens.token hopens.salt hcookie)
  let v₁ : Visit := ⟨v.client, ⟨some p, false, [], r :: inFlight⟩⟩
  have hfetch : Step https path v (.fetch ask) v₁ := by
    have hstep : Step https path v (.fetch ask) ⟨v.client, { v.tab with inFlight := _ }⟩ :=
      .fetch ask (by rw [htab]) hp.ne_login
    rwa [htab] at hstep
  let v₂ : Visit := ⟨v.client, ⟨some p, true, [loginTarget p], inFlight⟩⟩
  have hanswer : Step https path v₁ (.answer r (.error unauthorizedError)) v₂ := by
    have hstep : Step https path v₁ (.answer r (respond order site r path))
        ⟨v.client, (⟨some p, false, [], (r :: inFlight).erase r⟩ : Tab).answered
          (respond order site r path)⟩ := .answer site order List.mem_cons_self rfl
    rwa [hreply, List.erase_cons_head] at hstep
  obtain ⟨v', hrun, hback⟩ := exists_run_of_leaving (v := v₂) hload hopens hp rfl
  exact ⟨_, v', .cons hfetch (.cons hanswer hrun), by simp, hback⟩

/-- There is a way back from wherever the tab can be. -/
lemma exists_run_of_near (hp : IsPage p) (h : v.tab.Near p) :
    ∃ es v', Run (Step https path) v es v' ∧ (∀ t, .follow t ∉ es) ∧ v'.Back path p := by
  generalize htab : v.tab = tab at h
  cases h with
  | idle =>
    by_cases hcookie : phpCookie (cookieHeader v.client.cookie) cookieName =
        some (computeSessionValue token salt)
    · refine ⟨[], v, .nil v, by simp, back_of_cookie hload hopens ?_ ?_ hcookie⟩
      · rw [htab]
      · rw [htab]
    · exact exists_run_of_refused hload hopens hp htab hcookie
  | leaving =>
    obtain ⟨v', hrun, hback⟩ := exists_run_of_leaving hload hopens hp (by rw [htab]; rfl)
    exact ⟨_, v', hrun, by simp, hback⟩
  | login _ =>
    obtain ⟨v', hrun, hback⟩ := exists_run_of_login hload hopens hp (by rw [htab])
    exact ⟨_, v', hrun, by simp, hback⟩

end back

/-- Wherever the user goes and whatever happens to the session, and whatever link somebody has put
into the URL of the login page, the tab stays on the site. A page with data gives way to the login
page only, and with the token the user gets back to it. -/
theorem returns_of_run {c : Client} {es : List VisitEvent}
    (hrun : Run (Step https path) ⟨c, .load (some l)⟩ es v) :
    v.tab.OnSite ∧ (IsPage (es.foldl opened l) → v.tab.Near (es.foldl opened l) ∧
      ∀ sections token salt, Config.load path v.client.configFile = .ok sections →
        Opens https sections token salt → ∃ es' v', Run (Step https path) v es' v' ∧
          (∀ t, .follow t ∉ es') ∧ v'.Back path (es.foldl opened l)) := by
  have hinv : v.tab.OnSite ∧ (IsPage (es.foldl opened l) → v.tab.Near (es.foldl opened l)) := by
    refine hrun.ghost (I := fun v p => v.tab.OnSite ∧ (IsPage p → v.tab.Near p))
      (P := fun _ => True) ?_ (fun _ _ => trivial) ⟨Tab.onSite_load l, fun _ => Tab.near_load l⟩
    intro v e v' p _ hstep h
    exact ⟨onSite_step hstep h.1, fun hp => near_step hp hstep h.2⟩
  refine ⟨hinv.1, fun hp => ⟨hinv.2 hp, fun sections token salt hload hopens => ?_⟩⟩
  exact exists_run_of_near hload hopens hp (hinv.2 hp)

end Visit

/-- A visitor without a session opens a trace from a bookmark of its row, and logs in. -/
theorem Visit.returns_of_run_row :
    letI : Php := ⟨fun _ => 0⟩
    letI := Hmac.stored
    ∃ (c : Client) (v v' : Visit) (es' : List VisitEvent) (p : Location),
      c.cookie = none ∧ searchParam p.search (bytes "key") =
        some (bytes "0123456789abcdef0123456789abcdef") ∧
      Run (Visit.Step false "") ⟨c, .load (some loginHtml)⟩
        [.follow (rowHref "0123456789abcdef0123456789abcdef")] v ∧
      Run (Visit.Step false "") v es' v' ∧ v'.tab.location = some p ∧
      ∀ r : HttpRequest, r.cookie = cookieHeader v'.client.cookie → v'.client.Admitted "" r := by
  let _ : Php := ⟨fun _ => 0⟩
  let _ := Hmac.stored
  let key : String := "0123456789abcdef0123456789abcdef"
  let file := some (bytes "[auth]\ntoken = \"token\"\nsession_salt = \"salt\"\n")
  let c : Client := ⟨file, none⟩
  have hload : (Config.load "" file).toOption.isSome = true := by decide +kernel
  have htoken : (Config.load "" file).bind Config.token = .ok (bytes "token") := by decide +kernel
  have hsalt : (Config.load "" file).bind Config.sessionSalt = .ok (bytes "salt") := by
    decide +kernel
  have htls : (Config.load "" file).bind
      (Config.getBool · (bytes "server") (bytes "tls") false) = .ok false := by decide +kernel
  cases hsections : Config.load "" file with
  | error e =>
    rw [hsections] at hload
    cases hload
  | ok sections =>
    rw [hsections] at htoken hsalt htls
    have hopens : Opens false sections (bytes "token") (bytes "salt") :=
      ⟨by decide, htoken, hsalt, false, htls, nofun⟩
    have hrun : Run (Visit.Step false "") ⟨c, .load (some loginHtml)⟩
        [.follow (rowHref key)] ⟨c, .load (some (tracePage key))⟩ :=
      .single (.follow (parse_rowHref key))
    have hpage : [VisitEvent.follow (rowHref key)].foldl Visit.opened loginHtml =
        tracePage key := by
      rw [List.foldl_cons, List.foldl_nil, Visit.opened, parse_rowHref, Option.getD_some]
    obtain ⟨-, hback⟩ := Visit.returns_of_run hrun
    rw [hpage] at hback
    obtain ⟨es', v', hrun', -, hv'⟩ :=
      (hback (isPage_tracePage key)).2 sections _ _ hsections hopens
    exact ⟨c, _, v', es', tracePage key, rfl, searchParam_tracePage key, hrun, hrun', hv'.location,
      hv'.admitted⟩

end PhpTreeViz
