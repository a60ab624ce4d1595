import Keepstone.Daemon.Handlers
import Keepstone.Store.Decoys

/-!
# Routing and the token (`crates/daemon/src/main.rs:44-50, 252-332`)

With a token, `route` refuses a request whose path begins with `/api/` and that does not carry it.
The handlers are found later, by a table of exact paths and by `strip_prefix` and `strip_suffix`,
so the refusal covers them only if each of these patterns begins with `/api/` too.

Results:
* `table_cases`: what a request that is not refused leads to;
* `Reaches.api`: every handler is behind `/api/`;
* **`route_without_token`**: without the token, every store gives the same response and is left as
  it was;
* `keeps_route`, `serveAll_keeps`: an invariant of the handlers is one of the daemon, over any
  requests; `lookup_identity_serveAll`: the identity is one.
-/

namespace Keepstone.Daemon

open Keepstone.Lib Keepstone.Crypto Keepstone.Core Keepstone.Store

/-- `Request`. -/
structure Request where
  /-- Method. -/
  method : String
  /-- The target up to the query. -/
  path : String
  /-- The query, decoded. -/
  query : List (String × String)
  /-- Headers; the names are in lower case. -/
  headers : List (String × String)
  /-- Body. -/
  body : List UInt8
  deriving DecidableEq

/-- `Response`. -/
structure Response where
  /-- Status. -/
  status : UInt16
  /-- Content type. -/
  contentType : String
  /-- Body. -/
  body : List UInt8
  deriving DecidableEq

/-- A request that is never answered. -/
structure Diverges where
  deriving DecidableEq

variable (lib : Libraries) (outside : Outside)

namespace Response

/-- `Response::json`. -/
def json (status : UInt16) (value : Json) : Response :=
  ⟨status, "application/json", (lib.toVec value).toOption.getD []⟩

/-- `Response::error`. -/
def error (status : UInt16) (message : String) : Response :=
  json lib status (.obj [("error", .str message)])

/-- `Response::html`. -/
def html (body : String) : Response := ⟨200, "text/html; charset=utf-8", utf8 body⟩

end Response

/-- `api_status`. -/
def apiStatus (result : Handler) (ok : UInt16) : Program Diverges Disk Response :=
  .step fun disk =>
    match result.exec disk with
    | (.ok value, disk) => (.ok (.json lib ok value), disk)
    | (.error (.message text), disk) => (.ok (.error lib 400 text), disk)
    | (.error .diverges, disk) => (.error ⟨⟩, disk)

/-- `api`. -/
def api (result : Handler) : Program Diverges Disk Response := apiStatus lib result 200

/-! ## The router -/

/-- `authorized`. -/
def authorized (request : Request) (expected : String) : Bool :=
  request.headers.any fun (name, value) =>
    name == "authorization" && value == "Bearer " ++ expected

/-- `route_with_id`. -/
def routeWithId (request : Request) : Program Diverges Disk Response :=
  match stripPrefix request.path "/api/drops/" with
  | none =>
    match stripPrefix request.path "/api/log/" with
    | some id => api lib (apiVerify lib outside ((stripSuffix id "/verify").getD id))
    | none => pure (.error lib 404 "not found")
  | some rest =>
    match stripSuffix rest "/open" with
    | some id => api lib (apiOpenDrop lib outside id)
    | none => apiStatus lib (apiDropMeta outside rest) 200

/-- The table of `route`. -/
def table (request : Request) : Program Diverges Disk Response :=
  match request.method, request.path with
  | "GET", "/" => pure (.html lib.indexHtml)
  | "GET", "/index.html" => pure (.html lib.indexHtml)
  | "GET", "/api/id" => api lib (apiId lib outside)
  | "GET", "/api/contacts" => api lib (apiContacts outside)
  | "POST", "/api/contacts" => apiStatus lib (apiAddContact lib outside request.body) 200
  | "GET", "/api/drops" => api lib (apiListDrops lib outside request.query)
  | "POST", "/api/drops" => apiStatus lib (apiCreateDrop lib outside request.body) 201
  | _, _ => routeWithId lib outside request

/-- Whether `route` refuses the request. -/
def refuses (request : Request) (token : Option String) : Bool :=
  startsWith request.path "/api/" && token.any fun expected => !authorized request expected

/-- `route`. -/
def route (request : Request) (token : Option String) : Program Diverges Disk Response :=
  if request.method = "OPTIONS" then pure (.json lib 200 (.obj [("ok", .bool true)]))
  else if refuses request token then pure (.error lib 401 "unauthorized")
  else table lib outside request

/-! ## What a request reaches -/

/-- A request reaches a handler, which the table or `route_with_id` calls. -/
inductive Reaches (request : Request) : Program Diverges Disk Response → Prop
  | id (hpath : request.path = "/api/id") : Reaches request (api lib (apiId lib outside))
  | contacts (hpath : request.path = "/api/contacts") :
      Reaches request (api lib (apiContacts outside))
  | addContact (hpath : request.path = "/api/contacts") :
      Reaches request (apiStatus lib (apiAddContact lib outside request.body) 200)
  | listDrops (hpath : request.path = "/api/drops") :
      Reaches request (api lib (apiListDrops lib outside request.query))
  | createDrop (hpath : request.path = "/api/drops") :
      Reaches request (apiStatus lib (apiCreateDrop lib outside request.body) 201)
  | verify (id : String) (hpath : "/api/log/".toList <+: request.path.toList) :
      Reaches request (api lib (apiVerify lib outside id))
  | openDrop (id : String) (hpath : "/api/drops/".toList <+: request.path.toList) :
      Reaches request (api lib (apiOpenDrop lib outside id))
  | dropMeta (id : String) (hpath : "/api/drops/".toList <+: request.path.toList) :
      Reaches request (apiStatus lib (apiDropMeta outside id) 200)

/-- Whether the page is asked for. -/
def Request.wantsPage (request : Request) : Bool :=
  request.method == "GET" && (request.path == "/" || request.path == "/index.html")

/-- What the table responds where it calls no handler. -/
def publicResponse (request : Request) : Response :=
  if request.wantsPage then .html lib.indexHtml else .error lib 404 "not found"

variable {lib outside} {request : Request} {token : Option String}

/-- Every handler is behind `/api/`. -/
theorem Reaches.api {response : Program Diverges Disk Response}
    (h : Reaches lib outside request response) : "/api/".toList <+: request.path.toList := by
  have hdrops : "/api/".toList <+: "/api/drops/".toList := by decide
  have hlog : "/api/".toList <+: "/api/log/".toList := by decide
  cases h with
  | id hpath => exact hpath ▸ by decide
  | contacts hpath => exact hpath ▸ by decide
  | addContact hpath => exact hpath ▸ by decide
  | listDrops hpath => exact hpath ▸ by decide
  | createDrop hpath => exact hpath ▸ by decide
  | verify id hpath => exact hlog.trans hpath
  | openDrop id hpath => exact hdrops.trans hpath
  | dropMeta id hpath => exact hdrops.trans hpath

theorem routeWithId_cases (lib : Libraries) (outside : Outside) (request : Request) :
    Reaches lib outside request (routeWithId lib outside request) ∨
      routeWithId lib outside request = pure (.error lib 404 "not found") := by
  unfold routeWithId
  split
  case h_1 =>
    split
    case h_1 id hlog => exact .inl (.verify _ ⟨_, (stripPrefix_eq_some_iff.mp hlog).symm⟩)
    case h_2 => exact .inr rfl
  case h_2 rest hdrops =>
    have hpath : "/api/drops/".toList <+: request.path.toList :=
      ⟨_, (stripPrefix_eq_some_iff.mp hdrops).symm⟩
    split
    case h_1 id _ => exact .inl (.openDrop id hpath)
    case h_2 => exact .inl (.dropMeta rest hpath)

/-- **What the table leads to**: a handler, or a response that depends on the request alone. -/
theorem table_cases (lib : Libraries) (outside : Outside) (request : Request) :
    Reaches lib outside request (table lib outside request) ∨
      table lib outside request = pure (publicResponse lib request) := by
  unfold table
  split
  case h_1 hmethod hpath => exact .inr (by simp [publicResponse, Request.wantsPage, hmethod, hpath])
  case h_2 hmethod hpath => exact .inr (by simp [publicResponse, Request.wantsPage, hmethod, hpath])
  case h_3 hpath => exact .inl (.id hpath)
  case h_4 hpath => exact .inl (.contacts hpath)
  case h_5 hpath => exact .inl (.addContact hpath)
  case h_6 hpath => exact .inl (.listDrops hpath)
  case h_7 hpath => exact .inl (.createDrop hpath)
  case h_8 hroot hindex _ _ _ _ _ =>
    obtain hreach | hmissing := routeWithId_cases lib outside request
    · exact .inl hreach
    · refine .inr ?_
      have hpage : request.wantsPage = false := by
        simp only [Request.wantsPage, Bool.and_eq_false_imp, beq_iff_eq, Bool.or_eq_false_iff]
        intro hmethod
        exact ⟨by simpa using hroot hmethod, by simpa using hindex hmethod⟩
      rw [hmissing, publicResponse, hpage, if_neg Bool.false_ne_true]

/-! ## Without the token -/

theorem authorized_iff {expected : String} :
    authorized request expected = true ↔
      ("authorization", "Bearer " ++ expected) ∈ request.headers := by
  simp only [authorized, List.any_eq_true, Bool.and_eq_true, beq_iff_eq, Prod.exists]
  constructor
  · rintro ⟨name, value, hmem, rfl, rfl⟩
    exact hmem
  · intro hmem
    exact ⟨_, _, hmem, rfl, rfl⟩

theorem refuses_of_not_mem {expected : String}
    (h : ("authorization", "Bearer " ++ expected) ∉ request.headers) :
    refuses request (some expected) = startsWith request.path "/api/" := by
  have hauth : authorized request expected = false := by
    rw [← Bool.not_eq_true, authorized_iff]
    exact h
  simp [refuses, hauth]

theorem table_of_not_api (h : ¬ "/api/".toList <+: request.path.toList) :
    table lib outside request = pure (publicResponse lib request) :=
  (table_cases lib outside request).resolve_left fun hreach => h hreach.api

variable (lib) in
/-- The responses that no handler makes and no token is needed for: to `OPTIONS`, the page, and for
an unknown path. -/
def publicResponses : List Response :=
  [.json lib 200 (.obj [("ok", .bool true)]), .html lib.indexHtml, .error lib 404 "not found"]

theorem publicResponse_mem : publicResponse lib request ∈ publicResponses lib := by
  unfold publicResponse publicResponses
  cases request.wantsPage with
  | true => simp
  | false => simp

/-- A path that does not begin with `/api/` reaches no handler. -/
theorem route_of_not_api (lib : Libraries) (token : Option String)
    (h : ¬ "/api/".toList <+: request.path.toList) :
    ∃ response ∈ publicResponses lib, ∀ outside, route lib outside request token = pure response := by
  have hstart : startsWith request.path "/api/" = false := by
    rw [← Bool.not_eq_true, startsWith_iff]
    exact h
  by_cases hoptions : request.method = "OPTIONS"
  · exact ⟨_, List.mem_cons_self, fun outside => if_pos hoptions⟩
  · refine ⟨publicResponse lib request, publicResponse_mem, fun outside => ?_⟩
    rw [route, if_neg hoptions, refuses, hstart, Bool.false_and, if_neg Bool.false_ne_true,
      table_of_not_api h]

/-- A request without the token is answered before any handler is called. -/
theorem route_of_not_mem (lib : Libraries) {token : String}
    (h : ("authorization", "Bearer " ++ token) ∉ request.headers) :
    ∃ response, (∀ outside, route lib outside request (some token) = pure response) ∧
      ("/api/".toList <+: request.path.toList → request.method ≠ "OPTIONS" →
        response.status = 401) := by
  by_cases hapi : "/api/".toList <+: request.path.toList
  · by_cases hoptions : request.method = "OPTIONS"
    · exact ⟨_, fun outside => if_pos hoptions, fun _ hne => absurd hoptions hne⟩
    · refine ⟨.error lib 401 "unauthorized", fun outside => ?_, fun _ _ => rfl⟩
      rw [route, if_neg hoptions, refuses_of_not_mem h, if_pos (startsWith_iff.mpr hapi)]
  · obtain ⟨response, -, hroute⟩ := route_of_not_api lib (some token) hapi
    exact ⟨response, hroute, fun hpath => absurd hpath hapi⟩

/-- **Without the token the API reveals and changes nothing.** A request that does not carry it gets
one response whatever the store and leaves the store as it was; under `/api/` that response has
status 401. And with or without a token, a path that does not begin with `/api/` gets one of the
responses that no handler makes. -/
theorem route_without_token (lib : Libraries) :
    (∀ (token : String) (request : Request),
      ("authorization", "Bearer " ++ token) ∉ request.headers →
      ∃ response,
        (∀ outside disk,
          (route lib outside request (some token)).exec disk = (.ok response, disk)) ∧
        ("/api/".toList <+: request.path.toList → request.method ≠ "OPTIONS" →
          response.status = 401)) ∧
    ∀ (token : Option String) (request : Request),
      ¬ "/api/".toList <+: request.path.toList →
      ∃ response ∈ publicResponses lib, ∀ outside disk,
        (route lib outside request token).exec disk = (.ok response, disk) := by
  constructor
  · intro token request h
    obtain ⟨response, hroute, hstatus⟩ := route_of_not_mem lib h
    exact ⟨response, fun outside disk => by rw [hroute]; rfl, hstatus⟩
  · intro token request h
    obtain ⟨response, hmem, hroute⟩ := route_of_not_api lib token h
    exact ⟨response, hmem, fun outside disk => by rw [hroute]; rfl⟩

/-- Libraries that write an object of one text and read no body; every position is in one cell. -/
def knownLibraries : Libraries where
  prim := KnownAnswers.primitives
  h3 :=
    { latLng _ _ := .ok ()
      tryResolution r := if h : r.toNat < 16 then .ok ⟨r.toNat, h⟩ else .error "invalid resolution"
      toCell _ _ _ := 0x8928308280fffff
      parse _ := .ok 0x8928308280fffff
      display _ := "8928308280fffff"
      resolution _ := 9
      gridDisk cell _ := [cell] }
  fromSlice _ := .error "EOF while parsing a value at line 1 column 0"
  toVec
    | .obj [(key, .str text)] => .ok (utf8 ("\x7b\"" ++ key ++ "\":\"" ++ text ++ "\"\x7d"))
    | _ => .error "not an object of one text"
  parseF64 _ := none
  indexHtml := "<!doctype html>"

/-- What the system gives. -/
def knownOutside : Outside where
  now := 0
  draws := KnownAuthor.draws
  hybrid := KnownAuthor.keypair
  logIdentity := KnownAnswers.recipient
  order _ := Equiv.refl _
  reported := ""

/-- A request for the public keys with a token that is not the daemon's. -/
def knownRequest (path : String) : Request :=
  ⟨"GET", path, [], [("authorization", "Bearer nope")], []⟩

/-- The author's directory and an empty one give the same refusal. -/
theorem known_request_refused :
    (∃ response,
      (route knownLibraries knownOutside (knownRequest "/api/id") (some "secret")).exec
        ⟨KnownAuthor.dir, []⟩ = (.ok response, ⟨KnownAuthor.dir, []⟩) ∧
      (route knownLibraries knownOutside (knownRequest "/api/id") (some "secret")).exec
        ⟨∅, []⟩ = (.ok response, ⟨∅, []⟩) ∧ response.status = 401) ∧
    ∃ response ∈ publicResponses knownLibraries,
      (route knownLibraries knownOutside (knownRequest "//api/id") none).exec
        ⟨KnownAuthor.dir, []⟩ = (.ok response, ⟨KnownAuthor.dir, []⟩) := by
  obtain ⟨hwithout, hspelled⟩ := route_without_token knownLibraries
  obtain ⟨response, hsame, hstatus⟩ :=
    hwithout "secret" (knownRequest "/api/id") (by simp [knownRequest])
  obtain ⟨other, hmem, hother⟩ := hspelled none (knownRequest "//api/id") (by decide)
  have hapi : "/api/".toList <+: (knownRequest "/api/id").path.toList := by decide
  exact ⟨⟨response, hsame _ _, hsame _ _, hstatus hapi (by decide)⟩, other, hmem, hother _ _⟩

/-! ## What requests may write -/

/-- The handlers may do what they do to each of the files they write. -/
structure Permits (I : Disk → Prop) (prim : Primitives) : Prop where
  hybrid : Allows I .hybrid
  contacts : Allows I .contacts
  mldsa : Allows I .mldsa
  chunk : ∀ id index, Allows I (.chunk id index)
  drop : ∀ signed : SignedDrop, Keeps I (write (.drop (signed.id prim)) signed.raw) fun _ => True
  logEntries : Allows I .logEntries
  logKey : Allows I .logKey

theorem keeps_apiStatus {I : Disk → Prop} {result : Handler} (h : Keeps I result fun _ => True)
    (ok : UInt16) : Keeps I (apiStatus lib result ok) fun _ => True := by
  intro disk hdisk
  refine ⟨?_, fun _ _ => trivial⟩
  have hkept := (h disk hdisk).1
  rw [apiStatus, Program.exec_step]
  cases hexec : result.exec disk with
  | mk r disk' =>
    rw [hexec] at hkept
    cases r with
    | ok value => exact hkept
    | error e =>
      cases e with
      | message text => exact hkept
      | diverges => exact hkept

theorem Reaches.keeps {I : Disk → Prop} {response : Program Diverges Disk Response}
    (h : Reaches lib outside request response) (hpermits : Permits I lib.prim) :
    Keeps I response fun _ => True := by
  cases h with
  | id => exact keeps_apiStatus (keeps_apiId hpermits.hybrid) _
  | contacts => exact keeps_apiStatus keeps_apiContacts _
  | addContact => exact keeps_apiStatus (keeps_apiAddContact hpermits.contacts _) _
  | listDrops => exact keeps_apiStatus (keeps_apiListDrops _) _
  | createDrop =>
    exact keeps_apiStatus (keeps_apiCreateDrop hpermits.mldsa hpermits.chunk hpermits.logEntries
      hpermits.drop _) _
  | verify id => exact keeps_apiStatus (keeps_apiVerify hpermits.logKey id) _
  | openDrop id => exact keeps_apiStatus (keeps_apiOpenDrop id) _
  | dropMeta id => exact keeps_apiStatus (keeps_apiDropMeta id) _

/-- What a request leads to: a handler, or a response. -/
theorem route_cases (lib : Libraries) (outside : Outside) (request : Request)
    (token : Option String) :
    Reaches lib outside request (route lib outside request token) ∨
      ∃ response, route lib outside request token = pure response := by
  unfold route
  split
  case isTrue => exact .inr ⟨_, rfl⟩
  case isFalse =>
    split
    case isTrue => exact .inr ⟨_, rfl⟩
    case isFalse => exact (table_cases lib outside request).imp_right fun h => ⟨_, h⟩

/-- **An invariant of the daemon**: what every operation of the handlers keeps, every request does. -/
theorem keeps_route {I : Disk → Prop} (hpermits : Permits I lib.prim) :
    Keeps I (route lib outside request token) fun _ => True := by
  unfold route
  split
  case isTrue => exact Keeps.pure trivial
  case isFalse =>
    split
    case isTrue => exact Keeps.pure trivial
    case isFalse =>
      obtain hreach | hpublic := table_cases lib outside request
      · exact hreach.keeps hpermits
      · rw [hpublic]
        exact Keeps.pure trivial

variable (lib token) in
/-- Requests one after the other, each with what it takes from the system. -/
def serveAll (requests : List (Outside × Request)) (disk : Disk) : Disk :=
  requests.foldl (fun disk e => ((route lib e.1 e.2 token).exec disk).2) disk

theorem serveAll_keeps {I : Disk → Prop} (hpermits : Permits I lib.prim)
    (requests : List (Outside × Request)) {disk : Disk} (h : I disk) :
    I (serveAll lib token requests disk) := by
  induction requests generalizing disk with
  | nil => exact h
  | cons e requests ih => exact ih (keeps_route hpermits disk h).1

/-- No request, with the token or without, touches the identity. -/
theorem lookup_identity_serveAll (requests : List (Outside × Request)) (disk : Disk) :
    (serveAll lib token requests disk).dir.lookup .identity = disk.dir.lookup .identity := by
  have hother : ∀ file, File.identity ≠ file →
      Allows (fun d : Disk => d.dir.lookup .identity = disk.dir.lookup .identity) file :=
    fun file hne => (ignores_lookup hne _).always
  exact serveAll_keeps (I := fun d => d.dir.lookup .identity = disk.dir.lookup .identity)
    { hybrid := hother _ (by simp), contacts := hother _ (by simp), mldsa := hother _ (by simp)
      chunk := fun _ _ => hother _ (by simp), drop := fun _ => (hother _ (by simp)).write _
      logEntries := hother _ (by simp), logKey := hother _ (by simp) } requests rfl

end Keepstone.Daemon
