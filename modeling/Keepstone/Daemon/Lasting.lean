import Keepstone.Daemon.Narrowing
import Keepstone.Store.Lasting

/-!
# What opens goes on to open (`crates/daemon/src/main.rs:252-332, 418-481`)

Requests write drops, chunks, keys, contacts and the log, and any of their writes may be refused or
torn. None writes the identity. So a drop that opens is at risk only from a new envelope with its
id.

Results:
* `route_retains`: what a request leaves of the files of a drop;
* **`opens_after_requests`**: what the API opens it opens after any requests, unless one of them
  has made a second envelope with its id;
* **`created_opens_later`**: what it says it has created it opens to the message, at any time.
-/

namespace Keepstone.Daemon

open Keepstone.Lib Keepstone.Crypto Keepstone.Core Keepstone.Store

variable {lib : Libraries} {outside : Outside} {request : Request} {token : Option String}
  {before : Dir} {id : DropId}

/-! ## Requests -/

variable (lib) in
/-- The cell `api_create_drop` has computed of a position. -/
def cellText (lat lng : Float) (res : UInt8) : Except CoreError String := do
  let cell ← CellId.fromLatLng lib.h3 lat lng res
  pure (cell.toHex lib.h3)

variable (lib outside) in
/-- On this disk a request with this body, if it is for a drop, comes to store this envelope. -/
def Makes (text : List UInt8) (disk : Disk) (signed : SignedDrop) : Prop :=
  ∃ value message, lib.fromSlice text = .ok value ∧
    (value.get "message").bind Json.asStr = some message ∧
    Signs lib.prim (cellText lib) outside.now (createArgs value message) outside.draws disk signed

/-- **What a call for a new drop leaves of the files of another.** -/
theorem apiCreateDrop_retains {text : List UInt8} {disk : Disk}
    (h : Retains before id disk.dir)
    (hother : ∀ signed, Makes lib outside text disk signed → signed.id lib.prim ≠ id) :
    Retains before id ((apiCreateDrop lib outside text).exec disk).2.dir := by
  let kept (disk : Disk) : Prop := Retains before id disk.dir
  unfold apiCreateDrop
  refine Keeps.after_bind_ok (I := kept) h fun value disk' hvalue => ?_
  obtain ⟨hparsed, rfl⟩ := Program.exec_ofExcept_eq_ok hvalue
  refine Keeps.after_bind_ok (I := kept) h fun message disk' hmessage => ?_
  obtain ⟨hrequired, rfl⟩ := Program.exec_ofExcept_eq_ok hmessage
  have hcreate : kept ((createDrop lib.prim (cellText lib) outside.now (createArgs value message)
      outside.draws).exec disk).2 := by
    refine createDrop_retains h fun signed hsigns => hother signed ⟨value, message, ?_, ?_, hsigns⟩
    · exact mapError_ok_iff.mp hparsed
    · exact okOr_ok_iff.mp hrequired
  exact Keeps.after_bind hcreate fun _ => Keeps.pure (Q := fun _ => True) trivial

/-- A response leaves the disk as the handler does. -/
theorem exec_apiStatus_snd (result : Handler) (ok : UInt16) (disk : Disk) :
    ((apiStatus lib result ok).exec disk).2 = (result.exec disk).2 := by
  rw [apiStatus, Program.exec_step]
  split
  case h_1 hexec => rw [hexec]
  case h_2 hexec => rw [hexec]
  case h_3 hexec => rw [hexec]

theorem Reaches.retains {response : Program Diverges Disk Response}
    (hreach : Reaches lib outside request response) {disk : Disk} (h : Retains before id disk.dir)
    (hother : ∀ signed, Makes lib outside request.body disk signed → signed.id lib.prim ≠ id) :
    Retains before id (response.exec disk).2.dir := by
  have hallows : ∀ file, ¬ Concerns id file →
      Allows (fun disk : Disk => Retains before id disk.dir) file := fun file hfile =>
    (ignores_retains hfile).always
  have hkept : ∀ {result : Handler} {ok : UInt16},
      Keeps (fun disk : Disk => Retains before id disk.dir) result (fun _ => True) →
      Retains before id ((apiStatus lib result ok).exec disk).2.dir := fun hresult =>
    (keeps_apiStatus hresult _ disk h).1
  cases hreach with
  | id =>
    refine hkept ((keeps_toldRead _).bind fun own _ => ?_)
    have hpublic : Keeps (fun disk : Disk => Retains before id disk.dir)
        (hybridPublicBytes lib.prim outside.hybrid) fun _ => True :=
      (keeps_hybridOrCreate_retains _).bind fun _ _ => Keeps.pure trivial
    exact (hpublic.mapErr _).bind fun _ _ => Keeps.pure trivial
  | contacts => exact hkept keeps_apiContacts
  | addContact => exact hkept (keeps_apiAddContact (hallows .contacts fun h => h) _)
  | listDrops => exact hkept (keeps_apiListDrops _)
  | createDrop =>
    rw [exec_apiStatus_snd]
    exact apiCreateDrop_retains h hother
  | verify idText => exact hkept (keeps_apiVerify (hallows .logKey fun h => h) _)
  | openDrop idText => exact hkept (keeps_apiOpenDrop _)
  | dropMeta idText => exact hkept (keeps_apiDropMeta _)

/-- **What a request leaves of the files of a drop.** -/
theorem route_retains {disk : Disk} (h : Retains before id disk.dir)
    (hother : ∀ signed, Makes lib outside request.body disk signed → signed.id lib.prim ≠ id) :
    Retains before id ((route lib outside request token).exec disk).2.dir := by
  obtain hreach | ⟨response, hpublic⟩ := route_cases lib outside request token
  · exact hreach.retains h hother
  · rw [hpublic]
    exact h

/-! ## Runs -/

variable (lib token) in
/-- One of these requests comes to store this envelope. -/
def MakesAmong (requests : List (Outside × Request)) (disk : Disk) (signed : SignedDrop) : Prop :=
  ∃ earlier e later, requests = earlier ++ e :: later ∧
    Makes lib e.1 e.2.body (serveAll lib token earlier disk) signed

/-- Requests leave the files of a drop, or one of them makes an envelope with its id. -/
theorem serveAll_retains (requests : List (Outside × Request)) {disk : Disk}
    (h : Retains before id disk.dir) :
    Retains before id (serveAll lib token requests disk).dir ∨
      ∃ signed, MakesAmong lib token requests disk signed ∧ signed.id lib.prim = id := by
  induction requests generalizing disk with
  | nil => exact .inl h
  | cons e requests ih =>
    by_cases hmade : ∃ signed, Makes lib e.1 e.2.body disk signed ∧ signed.id lib.prim = id
    · obtain ⟨signed, hmakes, hid⟩ := hmade
      exact .inr ⟨signed, ⟨[], e, requests, rfl, hmakes⟩, hid⟩
    · have hstep := @route_retains lib e.1 e.2 token before id disk h fun signed hmakes hid =>
        hmade ⟨signed, hmakes, hid⟩
      refine (ih hstep).imp_right ?_
      rintro ⟨signed, ⟨earlier, e', later, hrequests, hmakes⟩, hid⟩
      exact ⟨signed, ⟨e :: earlier, e', later, congrArg (e :: ·) hrequests, hmakes⟩, hid⟩

/-- A drop that opens opens to the same after any requests, unless one of them makes a second
envelope with its id. -/
theorem openDrop_serveAll {requests : List (Outside × Request)} {disk : Disk} {signed : SignedDrop}
    {body : DropBody} {plaintext : List UInt8}
    (hstored : readDrop disk.dir id = .ok (signed, body)) (hid : signed.id lib.prim = id)
    (hsmall : signed.raw.length < 2 ^ 64)
    (hfresh : ∀ e ∈ requests, e.1.draws.dropNonce ≠ body.dropNonce)
    (hopen : openDrop lib.prim disk.dir id = .ok plaintext) :
    openDrop lib.prim (serveAll lib token requests disk).dir id = .ok plaintext ∨
      ∃ made, MakesAmong lib token requests disk made ∧ made.raw ≠ signed.raw ∧
        lib.prim.sha256 made.raw = lib.prim.sha256 signed.raw := by
  obtain ⟨raw, -, hdecode, hbody⟩ := readDrop_ok_iff.mp hstored
  obtain rfl := raw_of_decode hdecode
  refine (serveAll_retains requests (Retains.refl disk.dir id)).imp
    (fun h => openDrop_of_retains h hopen) ?_
  rintro ⟨made, hmakes, hmadeId⟩
  refine ⟨made, hmakes, ?_, ?_⟩
  · obtain ⟨earlier, e, later, rfl, value, message, -, -, hsigns⟩ := hmakes
    have hmem : e ∈ earlier ++ e :: later := List.mem_append_right _ List.mem_cons_self
    exact hsigns.raw_ne hsmall hdecode hbody (hfresh e hmem)
  · exact congrArg DropId.bytes (hmadeId.trans hid.symm)

/-! ## Opening through the API -/

theorem stripSuffix_append (text ending : String) :
    stripSuffix (text ++ ending) ending = some text := by
  have hdropped : (text ++ ending).toList.dropSuffix? ending.toList = some text.toList :=
    List.dropSuffix?_eq_some_iff.mpr ⟨_, String.toList_append, beq_self_eq_true _⟩
  rw [stripSuffix, hdropped, Option.map_some, String.ofList_toList]

/-- The path under which a drop is opened. -/
def openPath (id : DropId) : String := "/api/drops/" ++ (id.toHex ++ "/open")

/-- No exact path of the table is this long, so the request is for a drop. -/
theorem table_openPath (outside : Outside) (hpath : request.path = openPath id) :
    table lib outside request = api lib (apiOpenDrop lib outside id.toHex) := by
  have hlong : 16 ≤ request.path.toList.length := by
    rw [hpath, openPath, String.toList_append, String.toList_append, List.length_append,
      List.length_append]
    have hends : "/api/drops/".toList.length = 11 ∧ "/open".toList.length = 5 := by decide
    omega
  have hexact : ∀ {path : String}, path.toList.length < 16 → request.path = path → False := by
    rintro path hshort rfl
    omega
  have hwithId : routeWithId lib outside request = api lib (apiOpenDrop lib outside id.toHex) := by
    have hrest : stripPrefix request.path "/api/drops/" = some (id.toHex ++ "/open") := by
      rw [stripPrefix_eq_some_iff, hpath, openPath, String.toList_append]
    unfold routeWithId
    simp only [hrest, stripSuffix_append]
  unfold table
  split
  case h_1 hother => exact (hexact (by decide) hother).elim
  case h_2 hother => exact (hexact (by decide) hother).elim
  case h_3 hother => exact (hexact (by decide) hother).elim
  case h_4 hother => exact (hexact (by decide) hother).elim
  case h_5 hother => exact (hexact (by decide) hother).elim
  case h_6 hother => exact (hexact (by decide) hother).elim
  case h_7 hother => exact (hexact (by decide) hother).elim
  case h_8 => exact hwithId

/-- What a drop that opens is answered with. -/
def openedJson (plaintext : List UInt8) : Json :=
  match readText plaintext with
  | some text => .obj [("text", .str (String.ofList text))]
  | none => .obj [("hex", .hex plaintext)]

theorem openedJson_utf8 (message : String) :
    openedJson (utf8 message) = .obj [("text", .str message)] := by
  have hread := readText_textBytes message.toList
  rw [textBytes, String.ofList_toList] at hread
  simp only [openedJson, hread, String.ofList_toList]

/-- A request that may use the API asks for the opening of a drop. -/
structure AsksToOpen (token : Option String) (id : DropId) (ask : Request) : Prop where
  method : ask.method ≠ "OPTIONS"
  path : ask.path = openPath id
  allowed : refuses ask token = false

theorem AsksToOpen.route_eq (hask : AsksToOpen token id request) (outside : Outside) :
    route lib outside request token = api lib (apiOpenDrop lib outside id.toHex) := by
  rw [route, if_neg hask.method, hask.allowed, if_neg Bool.false_ne_true,
    table_openPath outside hask.path]

theorem parsedId_toHex (id : DropId) :
    (DropId.fromHex id.toHex).mapError (fun e => Failure.message e.text) = .ok id := by
  rw [DropId.fromHex_toHex]
  rfl

/-- A drop that opens is answered with. -/
theorem AsksToOpen.exec_of_opens (hask : AsksToOpen token id request) {disk : Disk}
    {plaintext : List UInt8} (hopen : openDrop lib.prim disk.dir id = .ok plaintext) :
    (route lib outside request token).exec disk =
      (.ok (.json lib 200 (openedJson plaintext)), disk) := by
  have hreads : (toldRead outside (openDrop lib.prim · id)).exec disk = (.ok plaintext, disk) :=
    Program.exec_mapErr_ok (Program.exec_reads_ok hopen)
  have hexec : (apiOpenDrop lib outside id.toHex).exec disk = (.ok (openedJson plaintext), disk) :=
    (Program.exec_ofExcept_bind (parsedId_toHex id) _ _).trans (Program.exec_bind_ok hreads _)
  rw [hask.route_eq, api, apiStatus, Program.exec_step, hexec]

/-- And an answer with status 200 is the content of the drop. -/
theorem AsksToOpen.opens_of_exec (hask : AsksToOpen token id request) {disk disk' : Disk}
    {response : Response}
    (hexec : (route lib outside request token).exec disk = (.ok response, disk'))
    (hstatus : response.status = 200) :
    ∃ plaintext, openDrop lib.prim disk.dir id = .ok plaintext ∧
      response = .json lib 200 (openedJson plaintext) := by
  rw [hask.route_eq, api, apiStatus, Program.exec_step] at hexec
  split at hexec
  case h_2 =>
    obtain rfl := Except.ok.inj (congrArg Prod.fst hexec)
    have hne : (400 : UInt16) ≠ 200 := by decide
    exact absurd hstatus hne
  case h_3 => cases congrArg Prod.fst hexec
  case h_1 answer disk'' hanswer =>
    obtain rfl := Except.ok.inj (congrArg Prod.fst hexec)
    obtain ⟨id', _, hparses, hanswer⟩ := Program.exec_bind_eq_ok hanswer
    obtain ⟨hparsed, rfl⟩ := Program.exec_ofExcept_eq_ok hparses
    obtain rfl : id = id' := Except.ok.inj ((parsedId_toHex id).symm.trans hparsed)
    obtain ⟨plaintext, _, hreads, hanswer⟩ := Program.exec_bind_eq_ok hanswer
    obtain ⟨hopen, rfl⟩ := Program.exec_reads_eq_ok (Program.exec_mapErr_eq_ok hreads)
    obtain ⟨rfl, -⟩ := Program.exec_pure_eq_ok hanswer
    exact ⟨plaintext, hopen, rfl⟩

/-- **What the API opens it goes on to open.** A drop that is stored under its id and that a request
is answered with is what every such request is answered with after any other requests, whatever
writes of theirs fail or are torn; unless one of them makes a second envelope with the same id: two
byte strings with one SHA-256 digest. -/
theorem opens_after_requests (lib : Libraries) (token : Option String) {outside : Outside}
    {ask : Request} {disk disk' : Disk} {response : Response} {id : DropId} {signed : SignedDrop}
    {body : DropBody} (hask : AsksToOpen token id ask)
    (hexec : (route lib outside ask token).exec disk = (.ok response, disk'))
    (hstatus : response.status = 200) (hstored : readDrop disk.dir id = .ok (signed, body))
    (hid : signed.id lib.prim = id) (hsmall : signed.raw.length < 2 ^ 64)
    (requests : List (Outside × Request))
    (hfresh : ∀ e ∈ requests, e.1.draws.dropNonce ≠ body.dropNonce) :
    (∀ outside' again, AsksToOpen token id again →
      (route lib outside' again token).exec (serveAll lib token requests disk) =
        (.ok response, serveAll lib token requests disk)) ∨
      ∃ made, MakesAmong lib token requests disk made ∧ made.raw ≠ signed.raw ∧
        lib.prim.sha256 made.raw = lib.prim.sha256 signed.raw := by
  obtain ⟨plaintext, hopen, rfl⟩ := hask.opens_of_exec hexec hstatus
  refine (openDrop_serveAll hstored hid hsmall hfresh hopen).imp_left fun hlater => ?_
  exact fun outside' again hagain => hagain.exec_of_opens hlater

/-! ### A later request whose write is torn -/

theorem table_create (hmethod : request.method = "POST") (hpath : request.path = "/api/drops") :
    table lib outside request = apiStatus lib (apiCreateDrop lib outside request.body) 201 := by
  unfold table
  rw [hmethod, hpath]
  rfl

/-- A request for a new drop that may use the API. -/
theorem route_create (hmethod : request.method = "POST") (hpath : request.path = "/api/drops")
    (hallowed : refuses request token = false) :
    route lib outside request token =
      apiStatus lib (apiCreateDrop lib outside request.body) 201 := by
  rw [route, if_neg (by rw [hmethod]; decide), hallowed, if_neg Bool.false_ne_true,
    table_create hmethod hpath]

/-- What the system gives to a request of another time. -/
def laterOutside : Outside :=
  { knownOutside with
    draws := { KnownAuthor.draws with dropNonce := List.Vector.replicate 16 9 } }

/-- A request for the opening of a drop, where no token is needed. -/
def openRequest (id : DropId) : Request := ⟨"GET", openPath id, [], [], []⟩

theorem asksToOpen_openRequest (id : DropId) : AsksToOpen none id (openRequest id) where
  method := by simp [openRequest]
  path := rfl
  allowed := Bool.and_false _

namespace KnownHolder

open Keepstone.Core.KnownAnswers

/-- The recipient's directory with the known drop, and with a contact. -/
def dir (id : DropId) : Dir :=
  AList.insert .contacts (textBytes KnownAuthor.contactsText) (knownDir id chunk)

/-- A request for a hybrid drop to that contact. -/
def hybridRequest : Json :=
  .obj
    [("to", .arr [.str "bob"]),
      ("lat", .num (.float 37.775938728915946)),
      ("lng", .num (.float (-122.41795063018799))),
      ("suite", .str "hybrid"),
      ("message", .str "hello")]

/-- The same as text. -/
def hybridText : List UInt8 :=
  utf8 ("\x7b\"to\":[\"bob\"],\"lat\":37.775938728915946,\"lng\":-122.41795063018799," ++
    "\"suite\":\"hybrid\",\"message\":\"hello\"\x7d")

/-- Libraries that read it. -/
def libraries : Libraries :=
  { helloLibraries 2 9 with
    fromSlice := fun text =>
      if text = hybridText then .ok hybridRequest
      else .error "expected value at line 1 column 1" }

theorem fromSlice_hybridText : libraries.fromSlice hybridText = .ok hybridRequest := by
  simp only [libraries, if_true]

/-- The request as it is sent. -/
def post : Request := ⟨"POST", "/api/drops", [], [], hybridText⟩

theorem lookup_dir (id : DropId) : (dir id).lookup .identity =
      some (textBytes (identityText recipient)) ∧
    (dir id).lookup (.drop id) = some drop.raw ∧ (dir id).lookup (.chunk id 0) = some chunk ∧
    (dir id).lookup .mldsa = none := by
  obtain ⟨hidentity, hdrop, hchunk⟩ := lookup_knownDir id chunk
  unfold dir
  refine ⟨?_, ?_, ?_, ?_⟩
  · rw [AList.lookup_insert_ne (by simp), hidentity]
  · rw [AList.lookup_insert_ne (by simp), hdrop]
  · rw [AList.lookup_insert_ne (by simp), hchunk]
  · unfold knownDir
    rw [AList.lookup_insert_ne (by simp), AList.lookup_insert_ne (by simp),
      AList.lookup_insert_ne (by simp), AList.lookup_insert_ne (by simp), AList.lookup_empty]

/-- The known drop opens there. -/
theorem openDrop_dir (id : DropId) : openDrop sending (dir id) id = .ok (utf8 "hello") := by
  obtain ⟨hidentity, hdrop, hchunk, -⟩ := lookup_dir id
  obtain ⟨hdecode, -, hbody⟩ := known_drop_accepted
  have hverify : drop.verify sending = .ok () := by decide +kernel
  have hplain : streamDecrypt sending contentKey (framingOf body) [chunk] = .ok (utf8 "hello") := by
    decide +kernel
  have hunlocks : Unlocks sending (dir id) id drop body contentKey [chunk] :=
    unlocks_of_opens (by decide +kernel) (by decide +kernel) hidentity hdrop hchunk hdecode hverify
      hbody known_drop_work rfl rfl rfl
  exact openDrop_ok_iff.mpr ⟨_, _, _, _, hunlocks, hplain⟩

/-- The drop that is asked for could be created. -/
theorem creatable_post (id : DropId) : Creatable sending (cellText libraries)
    (createArgs hybridRequest "hello") laterOutside.draws (dir id) := by
  have hcell : cellText libraries 37.775938728915946 (-122.41795063018799) 9 =
      .ok (knownPosition.display (UInt64.ofNat (knownCell 9))) := rfl
  have hwork : powIsValid sending (recipient.signingPublic sending) body.contentRoot
      laterOutside.draws.dropNonce 3767 = true := by decide +kernel
  obtain ⟨hidentity, -, -, hmldsa⟩ := lookup_dir id
  exact KnownAuthor.creatable_saved (AList.lookup_insert _) (identity_saved hidentity) hmldsa rfl
    rfl hwork Nat.one_ne_zero true _ _ 9 2 hcell

/-- The write of its ML-DSA key is torn. -/
theorem exec_post (id : DropId) :
    (untilSigned sending (cellText libraries) laterOutside.now (createArgs hybridRequest "hello")
      laterOutside.draws).exec ⟨dir id, [.torn 3]⟩ =
        (.error (.error (.io .system)), ⟨(dir id).insert .mldsa
          ((textBytes (hexEncode laterOutside.draws.mlDsa.seed.toList)).take 3), []⟩) :=
  exec_untilSigned_torn KnownAuthor.returnLaws (creatable_post id)
    (KnownAuthor.hybridMode_args 1 true) (lookup_dir id).2.2.2 3

/-- So the request leaves a part of that key. -/
theorem serveAll_post (id : DropId) :
    serveAll libraries none [(laterOutside, post)] ⟨dir id, [.torn 3]⟩ =
      ⟨(dir id).insert .mldsa
        ((textBytes (hexEncode laterOutside.draws.mlDsa.seed.toList)).take 3), []⟩ := by
  have hcreate : (createDrop sending (cellText libraries) laterOutside.now
      (createArgs hybridRequest "hello") laterOutside.draws).exec ⟨dir id, [.torn 3]⟩ =
      (.error (.error (.io .system)), ⟨(dir id).insert .mldsa
        ((textBytes (hexEncode laterOutside.draws.mlDsa.seed.toList)).take 3), []⟩) := by
    rw [createDrop_eq_untilSigned]
    exact Program.exec_bind_error (exec_post id) _
  have hvalue : (libraries.fromSlice hybridText).mapError Failure.message = .ok hybridRequest :=
    mapError_ok_iff.mpr fromSlice_hybridText
  obtain ⟨e, hanswer⟩ : ∃ e, (apiCreateDrop libraries laterOutside hybridText).exec
      ⟨dir id, [.torn 3]⟩ = (.error e, ⟨(dir id).insert .mldsa
        ((textBytes (hexEncode laterOutside.draws.mlDsa.seed.toList)).take 3), []⟩) :=
    ⟨_, (Program.exec_ofExcept_bind hvalue _ _).trans
      ((Program.exec_ofExcept_bind (a := "hello") rfl _ _).trans
        (Program.exec_bind_error (Program.exec_mapErr_error hcreate) _))⟩
  have hroute := @route_create libraries laterOutside post none rfl rfl (Bool.and_false _)
  rw [serveAll, List.foldl_cons, List.foldl_nil, hroute, exec_apiStatus_snd]
  exact congrArg Prod.snd hanswer

/-- The recipient of the known drop opens it after a request for a hybrid drop, the first one, for
which three bytes of an ML-DSA key have been written. -/
theorem known_drop_stays :
    let id := drop.id sending
    let disk : Disk := ⟨dir id, [.torn 3]⟩
    let requests := [(laterOutside, post)]
    (serveAll libraries none requests disk).dir.lookup .mldsa = some (utf8 "090") ∧
      (route libraries laterOutside (openRequest id) none).exec
          (serveAll libraries none requests disk) =
        (.ok (.json libraries 200 (.obj [("text", .str "hello")])),
          serveAll libraries none requests disk) := by
  intro id disk requests
  refine ⟨by rw [serveAll_post, AList.lookup_insert]; decide +kernel, ?_⟩
  obtain ⟨-, hdrop, -⟩ := lookup_dir id
  obtain ⟨hdecode, -, hbody⟩ := known_drop_accepted
  have hstored : readDrop disk.dir id = .ok (drop, body) :=
    readDrop_ok_iff.mpr ⟨_, hdrop, hdecode, hbody⟩
  have hsmall : drop.raw.length < 2 ^ 64 := by
    rw [length_drop]
    decide
  have hask := asksToOpen_openRequest id
  have hanswer := @AsksToOpen.exec_of_opens libraries knownOutside _ none id hask disk _
    (openDrop_dir id)
  have hfresh : ∀ e ∈ requests, e.1.draws.dropNonce ≠ body.dropNonce := by
    intro e he
    obtain rfl := List.mem_singleton.mp he
    decide
  rw [← openedJson_utf8]
  rcases opens_after_requests libraries none hask hanswer rfl hstored rfl hsmall requests
    hfresh with hlater | ⟨made, ⟨earlier, e, later, hsplit, value, message, hvalue, hmessage,
      prepared, made', disk', hsigns⟩, -⟩
  · exact hlater laterOutside _ hask
  · -- the request made no envelope
    obtain ⟨rfl, rfl, rfl⟩ : earlier = [] ∧ e = (laterOutside, post) ∧ later = [] := by
      cases earlier with
      | nil =>
        obtain ⟨rfl, rfl⟩ := List.cons.inj hsplit
        exact ⟨rfl, rfl, rfl⟩
      | cons first earlier =>
        have hlen := congrArg List.length (List.cons.inj hsplit).2
        simp at hlen
    obtain rfl := Except.ok.inj (fromSlice_hybridText.symm.trans hvalue)
    obtain rfl : "hello" = message := Option.some.inj hmessage
    cases (exec_post id).symm.trans hsigns

end KnownHolder

/-! ## From creating to opening -/

/-- A request for a new drop that is answered with 201 has created it. -/
theorem exec_route_create {disk disk' : Disk} {response : Response} {value : Json}
    {message : String} (hmethod : request.method = "POST") (hpath : request.path = "/api/drops")
    (hexec : (route lib outside request token).exec disk = (.ok response, disk'))
    (hstatus : response.status = 201) (hvalue : lib.fromSlice request.body = .ok value)
    (hmessage : (value.get "message").bind Json.asStr = some message) :
    ∃ created, (createDrop lib.prim (cellText lib) outside.now (createArgs value message)
        outside.draws).exec disk = (.ok created, disk') ∧
      response = .json lib 201 (.obj [("id", .str created.id.toHex)]) := by
  rw [route, if_neg (by rw [hmethod]; decide)] at hexec
  split at hexec
  case isTrue =>
    obtain ⟨rfl, -⟩ := Program.exec_pure_eq_ok hexec
    have hne : (401 : UInt16) ≠ 201 := by decide
    exact absurd hstatus hne
  case isFalse =>
    rw [table_create hmethod hpath, apiStatus, Program.exec_step] at hexec
    split at hexec
    case h_2 =>
      obtain rfl := Except.ok.inj (congrArg Prod.fst hexec)
      have hne : (400 : UInt16) ≠ 201 := by decide
      exact absurd hstatus hne
    case h_3 => cases congrArg Prod.fst hexec
    case h_1 answer disk'' hanswer =>
      obtain rfl := Except.ok.inj (congrArg Prod.fst hexec)
      obtain rfl : disk'' = disk' := congrArg Prod.snd hexec
      obtain ⟨value', _, hparses, hanswer⟩ := Program.exec_bind_eq_ok hanswer
      obtain ⟨hparsed, rfl⟩ := Program.exec_ofExcept_eq_ok hparses
      obtain rfl : value = value' := Except.ok.inj (hvalue.symm.trans (mapError_ok_iff.mp hparsed))
      obtain ⟨message', _, hrequires, hanswer⟩ := Program.exec_bind_eq_ok hanswer
      obtain ⟨hrequired, rfl⟩ := Program.exec_ofExcept_eq_ok hrequires
      obtain rfl : message = message' :=
        Option.some.inj (hmessage.symm.trans (okOr_ok_iff.mp hrequired))
      obtain ⟨created, _, hcreate, hanswer⟩ := Program.exec_bind_eq_ok hanswer
      obtain ⟨rfl, rfl⟩ := Program.exec_pure_eq_ok hanswer
      exact ⟨created, Program.exec_mapErr_eq_ok hcreate, rfl⟩

/-- Creating a drop leaves the keys that open it. -/
theorem same_keys_of_createDrop {prim : Primitives}
    {cellAt : Float → Float → UInt8 → Except CoreError String} {now : UInt64} {args : CreateArgs}
    {draws : Draws} {disk disk' : Disk} {r : Except Stop CreatedDrop}
    (h : (createDrop prim cellAt now args draws).exec disk = (r, disk')) :
    identity disk'.dir = identity disk.dir ∧ hybrid prim disk'.dir = hybrid prim disk.dir := by
  have hkept : ∀ file : File, file = .identity ∨ file = .hybrid →
      disk'.dir.lookup file = disk.dir.lookup file := by
    intro file hfile
    have hother : ∀ other, file ≠ other →
        Allows (fun d : Disk => d.dir.lookup file = disk.dir.lookup file) other :=
      fun other hne => (ignores_lookup hne _).always
    have hkeeps := keeps_createDrop prim
      (keeps_mldsaOrCreate prim (hother _ (by rcases hfile with rfl | rfl <;> simp)) draws.mlDsa)
      (fun _ _ => hother _ (by rcases hfile with rfl | rfl <;> simp))
      (hother _ (by rcases hfile with rfl | rfl <;> simp))
      (fun _ => (hother _ (by rcases hfile with rfl | rfl <;> simp)).write _) cellAt now args
    exact hkeeps.after rfl h
  constructor
  · rw [identity, identity, readToString, readToString, hkept _ (.inl rfl)]
  · rw [hybrid, hybrid, readToString, readToString, hkept _ (.inr rfl)]

/-- **What the API has created it opens.** Once a request for a drop that is addressed to the
device itself is answered with 201, any requests after it leave the drop such that it opens to the
message under the id of the answer, unless one of them makes a second envelope with that id. -/
theorem created_opens_later (lib : Libraries) (laws : SignatureLaws lib.prim)
    (token : Option String) {outside : Outside} {request : Request} {disk disk' : Disk}
    {response : Response} (hmethod : request.method = "POST") (hpath : request.path = "/api/drops")
    (hexec : (route lib outside request token).exec disk = (.ok response, disk'))
    (hstatus : response.status = 201) {value : Json} {message : String} {devices : List Device}
    (hvalue : lib.fromSlice request.body = .ok value)
    (hmessage : (value.get "message").bind Json.asStr = some message)
    (hdevices : resolve disk.dir (createArgs value message) = .ok devices)
    (ideal : Ideal lib.prim (createArgs value message) outside.draws devices disk.dir)
    (haddressed : Addressed lib.prim disk.dir (createArgs value message).hybridMode devices) :
    ∃ id raw, response = .json lib 201 (.obj [("id", .str (DropId.toHex id))]) ∧
      disk'.dir.lookup (.drop id) = some raw ∧
      ∀ requests : List (Outside × Request),
        (∀ e ∈ requests, e.1.draws.dropNonce ≠ outside.draws.dropNonce) →
        (∀ outside' ask, AsksToOpen token id ask →
          (route lib outside' ask token).exec (serveAll lib token requests disk') =
            (.ok (.json lib 200 (.obj [("text", .str message)])),
              serveAll lib token requests disk')) ∨
        ∃ made, MakesAmong lib token requests disk' made ∧ made.raw ≠ raw ∧
          lib.prim.sha256 made.raw = lib.prim.sha256 raw := by
  obtain ⟨created, hcreate, hresponse⟩ :=
    exec_route_create hmethod hpath hexec hstatus hvalue hmessage
  obtain ⟨prepared, signed, body, hprepared, hcreated⟩ := exec_createDrop hcreate
  obtain ⟨devices', wrapped, hprepares⟩ := prepareDrop_ok_iff.mp hprepared
  obtain rfl : devices = devices' := Except.ok.inj (hdevices.symm.trans hprepares.resolved)
  obtain ⟨hidentity, hhybrid⟩ := same_keys_of_createDrop hcreate
  have hideal := ideal.of_same_keys rfl hidentity hhybrid
  have haddressed' :
      Addressed lib.prim disk'.dir (createArgs value message).hybridMode devices := by
    simpa only [Addressed, hidentity, hhybrid] using haddressed
  have hopen := hcreated.openDrop_of_addressed laws hprepares hideal haddressed'
  refine ⟨created.id, signed.raw, hresponse, hcreated.envelope, fun requests hfresh => ?_⟩
  have hsmall : signed.raw.length < 2 ^ 64 := hcreated.small.trans (by decide)
  have hnonces : ∀ e ∈ requests, e.1.draws.dropNonce ≠ body.dropNonce := by
    rwa [hcreated.dropNonce]
  refine (openDrop_serveAll hcreated.readDrop hcreated.id.symm hsmall hnonces hopen).imp_left
    fun hlater => ?_
  intro outside' ask hask
  rw [hask.exec_of_opens hlater, createArgs, openedJson_utf8]

/-! ### A device that writes to itself -/

namespace KnownSelf

open Keepstone.Core.KnownAnswers
open KnownAuthor (args device contactsText draws)

/-- The author, with the recipient's X25519 key. -/
def own : Identity := ⟨authorSecret, recipient.ecdh⟩

/-- Its directory, with itself as the contact. -/
def dir : Dir :=
  AList.insert .contacts (textBytes contactsText)
    (AList.insert .identity (textBytes (identityText own)) ∅)

theorem identity_dir : identity dir = .ok own := by
  refine identity_saved ?_
  unfold dir
  rw [AList.lookup_insert_ne (by nofun), AList.lookup_insert]

theorem hybrid_dir : hybrid sending dir = .error .noHybrid := by
  have hnone : readToString dir .hybrid = none := by
    unfold readToString dir
    rw [AList.lookup_insert_ne (by nofun), AList.lookup_insert_ne (by nofun), AList.lookup_empty]
    rfl
  unfold hybrid
  rw [hnone]

theorem resolve_dir : resolve dir (args 1 false) = .ok [device] :=
  KnownAuthor.resolve_saved (AList.lookup_insert _) 1 false

/-- The request it sends to its daemon. -/
def post : Request := ⟨"POST", "/api/drops", [], [], helloText 2 9⟩

theorem hybridMode_post : (createArgs (helloRequest 2 9) "hello").hybridMode = false :=
  KnownAuthor.hybridMode_args 1 false

theorem device_own : device.1 = own.ecdhPublic sending := by decide +kernel

theorem addressed : Addressed sending dir (createArgs (helloRequest 2 9) "hello").hybridMode
    [device] := by
  refine ⟨own, device, identity_dir, List.mem_singleton_self _, device_own, fun hmode => ?_⟩
  exact absurd (hybridMode_post.symm.trans hmode) nofun

theorem ideal : Ideal sending (createArgs (helloRequest 2 9) "hello") draws [device] dir := by
  have hholder := @known_ideal own (drop.id sending) drop.raw (fun _ => by decide +kernel)
    (fun hne => absurd device_own hne) ⟨.invalidPublicKey, by decide +kernel⟩
    fun _ _ _ => device_own
  refine hholder.of_same_keys rfl ?_ ?_
  · rw [identity_dir, identity_holderDir]
  · rw [hybrid_dir, hybrid_holderDir]

/-- The daemon creates the drop. -/
theorem exists_created : ∃ created disk',
    (createDrop sending (cellText (helloLibraries 2 9)) 0 (createArgs (helloRequest 2 9) "hello")
      draws).exec ⟨dir, []⟩ = (.ok created, disk') := by
  have hcell : cellText (helloLibraries 2 9) 37.775938728915946 (-122.41795063018799) 9 =
      .ok (knownPosition.display (UInt64.ofNat (knownCell 9))) := rfl
  have htext : (utf8 (knownPosition.display (UInt64.ofNat (knownCell 9)))).length ≤ 15 := by
    rw [knownPosition_display]
    decide +kernel
  have hmldsa : dir.lookup .mldsa = none := by
    unfold dir
    rw [AList.lookup_insert_ne (by simp), AList.lookup_insert_ne (by simp), AList.lookup_empty]
  exact KnownAuthor.exists_created_saved (AList.lookup_insert _) identity_dir hmldsa rfl rfl
    KnownAuthor.work_known Nat.one_ne_zero (by decide) false _ _ 9 2 hcell htext

/-- The message comes back, also after a request that creates nothing. -/
theorem known_message_returned : ∃ id disk',
    (route (helloLibraries 2 9) knownOutside post none).exec ⟨dir, []⟩ =
      (.ok (.json (helloLibraries 2 9) 201 (.obj [("id", .str (DropId.toHex id))])), disk') ∧
    let requests := [(laterOutside, ⟨"POST", "/api/drops", [], [], []⟩)]
    (route (helloLibraries 2 9) laterOutside (openRequest id) none).exec
        (serveAll (helloLibraries 2 9) none requests disk') =
      (.ok (.json (helloLibraries 2 9) 200 (.obj [("text", .str "hello")])),
        serveAll (helloLibraries 2 9) none requests disk') := by
  obtain ⟨created, disk', hcreate⟩ := exists_created
  have hvalue : (helloLibraries 2 9).fromSlice (helloText 2 9) = .ok (helloRequest 2 9) :=
    (asks_helloText 2 9).parsed
  have hanswer : (apiCreateDrop (helloLibraries 2 9) knownOutside post.body).exec ⟨dir, []⟩ =
      (.ok (.obj [("id", .str created.id.toHex)]), disk') := by
    refine (Program.exec_ofExcept_bind (mapError_ok_iff.mpr hvalue) _ _).trans ?_
    refine (Program.exec_ofExcept_bind (a := "hello") rfl _ _).trans ?_
    exact (Program.exec_bind_ok (Program.exec_mapErr_ok hcreate) _).trans rfl
  have hexec : (route (helloLibraries 2 9) knownOutside post none).exec ⟨dir, []⟩ =
      (.ok (.json (helloLibraries 2 9) 201 (.obj [("id", .str created.id.toHex)])), disk') := by
    rw [@route_create _ _ post none rfl rfl (Bool.and_false _), apiStatus, Program.exec_step,
      hanswer]
  obtain ⟨id, raw, hresponse, -, hlater⟩ := created_opens_later (helloLibraries 2 9) sendingLaws
    none rfl rfl hexec rfl hvalue rfl resolve_dir ideal addressed
  refine ⟨id, disk', by rw [hexec, hresponse], ?_⟩
  intro requests
  have hfresh : ∀ e ∈ requests, e.1.draws.dropNonce ≠ draws.dropNonce := by
    intro e he
    obtain rfl := List.mem_singleton.mp he
    decide
  rcases hlater requests hfresh with
    hopens | ⟨made, ⟨earlier, e, later, hsplit, _, _, hparsed, -⟩, -⟩
  · exact hopens laterOutside _ (asksToOpen_openRequest id)
  · have hmem : e ∈ requests := hsplit ▸ List.mem_append_right _ List.mem_cons_self
    obtain rfl := List.mem_singleton.mp hmem
    have hempty : ([] : List UInt8) ≠ helloText 2 9 := by decide +kernel
    have hrefused : (helloLibraries 2 9).fromSlice [] =
        .error "expected value at line 1 column 1" := by
      unfold helloLibraries
      simp only [hempty, if_false]
    cases hrefused.symm.trans hparsed

end KnownSelf

end Keepstone.Daemon
