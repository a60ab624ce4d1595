import Keepstone.Store.Listing
import Keepstone.Store.Verify

/-!
# The handlers of the daemon (`crates/daemon/src/main.rs:163-165, 338-481`)

A handler takes what is in the request and calls the store; it returns a JSON value or a message.
`create_drop` mines, so a handler may also not return. Parsing and writing of JSON, of floating
point numbers and of cells is third-party code and given by `Libraries`; what a request takes from
the system (time, random draws, the order of the files of a directory) by `Outside`.

Results:
* `keeps_toldRead` and the lemmas after it: what a handler has to be allowed to write. Those for
  the contacts, the list, the metadata and the opening write nothing; `api_id` may write the hybrid
  key and `api_verify` the key of the log.
-/

namespace Keepstone.Daemon

open Keepstone.Lib Keepstone.Crypto Keepstone.Core Keepstone.Store

/-! ## JSON -/

/-- `serde_json::Number`. -/
inductive Number where
  | posInt (n : UInt64)
  | negInt (n : Int64)
  | float (x : Float)

/-- `serde_json::Value`; an object is its entries. -/
inductive Json where
  | null
  | bool (b : Bool)
  | num (n : Number)
  | str (s : String)
  | arr (items : List Json)
  | obj (entries : List (String × Json))

namespace Json

/-- `Value::get` with a key. -/
def get (key : String) : Json → Option Json
  | obj entries => entries.lookup key
  | _ => none

/-- `Value::as_str`. -/
def asStr : Json → Option String
  | str s => some s
  | _ => none

/-- `Value::as_array`. -/
def asArray : Json → Option (List Json)
  | arr items => some items
  | _ => none

/-- `Value::as_u64`. -/
def asU64 : Json → Option UInt64
  | num (.posInt n) => some n
  | _ => none

/-- `Value::as_f64`. -/
def asF64 : Json → Option Float
  | num (.posInt n) => some n.toFloat
  | num (.negInt n) => some n.toFloat
  | num (.float x) => some x
  | _ => none

/-- A number of at most 64 bits as a value. -/
def nat (n : Nat) : Json := num (.posInt (UInt64.ofNat n))

/-- `hex::encode` as a value. -/
def hex (bytes : List UInt8) : Json := str (String.ofList (hexEncode bytes))

end Json

/-! ## The surroundings -/

/-- Code of other crates, and the page that is built in. -/
structure Libraries where
  /-- Cryptography. -/
  prim : Primitives
  /-- `h3o`. -/
  h3 : H3o
  /-- `serde_json::from_slice`; the error is its text. -/
  fromSlice : List UInt8 → Except String Json
  /-- `serde_json::to_vec`. -/
  toVec : Json → Except String (List UInt8)
  /-- `str::parse::<f64>`. -/
  parseF64 : String → Option Float
  /-- `INDEX_HTML`. -/
  indexHtml : String

/-- What one request takes from the system. -/
structure Outside where
  /-- `now_unix`. -/
  now : UInt64
  /-- What `create_drop` draws. -/
  draws : Draws
  /-- The keypair `hybrid_or_create` generates if there is none. -/
  hybrid : HybridKeypair
  /-- The identity `log_identity` generates if there is none. -/
  logIdentity : Identity
  /-- The order of `fs::read_dir`. -/
  order : (n : Nat) → Equiv.Perm (Fin n)
  /-- The text of the I/O error that ends the request, if one does. -/
  reported : String

/-- How a handler ends that returns no value. -/
inductive Failure where
  | message (text : String)
  | diverges
  deriving DecidableEq

/-- `Result<Value, String>`. -/
abbrev Handler := Program Failure Disk Json

variable (lib : Libraries) (outside : Outside)

/-- `map_err(|e| e.to_string())` on what the store returns. -/
def told {α : Type} (m : Program StoreError Disk α) : Program Failure Disk α :=
  m.mapErr fun e => .message (e.text outside.reported)

/-- The same on what only reads. -/
def toldRead {α : Type} (f : Dir → Except StoreError α) : Program Failure Disk α :=
  told outside (.reads fun disk => f disk.dir)

/-- A value, or the message that it is missing. -/
def required (value : Option String) (text : String) : Program Failure Disk String :=
  .ofExcept (okOr value (.message text))

/-- `serde_json::from_slice` on the body. -/
def parsed (body : List UInt8) : Handler := .ofExcept ((lib.fromSlice body).mapError .message)

/-- `DropId::from_hex`. -/
def parsedId (idText : String) : Program Failure Disk DropId :=
  .ofExcept ((DropId.fromHex idText).mapError fun e => .message e.text)

/-- `query_param`. -/
def queryParam (query : List (String × String)) (key : String) : Option String :=
  query.lookup key

/-! ## Handlers -/

/-- `api_id`. -/
def apiId : Handler := do
  let identity ← toldRead outside identity
  let hybrid ← told outside (hybridPublicBytes lib.prim outside.hybrid)
  pure (.obj
    [("signing", .hex (identity.signingPublic lib.prim).toList),
      ("ecdh", .hex (identity.ecdhPublic lib.prim).toList),
      ("hybrid", .hex hybrid)])

/-- A contact in the list of `api_contacts`. -/
def contactJson (contact : Contact) : Json :=
  .obj
    [("name", .str contact.name),
      ("signing", .hex contact.signing.toList),
      ("ecdh", .hex contact.ecdh.toList),
      ("hybrid", (contact.hybrid.map Json.hex).getD .null)]

/-- `api_contacts`. -/
def apiContacts : Handler := do
  let contacts ← toldRead outside contacts
  pure (.obj [("contacts", .arr (contacts.map contactJson))])

/-- `api_add_contact`. -/
def apiAddContact (body : List UInt8) : Handler := do
  let value ← parsed lib body
  let name ← required ((value.get "name").bind Json.asStr) "name required"
  let signing ← required ((value.get "signing").bind Json.asStr) "signing required"
  let ecdh ← required ((value.get "ecdh").bind Json.asStr) "ecdh required"
  let hybrid := (value.get "hybrid").bind Json.asStr
  told outside (addContact name signing ecdh hybrid)
  pure (.obj [("ok", .bool true)])

/-- A drop in the list of `api_list_drops`. -/
def summaryJson (drop : DropSummary) : Json :=
  .obj
    [("id", .str drop.id.toHex),
      ("cell", .str drop.cell),
      ("ring", .nat drop.ring.toNat),
      ("chunks", .nat drop.chunks.toNat),
      ("created", .nat drop.created.toNat),
      ("expiry", .nat drop.expiry.toNat),
      ("suite", .nat drop.suite.toNat),
      ("sig_kind", .nat drop.sigKind.toNat)]

/-- `api_list_drops`. -/
def apiListDrops (query : List (String × String)) : Handler := do
  let lat := (queryParam query "lat").bind lib.parseF64
  let lng := (queryParam query "lng").bind lib.parseF64
  let ring := ((queryParam query "ring").bind fun v => parseU32 v.toList).getD 2
  let near := lat.bind fun lat => lng.map fun lng => (lat, lng)
  let drops ← toldRead outside fun dir =>
    .ok (listDrops lib.prim lib.h3 outside.order near ring dir)
  pure (.obj [("drops", .arr (drops.map summaryJson))])

/-- `api_drop_meta`. -/
def apiDropMeta (idText : String) : Handler := do
  let id ← parsedId idText
  let (signed, body) ← toldRead outside (readDrop · id)
  pure (.obj
    [("id", .str id.toHex),
      ("cell", .str body.cell),
      ("ring", .nat body.ring.toNat),
      ("chunks", .nat body.chunkCount.toNat),
      ("created", .nat body.createdAt.toNat),
      ("expiry", .nat body.expiry.toNat),
      ("suite", .nat body.suite.toNat),
      ("sig_kind", .nat signed.sigKind.toNat)])

/-- The arguments that `api_create_drop` takes from the body; `as` keeps the low bits. -/
def createArgs (value : Json) (message : String) : CreateArgs where
  names := (((value.get "to").bind Json.asArray).map fun items =>
    items.filterMap Json.asStr).getD []
  lat := ((value.get "lat").bind Json.asF64).getD 0
  lng := ((value.get "lng").bind Json.asF64).getD 0
  res := (((value.get "res").bind Json.asU64).getD 9).toUInt8
  ring := (((value.get "ring").bind Json.asU64).getD 2).toUInt32
  ttl := ((value.get "ttl").bind Json.asU64).getD 0
  suite := ((value.get "suite").bind Json.asStr).getD "classical"
  plaintext := utf8 message

/-- `api_create_drop`. -/
def apiCreateDrop (body : List UInt8) : Handler := do
  let value ← parsed lib body
  let message ← required ((value.get "message").bind Json.asStr) "message required"
  let cellAt := fun lat lng res => do
    let cell ← CellId.fromLatLng lib.h3 lat lng res
    pure (cell.toHex lib.h3)
  let created ← (createDrop lib.prim cellAt outside.now (createArgs value message)
    outside.draws).mapErr fun
      | .error e => .message (e.text outside.reported)
      | .diverges => .diverges
  pure (.obj [("id", .str created.id.toHex)])

/-- `api_open_drop`. -/
def apiOpenDrop (idText : String) : Handler := do
  let id ← parsedId idText
  let plaintext ← toldRead outside (openDrop lib.prim · id)
  pure (match readText plaintext with
    | some text => .obj [("text", .str (String.ofList text))]
    | none => .obj [("hex", .hex plaintext)])

/-- `api_verify`. -/
def apiVerify (idText : String) : Handler := do
  let id ← parsedId idText
  let verification ← told outside (verify lib.prim outside.logIdentity outside.now id)
  pure (.obj
    [("signature", .bool verification.signature),
      ("inclusion", .bool verification.inclusion),
      ("sth", .bool verification.sth),
      ("tree_size", .nat verification.treeSize),
      ("leaf_index", .nat verification.leafIndex),
      ("root", .hex verification.root.toList),
      ("sig_kind", .nat verification.sigKind.toNat)])

/-! ## Invariants -/

section Invariant

variable {I : Disk → Prop} {lib outside}

theorem keeps_toldRead {α : Type} (f : Dir → Except StoreError α) :
    Keeps I (toldRead outside f) fun _ => True :=
  (Keeps.reads fun _ _ _ _ => trivial).mapErr _

theorem keeps_apiId (hhybrid : Allows I .hybrid) : Keeps I (apiId lib outside) fun _ => True := by
  refine (keeps_toldRead _).bind fun _ _ => ?_
  refine ((keeps_hybridPublicBytes lib.prim hhybrid _).mapErr _).bind fun _ _ => ?_
  exact Keeps.pure trivial

theorem keeps_apiContacts : Keeps I (apiContacts outside) fun _ => True :=
  (keeps_toldRead _).bind fun _ _ => Keeps.pure trivial

theorem keeps_apiAddContact (hcontacts : Allows I .contacts) (body : List UInt8) :
    Keeps I (apiAddContact lib outside body) fun _ => True := by
  refine (Keeps.ofExcept _).bind fun value _ => ?_
  refine (Keeps.ofExcept _).bind fun name _ => ?_
  refine (Keeps.ofExcept _).bind fun signing _ => ?_
  refine (Keeps.ofExcept _).bind fun ecdh _ => ?_
  refine ((keeps_addContact hcontacts name signing ecdh _).mapErr _).bind fun _ _ => ?_
  exact Keeps.pure trivial

theorem keeps_apiListDrops (query : List (String × String)) :
    Keeps I (apiListDrops lib outside query) fun _ => True :=
  (keeps_toldRead _).bind fun _ _ => Keeps.pure trivial

theorem keeps_apiDropMeta (idText : String) :
    Keeps I (apiDropMeta outside idText) fun _ => True := by
  refine (Keeps.ofExcept _).bind fun id _ => ?_
  exact (keeps_toldRead _).bind fun _ _ => Keeps.pure trivial

theorem keeps_apiCreateDrop (hmldsa : Allows I .mldsa)
    (hchunk : ∀ id index, Allows I (.chunk id index)) (hlog : Allows I .logEntries)
    (hdrop : ∀ signed : SignedDrop,
      Keeps I (write (.drop (signed.id lib.prim)) signed.raw) fun _ => True)
    (body : List UInt8) : Keeps I (apiCreateDrop lib outside body) fun _ => True := by
  refine (Keeps.ofExcept _).bind fun value _ => ?_
  refine (Keeps.ofExcept _).bind fun message _ => ?_
  have hcreate := keeps_createDrop lib.prim (keeps_mldsaOrCreate lib.prim hmldsa outside.draws.mlDsa)
    hchunk hlog hdrop
  exact ((hcreate _ _ _).mapErr _).bind fun _ _ => Keeps.pure trivial

theorem keeps_apiOpenDrop (idText : String) :
    Keeps I (apiOpenDrop lib outside idText) fun _ => True := by
  refine (Keeps.ofExcept _).bind fun id _ => ?_
  exact (keeps_toldRead _).bind fun _ _ => Keeps.pure trivial

theorem keeps_apiVerify (hkey : Allows I .logKey) (idText : String) :
    Keeps I (apiVerify lib outside idText) fun _ => True := by
  refine (Keeps.ofExcept _).bind fun id _ => ?_
  exact ((keeps_verify hkey).mapErr _).bind fun _ _ => Keeps.pure trivial

end Invariant

end Keepstone.Daemon
