import Keepstone.Store.Keys
import Mathlib.Logic.Equiv.Fin.Basic

/-!
# Creating and opening drops (`crates/store/src/lib.rs:396-603, 654-692`)

`create_drop` draws keys, nonces, decoys and a shuffle from the operating system: `Draws` holds
them, with one permutation for every length. The cell of a position is computed by the H3 library
(`cellAt`), and the time is what the clock says. Mining may not end, so a call of `create_drop`
stops with an error or does not end (`Stop`).

Results:
* `keeps_createDrop`: what `create_drop` can do to a directory.
-/

namespace Keepstone.Store

open Keepstone.Lib Keepstone.Crypto Keepstone.Core

variable (prim : Primitives)

/-! ## Creating -/

/-- What is drawn to seal the content key to one recipient. -/
structure SealDraw where
  /-- Ephemeral X25519 secret. -/
  ephemeral : Bytes 32
  /-- Encapsulation randomness. -/
  kemRandom : Bytes 32
  /-- AEAD nonce. -/
  nonce : Bytes 24

/-- A decoy entry: all bytes are drawn. -/
structure Decoy where
  /-- Tag. -/
  tag : Bytes 8
  /-- Ephemeral public key. -/
  ephemeralPublic : Bytes 32
  /-- AEAD nonce. -/
  nonce : Bytes 24
  /-- AEAD ciphertext. -/
  ciphertext : Bytes 48

/-- What one call of `create_drop` draws. -/
structure Draws where
  /-- Content key. -/
  contentKey : Bytes 32
  /-- Nonce prefix of the chunks. -/
  noncePrefix : Bytes 20
  /-- Nonce of the recipient tags. -/
  dropNonce : Bytes 16
  /-- For the recipient at each position. -/
  seals : Nat → SealDraw
  /-- The decoys, in order. -/
  decoys : Nat → Decoy
  /-- The shuffle of that many entries. -/
  shuffle : (n : Nat) → Equiv.Perm (Fin n)
  /-- The ML-DSA keypair generated if there is none. -/
  mlDsa : MlDsaKeypair

/-- The arguments of `create_drop`. -/
structure CreateArgs where
  /-- Names of the recipients (`to`). -/
  names : List String
  /-- Latitude. -/
  lat : Float
  /-- Longitude. -/
  lng : Float
  /-- H3 resolution. -/
  res : UInt8
  /-- Ring radius for delivery. -/
  ring : UInt32
  /-- Time to live in seconds; 0 is for ever. -/
  ttl : UInt64
  /-- Name of the suite. -/
  suite : String
  /-- The content. -/
  plaintext : List UInt8

/-- `CreatedDrop`. -/
structure CreatedDrop where
  /-- Drop id. -/
  id : DropId
  /-- H3 cell (hex). -/
  cell : String
  /-- Number of chunks. -/
  chunks : UInt32
  /-- Plaintext length. -/
  bytes : Nat
  /-- Crypto suite id. -/
  suite : UInt8
  /-- Signature kind. -/
  sigKind : UInt8
  deriving DecidableEq

/-- How a call ends that does not return. -/
inductive Stop where
  | error (error : StoreError)
  | diverges
  deriving DecidableEq

/-- `str::eq_ignore_ascii_case`. -/
def eqIgnoreAsciiCase (a b : String) : Bool :=
  a.toList.map Char.toLower = b.toList.map Char.toLower

/-- `u64::saturating_add`. -/
def saturatingAdd (a b : UInt64) : UInt64 :=
  if a.toNat + b.toNat < 2 ^ 64 then a + b else 0xFFFFFFFFFFFFFFFF

/-- The devices of one name. -/
def devicesOf (contacts : List Contact) (hybridMode : Bool) (name : String) :
    Except StoreError (List (Bytes 32 × Option (List UInt8))) := do
  let devices := contacts.filter fun contact => contact.name = name
  check (!devices.isEmpty) (.invalid ("unknown contact `" ++ name ++ "`"))
  devices.mapM fun contact => do
    check (!hybridMode || contact.hybrid.isSome)
      (.invalid ("device for `" ++ name ++ "` has no hybrid key"))
    pure (contact.ecdh, contact.hybrid)

/-- `hybrid_public_from_bytes`. -/
def hybridPublicFromBytes (bytes : List UInt8) : Except StoreError HybridPublic :=
  if h : bytes.length = 32 + 1184 then
    .ok ⟨bytesOf (bytes.take 32) (by rw [List.length_take]; omega), bytes.drop 32⟩
  else .error (.invalid "hybrid public key must be 32 + 1184 bytes")

/-- The content key sealed to one recipient, with its tag. -/
def wrapKey (draws : Draws) (hybridMode : Bool) (position : Nat)
    (recipient : Bytes 32 × Option (List UInt8)) : Except StoreError WrappedKey := do
  let draw := draws.seals position
  let sealed ←
    if hybridMode then do
      let bytes ← match recipient.2 with
        | some bytes => pure bytes
        | none => throw (.invalid "recipient has no hybrid key")
      let pub ← hybridPublicFromBytes bytes
      let sealed ← (hybridSeal prim draws.contentKey pub draw.ephemeral draw.kemRandom
        draw.nonce).mapError .crypto
      pure (SealedContentKey.hybrid sealed)
    else do
      let sealed ← (SealedKey.seal prim draws.contentKey recipient.1 draw.ephemeral
        draw.nonce).mapError .crypto
      pure (SealedContentKey.classical sealed)
  let tag ← (deriveTag prim recipient.1 draws.dropNonce).mapError .crypto
  pure ⟨tag, sealed⟩

/-- A decoy as an entry. -/
def Decoy.wrapped (decoy : Decoy) : WrappedKey :=
  ⟨decoy.tag, .classical ⟨decoy.ephemeralPublic, decoy.nonce, decoy.ciphertext.toList⟩⟩

/-- The entries with decoys up to `MIN_TAGS`. -/
def padded (draws : Draws) (wrapped : List WrappedKey) : List WrappedKey :=
  wrapped ++ (List.range (minTags - wrapped.length)).map fun i => (draws.decoys i).wrapped

/-- The entries in the drawn order. -/
def shuffled (draws : Draws) (wrapped : List WrappedKey) : List WrappedKey :=
  List.ofFn fun i => wrapped.get (draws.shuffle wrapped.length i)

/-- `Store::append_log_entry`. -/
def appendLogEntry (raw : List UInt8) : Program StoreError Disk Unit := do
  createDirAll.mapErr .io
  (openAppend .logEntries).mapErr .io
  let len ← .ofExcept (u32TryFrom (.invalid "entry length") raw.length)
  (writeAll .logEntries (beBytes 4 len.toNat)).mapErr .io
  (writeAll .logEntries raw).mapErr .io

/-- What `create_drop` knows before it mines. -/
structure Prepared where
  /-- The author. -/
  identity : Identity
  /-- Whether the suite is the hybrid one. -/
  hybridMode : Bool
  /-- Framing of the chunks. -/
  framing : Framing
  /-- Encrypted chunks. -/
  chunks : List (List UInt8)
  /-- The entries in their final order. -/
  wrappedKeys : List WrappedKey

/-- `create_drop` up to the proof of work. It only reads. -/
def prepareDrop (args : CreateArgs) (draws : Draws) (dir : Dir) : Except StoreError Prepared := do
  check (!args.names.isEmpty) (.invalid "at least one recipient is required")
  check (eqIgnoreAsciiCase args.suite "classical" || eqIgnoreAsciiCase args.suite "hybrid")
    (.invalid ("unknown suite `" ++ args.suite ++ "`"))
  let hybridMode := eqIgnoreAsciiCase args.suite "hybrid"
  let identity ← identity dir
  let contacts ← contacts dir
  let recipients ← args.names.mapM (devicesOf contacts hybridMode)
  let (framing, chunks) ← (streamEncrypt prim draws.contentKey args.plaintext
    draws.noncePrefix).mapError .crypto
  let wrapped ← recipients.flatten.zipIdx.mapM fun (recipient, position) =>
    wrapKey prim draws hybridMode position recipient
  pure ⟨identity, hybridMode, framing, chunks, shuffled draws (padded draws wrapped)⟩

/-- The body `create_drop` signs. -/
def bodyOf (args : CreateArgs) (draws : Draws) (prepared : Prepared) (powNonce : UInt64)
    (cell : String) (now : UInt64) : Except StoreError DropBody := do
  let suite := if prepared.hybridMode then CryptoSuite.hybrid25519MlKem768 else .classical25519
  let chunkSize ← u32TryFrom (.invalid "chunk size") defaultChunkSize
  pure
    { version := protocolVersion
      suite := suite.id
      cell
      ring := args.ring
      createdAt := now
      expiry := if args.ttl = 0 then 0 else saturatingAdd now args.ttl
      mode := Mode.capability.id
      chunkSize
      chunkCount := prepared.framing.total
      contentRoot := contentRoot prim prepared.chunks
      noncePrefix := prepared.framing.noncePrefix
      dropNonce := draws.dropNonce
      powNonce
      wrappedKeys := prepared.wrappedKeys }

/-- The envelope of the body. -/
def signBody (draws : Draws) (prepared : Prepared) (body : DropBody) :
    Program StoreError Disk SignedDrop := do
  if prepared.hybridMode then
    let mlDsa ← mldsaOrCreate prim draws.mlDsa
    .ofExcept ((SignedDrop.signHybrid prim prepared.identity mlDsa body).mapError .core)
  else pure (SignedDrop.sign prim prepared.identity body)

/-- The files of a new drop, chunks first. -/
def storeDrop (signed : SignedDrop) (chunks : List (List UInt8)) :
    Program StoreError Disk Unit := do
  let id := signed.id prim
  createDirAll.mapErr .io
  forM chunks.zipIdx fun (chunk, index) => (write (.chunk id index) chunk).mapErr .io
  let _ ← createDirAll.ok
  (write (.drop id) signed.raw).mapErr .io
  appendLogEntry signed.raw

/-- `Store::create_drop`. -/
def createDrop (cellAt : Float → Float → UInt8 → Except CoreError String) (now : UInt64)
    (args : CreateArgs) (draws : Draws) : Program Stop Disk CreatedDrop := do
  let prepared ← .reads fun disk => (prepareDrop prim args draws disk.dir).mapError .error
  let signer := prepared.identity.signingPublic prim
  let powNonce ← .ofExcept
    (match mine prim signer (contentRoot prim prepared.chunks) draws.dropNonce with
    | some nonce => .ok nonce
    | none => .error .diverges)
  let cell ← .ofExcept ((cellAt args.lat args.lng args.res).mapError fun e => .error (.core e))
  let body ← .ofExcept ((bodyOf prim args draws prepared powNonce cell now).mapError .error)
  let signed ← (signBody prim draws prepared body).mapErr .error
  (storeDrop prim signed prepared.chunks).mapErr .error
  pure ⟨signed.id prim, body.cell, prepared.framing.total, args.plaintext.length, body.suite,
    signed.sigKind⟩

/-! ## The two halves of creating -/

/-- `storeDrop` up to the envelope. -/
def storeChunks (signed : SignedDrop) (chunks : List (List UInt8)) :
    Program StoreError Disk Unit := do
  createDirAll.mapErr .io
  forM chunks.zipIdx fun (chunk, index) =>
    (write (.chunk (signed.id prim) index) chunk).mapErr .io
  let _ ← createDirAll.ok
  pure ()

/-- `storeDrop` from the envelope on. -/
def storeEnvelope (signed : SignedDrop) : Program StoreError Disk Unit := do
  (write (.drop (signed.id prim)) signed.raw).mapErr .io
  appendLogEntry signed.raw

theorem storeDrop_eq (signed : SignedDrop) (chunks : List (List UInt8)) :
    storeDrop prim signed chunks =
      (do storeChunks prim signed chunks; storeEnvelope prim signed) := by
  simp only [storeDrop, storeChunks, storeEnvelope, bind_assoc, pure_bind]

/-- `create_drop` up to the writing of the envelope: the envelope to write, and what is returned
when all goes well. -/
def untilEnvelope (cellAt : Float → Float → UInt8 → Except CoreError String) (now : UInt64)
    (args : CreateArgs) (draws : Draws) : Program Stop Disk (SignedDrop × CreatedDrop) := do
  let prepared ← .reads fun disk => (prepareDrop prim args draws disk.dir).mapError .error
  let signer := prepared.identity.signingPublic prim
  let powNonce ← .ofExcept
    (match mine prim signer (contentRoot prim prepared.chunks) draws.dropNonce with
    | some nonce => .ok nonce
    | none => .error .diverges)
  let cell ← .ofExcept ((cellAt args.lat args.lng args.res).mapError fun e => .error (.core e))
  let body ← .ofExcept ((bodyOf prim args draws prepared powNonce cell now).mapError .error)
  let signed ← (signBody prim draws prepared body).mapErr .error
  (storeChunks prim signed prepared.chunks).mapErr .error
  pure (signed, ⟨signed.id prim, body.cell, prepared.framing.total, args.plaintext.length,
    body.suite, signed.sigKind⟩)

/-- After that, `create_drop` writes the envelope and the log entry. -/
theorem createDrop_eq (cellAt : Float → Float → UInt8 → Except CoreError String) (now : UInt64)
    (args : CreateArgs) (draws : Draws) :
    createDrop prim cellAt now args draws = (do
      let (signed, created) ← untilEnvelope prim cellAt now args draws
      (storeEnvelope prim signed).mapErr .error
      pure created) := by
  simp only [createDrop, untilEnvelope, storeDrop_eq, Program.mapErr_bind, bind_assoc, pure_bind]

/-! ## Invariants -/

section Invariant

variable {I : Disk → Prop}

theorem keeps_appendLogEntry (hlog : Allows I .logEntries) (raw : List UInt8) :
    Keeps I (appendLogEntry raw) fun _ => True := by
  refine (hlog.createDirAll.mapErr _).bind fun _ _ => ?_
  refine (hlog.openAppend.mapErr _).bind fun _ _ => ?_
  refine (Keeps.ofExcept _).bind fun _ _ => ?_
  refine ((hlog.writeAll _).mapErr _).bind fun _ _ => ?_
  exact (hlog.writeAll _).mapErr _

theorem keeps_writeChunks {id : DropId} {entries : List (List UInt8 × Nat)}
    (h : ∀ e ∈ entries, Allows I (.chunk id e.2)) :
    Keeps I (forM entries fun e : List UInt8 × Nat =>
      (write (.chunk id e.2) e.1).mapErr StoreError.io) fun _ => True :=
  Keeps.forM _ fun e he => ((h e he).write _).mapErr _

theorem keeps_storeChunks (hchunk : ∀ id index, Allows I (.chunk id index)) (signed : SignedDrop)
    (chunks : List (List UInt8)) : Keeps I (storeChunks prim signed chunks) fun _ => True := by
  have hmake : Keeps I createDirAll fun _ => True := (hchunk (signed.id prim) 0).createDirAll
  refine (hmake.mapErr _).bind fun _ _ => ?_
  refine (keeps_writeChunks fun e _ => hchunk _ e.2).bind fun _ _ => ?_
  exact hmake.ok.bind fun _ _ => Keeps.pure trivial

theorem keeps_storeEnvelope {signed : SignedDrop} (hlog : Allows I .logEntries)
    (hdrop : Keeps I (write (.drop (signed.id prim)) signed.raw) fun _ => True) :
    Keeps I (storeEnvelope prim signed) fun _ => True :=
  (hdrop.mapErr _).bind fun _ _ => keeps_appendLogEntry hlog _

theorem keeps_signBody {draws : Draws}
    (hmldsa : Keeps I (mldsaOrCreate prim draws.mlDsa) fun _ => True) (prepared : Prepared)
    (body : DropBody) : Keeps I (signBody prim draws prepared body) fun _ => True := by
  unfold signBody
  cases prepared.hybridMode with
  | true =>
    refine hmldsa.bind fun _ _ => ?_
    exact (Keeps.ofExcept _).weaken fun _ _ => trivial
  | false => exact Keeps.pure trivial

/-- Until the envelope only keys and chunks are written. -/
theorem keeps_untilEnvelope {draws : Draws}
    (hmldsa : Keeps I (mldsaOrCreate prim draws.mlDsa) fun _ => True)
    (hchunk : ∀ id index, Allows I (.chunk id index))
    (cellAt : Float → Float → UInt8 → Except CoreError String) (now : UInt64)
    (args : CreateArgs) : Keeps I (untilEnvelope prim cellAt now args draws) fun _ => True := by
  refine (Keeps.reads fun _ _ _ _ => trivial).bind fun prepared _ => ?_
  refine (Keeps.ofExcept _).bind fun powNonce _ => ?_
  refine (Keeps.ofExcept _).bind fun cell _ => ?_
  refine (Keeps.ofExcept _).bind fun body _ => ?_
  refine ((keeps_signBody prim hmldsa prepared body).mapErr _).bind fun signed _ => ?_
  refine ((keeps_storeChunks prim hchunk signed _).mapErr _).bind fun _ _ => ?_
  exact Keeps.pure trivial

/-- `create_drop` writes an envelope under its own id and nothing else under `drops`. -/
theorem keeps_createDrop {draws : Draws}
    (hmldsa : Keeps I (mldsaOrCreate prim draws.mlDsa) fun _ => True)
    (hchunk : ∀ id index, Allows I (.chunk id index)) (hlog : Allows I .logEntries)
    (hdrop : ∀ signed : SignedDrop,
      Keeps I (write (.drop (signed.id prim)) signed.raw) fun _ => True)
    (cellAt : Float → Float → UInt8 → Except CoreError String) (now : UInt64)
    (args : CreateArgs) : Keeps I (createDrop prim cellAt now args draws) fun _ => True := by
  rw [createDrop_eq]
  refine (keeps_untilEnvelope prim hmldsa hchunk cellAt now args).bind fun (signed, _) _ => ?_
  refine ((keeps_storeEnvelope prim hlog (hdrop signed)).mapErr _).bind fun _ _ => ?_
  exact Keeps.pure trivial

end Invariant

end Keepstone.Store
