import Keepstone.Core.Cbor
import Keepstone.Crypto.Sealing

/-!
# Drop bodies and their canonical form (`crates/core/src/types.rs:165-347`)

`toCanonical` and `fromCanonical` are the fourteen positional fields, in order. The capacity that
`from_canonical` reserves for the wrapped keys is left out here; `Core/Capacity.lean` has it.

Results:
* **`fromCanonical_ok_iff`**: on every input a machine can hold, `fromCanonical` is the inverse
  of `toCanonical`.
-/

namespace Keepstone.Core

open Keepstone.Lib Keepstone.Crypto

/-- `PROTOCOL_VERSION`. -/
def protocolVersion : UInt8 := 1

/-- `MIN_TAGS`. -/
def minTags : Nat := 16

/-- `Mode`. -/
inductive Mode where
  | capability
  | placeLocked
  deriving Repr, DecidableEq

/-- `Mode::id`. -/
def Mode.id : Mode → UInt8
  | capability => 0
  | placeLocked => 1

/-- `Mode::from_id`. -/
def Mode.fromId (id : UInt8) : Except CoreError Mode :=
  if id = 0 then .ok capability
  else if id = 1 then .ok placeLocked
  else .error (.invalid "unknown mode")

/-- `SealedContentKey`. -/
inductive SealedContentKey where
  | classical (sealed : SealedKey)
  | hybrid (sealed : HybridSealed)
  deriving DecidableEq

/-- `WrappedKey`. -/
structure WrappedKey where
  /-- Locates the entry of a recipient. -/
  tag : Bytes 8
  /-- The sealed content key. -/
  sealed : SealedContentKey
  deriving DecidableEq

/-- `DropBody`. -/
structure DropBody where
  /-- Protocol version. -/
  version : UInt8
  /-- Crypto suite identifier. -/
  suite : UInt8
  /-- H3 cell (hex). -/
  cell : String
  /-- Ring radius for delivery. -/
  ring : UInt32
  /-- Creation time (Unix seconds). -/
  createdAt : UInt64
  /-- Expiry (Unix seconds; 0 is never). -/
  expiry : UInt64
  /-- Access mode. -/
  mode : UInt8
  /-- Chunk size used. -/
  chunkSize : UInt32
  /-- Number of chunks. -/
  chunkCount : UInt32
  /-- Commitment over the chunk ciphertexts. -/
  contentRoot : Bytes 32
  /-- Nonce prefix for chunk encryption. -/
  noncePrefix : Bytes 20
  /-- Nonce from which recipient tags are derived. -/
  dropNonce : Bytes 16
  /-- Proof-of-work nonce. -/
  powNonce : UInt64
  /-- Tagged, sealed content keys. -/
  wrappedKeys : List WrappedKey
  deriving DecidableEq

/-- `SealedContentKey::suite_id`, which is also the kind `to_canonical` writes. -/
def SealedContentKey.suiteId : SealedContentKey → UInt8
  | classical _ => 1
  | hybrid _ => 2

/-- What `to_canonical` appends for the fields of a sealed key. -/
def SealedContentKey.fields : SealedContentKey → List UInt8
  | classical sealed =>
    Encoder.array 3 ++ Encoder.bytes sealed.ephemeralPublic.toList ++
      Encoder.bytes sealed.nonce.toList ++ Encoder.bytes sealed.ciphertext
  | hybrid sealed =>
    Encoder.array 4 ++ Encoder.bytes sealed.ephemeralX25519.toList ++
      Encoder.bytes sealed.kemCiphertext ++ Encoder.bytes sealed.nonce.toList ++
      Encoder.bytes sealed.ciphertext

/-- The kind of a sealed key and its fields. -/
def SealedContentKey.toCanonical (sealed : SealedContentKey) : List UInt8 :=
  Encoder.uint sealed.suiteId.toUInt64 ++ sealed.fields

/-- What one turn of the loop of `to_canonical` appends. -/
def WrappedKey.toCanonical (wrapped : WrappedKey) : List UInt8 :=
  Encoder.array 3 ++ Encoder.bytes wrapped.tag.toList ++ wrapped.sealed.toCanonical

/-- `DropBody::to_canonical`. -/
def DropBody.toCanonical (body : DropBody) : List UInt8 :=
  Encoder.array 14 ++ Encoder.uint body.version.toUInt64 ++ Encoder.uint body.suite.toUInt64 ++
    Encoder.text body.cell ++ Encoder.uint body.ring.toUInt64 ++ Encoder.uint body.createdAt ++
    Encoder.uint body.expiry ++ Encoder.uint body.mode.toUInt64 ++
    Encoder.uint body.chunkSize.toUInt64 ++ Encoder.uint body.chunkCount.toUInt64 ++
    Encoder.bytes body.contentRoot.toList ++ Encoder.bytes body.noncePrefix.toList ++
    Encoder.bytes body.dropNonce.toList ++ Encoder.uint body.powNonce ++
    Encoder.array body.wrappedKeys.length ++ body.wrappedKeys.flatMap WrappedKey.toCanonical

namespace Decoder

/-- The fields of a classical sealed key. -/
def classicalSealed : Decoder SealedKey := do
  let arity ← array
  Reader.ensure (arity = 3) (.cbor "classical sealed arity")
  let ephemeralPublic ← bytesFixed 32
  let nonce ← bytesFixed 24
  let ciphertext ← bytes
  pure ⟨ephemeralPublic, nonce, ciphertext⟩

/-- The fields of a hybrid sealed key. -/
def hybridSealed : Decoder HybridSealed := do
  let arity ← array
  Reader.ensure (arity = 4) (.cbor "hybrid sealed arity")
  let ephemeralX25519 ← bytesFixed 32
  let kemCiphertext ← bytes
  let nonce ← bytesFixed 24
  let ciphertext ← bytes
  pure ⟨ephemeralX25519, kemCiphertext, nonce, ciphertext⟩

/-- The kind of a sealed key and the `match kind` of `from_canonical`. -/
def sealedContentKey : Decoder SealedContentKey := do
  let kind ← uint
  if kind = 1 then
    let sealed ← classicalSealed
    pure (.classical sealed)
  else if kind = 2 then
    let sealed ← hybridSealed
    pure (.hybrid sealed)
  else Reader.fail (.cbor "unknown sealed key kind")

/-- One turn of the loop of `from_canonical`. -/
def wrappedKey : Decoder WrappedKey := do
  let arity ← array
  Reader.ensure (arity = 3) (.cbor "wrapped key arity")
  let tag ← bytesFixed 8
  let sealed ← sealedContentKey
  pure ⟨tag, sealed⟩

/-- The count and the loop of `from_canonical`. -/
def wrappedKeyList : Decoder (List WrappedKey) := do
  let wrappedCount ← array
  wrappedKey.replicate wrappedCount

/-- The fields of `from_canonical`, up to `dec.finish()`. -/
def dropBody : Decoder DropBody := do
  let arity ← array
  Reader.ensure (arity = 14) (.cbor "drop body arity")
  let version ← uint8 "version"
  let suite ← uint8 "suite"
  let cell ← text
  let ring ← uint32 "ring"
  let createdAt ← uint
  let expiry ← uint
  let mode ← uint8 "mode"
  let chunkSize ← uint32 "chunk_size"
  let chunkCount ← uint32 "chunk_count"
  let contentRoot ← bytesFixed 32
  let noncePrefix ← bytesFixed 20
  let dropNonce ← bytesFixed 16
  let powNonce ← uint
  let wrappedKeys ← wrappedKeyList
  pure ⟨version, suite, cell, ring, createdAt, expiry, mode, chunkSize, chunkCount, contentRoot,
    noncePrefix, dropNonce, powNonce, wrappedKeys⟩

end Decoder

/-- `DropBody::from_canonical`. -/
def DropBody.fromCanonical (bytes : List UInt8) : Except CoreError DropBody :=
  Decoder.runAll Decoder.dropBody bytes

/-! ## Exactness, bottom up -/

namespace Decoder

theorem exact_classicalSealed :
    Exact classicalSealed (fun _ => True) fun sealed =>
      Encoder.array 3 ++ Encoder.bytes sealed.ephemeralPublic.toList ++
        Encoder.bytes sealed.nonce.toList ++ Encoder.bytes sealed.ciphertext := by
  refine (exact_arity (by decide) _
    (Exact.field SealedKey.ephemeralPublic (exact_bytesFixed 32) fun _ =>
    Exact.field SealedKey.nonce (exact_bytesFixed 24) fun _ =>
    Exact.field SealedKey.ciphertext exact_bytes fun _ =>
    (Exact.pure _).congr (fun _ _ => rfl) fun sealed _ => ?_)).congr (fun sealed _ => ?_)
      fun _ _ => Iff.rfl
  · cases sealed
    simp [and_assoc]
  · simp only [List.append_assoc, List.append_nil]

theorem exact_hybridSealed :
    Exact hybridSealed (fun _ => True) fun sealed =>
      Encoder.array 4 ++ Encoder.bytes sealed.ephemeralX25519.toList ++
        Encoder.bytes sealed.kemCiphertext ++ Encoder.bytes sealed.nonce.toList ++
        Encoder.bytes sealed.ciphertext := by
  refine (exact_arity (by decide) _
    (Exact.field HybridSealed.ephemeralX25519 (exact_bytesFixed 32) fun _ =>
    Exact.field HybridSealed.kemCiphertext exact_bytes fun _ =>
    Exact.field HybridSealed.nonce (exact_bytesFixed 24) fun _ =>
    Exact.field HybridSealed.ciphertext exact_bytes fun _ =>
    (Exact.pure _).congr (fun _ _ => rfl) fun sealed _ => ?_)).congr (fun sealed _ => ?_)
      fun _ _ => Iff.rfl
  · cases sealed
    simp [and_assoc]
  · simp only [List.append_assoc, List.append_nil]

theorem exact_sealedContentKey :
    Exact sealedContentKey (fun _ => True) SealedContentKey.toCanonical := by
  refine Exact.field (fun sealed : SealedContentKey => sealed.suiteId.toUInt64) exact_uint
    fun kind => ?_
  by_cases h1 : kind = 1
  · rw [if_pos h1, h1]
    refine (exact_classicalSealed.map SealedContentKey.classical (g := SealedContentKey.fields)
      fun _ _ => rfl).congr (fun _ _ => rfl) fun sealed _ => ?_
    cases sealed with
    | classical sealed => simp [SealedContentKey.suiteId]
    | hybrid sealed => simp [SealedContentKey.suiteId]
  rw [if_neg h1]
  by_cases h2 : kind = 2
  · rw [if_pos h2, h2]
    refine (exact_hybridSealed.map SealedContentKey.hybrid (g := SealedContentKey.fields)
      fun _ _ => rfl).congr (fun _ _ => rfl) fun sealed _ => ?_
    cases sealed with
    | classical sealed => simp [SealedContentKey.suiteId]
    | hybrid sealed => simp [SealedContentKey.suiteId]
  rw [if_neg h2]
  refine (Exact.fail _ _).congr (fun _ _ => rfl) fun sealed _ => ?_
  cases sealed with
  | classical sealed => simp [SealedContentKey.suiteId, eq_comm, h1]
  | hybrid sealed => simp [SealedContentKey.suiteId, eq_comm, h2]

theorem exact_wrappedKey : Exact wrappedKey (fun _ => True) WrappedKey.toCanonical := by
  refine (exact_arity (by decide) _
    (Exact.field WrappedKey.tag (exact_bytesFixed 8) fun _ =>
    Exact.field WrappedKey.sealed exact_sealedContentKey fun _ =>
    (Exact.pure _).congr (fun _ _ => rfl) fun wrapped _ => ?_)).congr (fun wrapped _ => ?_)
      fun _ _ => Iff.rfl
  · cases wrapped
    simp
  · simp only [WrappedKey.toCanonical, List.append_assoc, List.append_nil]

theorem exact_dropBody : Exact dropBody (fun _ => True) DropBody.toCanonical := by
  refine (exact_arity (by decide) _
    (Exact.field DropBody.version (exact_uint8 _) fun _ =>
    Exact.field DropBody.suite (exact_uint8 _) fun _ =>
    Exact.field DropBody.cell exact_text fun _ =>
    Exact.field DropBody.ring (exact_uint32 _) fun _ =>
    Exact.field DropBody.createdAt exact_uint fun _ =>
    Exact.field DropBody.expiry exact_uint fun _ =>
    Exact.field DropBody.mode (exact_uint8 _) fun _ =>
    Exact.field DropBody.chunkSize (exact_uint32 _) fun _ =>
    Exact.field DropBody.chunkCount (exact_uint32 _) fun _ =>
    Exact.field DropBody.contentRoot (exact_bytesFixed 32) fun _ =>
    Exact.field DropBody.noncePrefix (exact_bytesFixed 20) fun _ =>
    Exact.field DropBody.dropNonce (exact_bytesFixed 16) fun _ =>
    Exact.field DropBody.powNonce exact_uint fun _ =>
    Exact.field DropBody.wrappedKeys (exact_list exact_wrappedKey ?_) fun _ =>
    (Exact.pure _).congr (fun _ _ => rfl) fun body _ => ?_)).congr (fun body _ => ?_)
      fun _ _ => Iff.rfl
  · intro wrapped
    rw [WrappedKey.toCanonical, Encoder.array, head_eq]
    exact List.cons_ne_nil _ _
  · cases body
    simp [and_assoc]
  · simp only [DropBody.toCanonical, List.append_assoc, List.append_nil]

end Decoder

/-! ## Shapes and lengths -/

/-- The length of each field of an entry. -/
def WrappedKey.fieldLengths (wrapped : WrappedKey) : List Nat :=
  match wrapped.sealed with
  | .classical sealed => [wrapped.tag.toList.length, sealed.ephemeralPublic.toList.length,
      sealed.nonce.toList.length, sealed.ciphertext.length]
  | .hybrid sealed => [wrapped.tag.toList.length, sealed.ephemeralX25519.toList.length,
      sealed.kemCiphertext.length, sealed.nonce.toList.length, sealed.ciphertext.length]

/-- What is visible of an entry apart from the contents of its fields: its kind and their
lengths. -/
def WrappedKey.shape (wrapped : WrappedKey) : UInt8 × List Nat :=
  (wrapped.sealed.suiteId, wrapped.fieldLengths)

/-- The length of the encoding of an entry of this shape. -/
def encodedLength (shape : UInt8 × List Nat) : Nat :=
  (Encoder.array 3).length + (Encoder.uint shape.1.toUInt64).length +
    (Encoder.array (shape.2.length - 1)).length +
    (shape.2.map fun n => (Encoder.head majorBytes (Encoder.lenU64 n)).length + n).sum

/-- The encoded length of an entry depends on its shape only. -/
theorem length_wrappedKey (entry : WrappedKey) :
    entry.toCanonical.length = encodedLength entry.shape := by
  obtain ⟨tag, sealed⟩ := entry
  cases sealed with
  | classical sealed =>
    simp only [WrappedKey.toCanonical, SealedContentKey.toCanonical, SealedContentKey.fields,
      WrappedKey.shape, WrappedKey.fieldLengths, encodedLength, Encoder.bytes, List.length_append,
      List.length_cons, List.length_nil, List.map_cons, List.map_nil, List.sum_cons, List.sum_nil]
    ring
  | hybrid sealed =>
    simp only [WrappedKey.toCanonical, SealedContentKey.toCanonical, SealedContentKey.fields,
      WrappedKey.shape, WrappedKey.fieldLengths, encodedLength, Encoder.bytes, List.length_append,
      List.length_cons, List.length_nil, List.map_cons, List.map_nil, List.sum_cons, List.sum_nil]
    ring

theorem length_wrappedKeys (entries : List WrappedKey) :
    (entries.flatMap WrappedKey.toCanonical).length =
      ((entries.map WrappedKey.shape).map encodedLength).sum := by
  rw [List.length_flatMap, List.map_map]
  congr 1
  exact List.map_congr_left fun entry _ => length_wrappedKey entry

theorem length_toCanonical_le (body : DropBody) :
    body.toCanonical.length ≤ 203 + (utf8 body.cell).length +
      (body.wrappedKeys.flatMap WrappedKey.toCanonical).length := by
  have hversion := Decoder.length_uint_le body.version.toUInt64
  have hsuite := Decoder.length_uint_le body.suite.toUInt64
  have hcell := Decoder.length_text_le body.cell
  have hring := Decoder.length_uint_le body.ring.toUInt64
  have hcreatedAt := Decoder.length_uint_le body.createdAt
  have hexpiry := Decoder.length_uint_le body.expiry
  have hmode := Decoder.length_uint_le body.mode.toUInt64
  have hchunkSize := Decoder.length_uint_le body.chunkSize.toUInt64
  have hchunkCount := Decoder.length_uint_le body.chunkCount.toUInt64
  have hroot := Decoder.length_bytes_le body.contentRoot.toList
  have hchunkNonce := Decoder.length_bytes_le body.noncePrefix.toList
  have hdropNonce := Decoder.length_bytes_le body.dropNonce.toList
  have hpowNonce := Decoder.length_uint_le body.powNonce
  have hfields := Decoder.length_array_le 14
  have hentries := Decoder.length_array_le body.wrappedKeys.length
  rw [List.Vector.toList_length] at hroot hchunkNonce hdropNonce
  simp only [DropBody.toCanonical, List.length_append]
  omega

/-- **The drop body format is a bijection.** -/
theorem fromCanonical_ok_iff (body : DropBody) (s : List UInt8) (hs : s.length < 2 ^ 64) :
    DropBody.fromCanonical s = .ok body ↔ s = body.toCanonical :=
  (Decoder.runAll_ok_iff Decoder.exact_dropBody hs).trans (and_iff_right trivial)

/-- A body with a classical and a hybrid key. -/
theorem fromCanonical_both_kinds :
    let body : DropBody :=
      { version := 1, suite := 2, cell := "8928308280fffff", ring := 2, createdAt := 1700000000,
        expiry := 0, mode := 0, chunkSize := 65536, chunkCount := 1,
        contentRoot := List.Vector.replicate 32 9, noncePrefix := List.Vector.replicate 20 7,
        dropNonce := List.Vector.replicate 16 5, powNonce := 300,
        wrappedKeys :=
          [⟨List.Vector.replicate 8 1, .classical
              ⟨List.Vector.replicate 32 2, List.Vector.replicate 24 3, [4, 5]⟩⟩,
           ⟨List.Vector.replicate 8 6, .hybrid
              ⟨List.Vector.replicate 32 7, [8], List.Vector.replicate 24 9, []⟩⟩] }
    DropBody.fromCanonical body.toCanonical = .ok body :=
  (fromCanonical_ok_iff _ _ (by decide +kernel)).mpr rfl

end Keepstone.Core
