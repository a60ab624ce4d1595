import Keepstone.Core.Body
import Keepstone.Lib.Except
import Keepstone.Lib.Text

/-!
# Signed envelopes (`crates/core/src/types.rs`, `crates/core/src/pow.rs`)

`SignedDrop` keeps the exact bytes it was decoded from: the id hashes those, and the signature is
checked over the payload bytes as received.

Results:
* `decode_ok_iff`: an input decodes to an envelope exactly when it is the encoding of its fields;
* `verify_ok_iff`: what `verify` accepts;
* `signHybrid_ok_iff`: what `sign_hybrid` returns.
-/

namespace Keepstone.Core

open Keepstone.Lib Keepstone.Crypto

variable (prim : Primitives)

/-! ## Identifiers, content root and proof of work -/

/-- `DropId`. -/
structure DropId where
  /-- Raw bytes. -/
  bytes : Bytes 32
  deriving DecidableEq

/-- `DropId::of`. -/
def DropId.of (bytes : List UInt8) : DropId := ⟨prim.sha256 bytes⟩

/-- `DropId::to_hex`. -/
def DropId.toHex (id : DropId) : String := String.ofList (hexEncode id.bytes.toList)

/-- `DropId::from_hex`. -/
def DropId.fromHex (text : String) : Except CoreError DropId :=
  match hexDecode text.toList with
  | none => .error (.invalid "bad hex")
  | some bytes =>
    match tryBytes 32 bytes with
    | none => .error (.invalid "bad id length")
    | some id => .ok ⟨id⟩

theorem DropId.fromHex_toHex (id : DropId) : fromHex id.toHex = .ok id := by
  unfold fromHex toHex
  simp only [String.toList_ofList, hexDecode_hexEncode, tryBytes_eq_some_iff.mpr rfl]

/-- `content_root`: the hash of the concatenated chunk hashes. -/
def contentRoot (chunks : List (List UInt8)) : Bytes 32 :=
  prim.sha256 (chunks.flatMap fun chunk => (prim.sha256 chunk).toList)

/-- `POW_DIFFICULTY_BITS`. -/
def powDifficultyBits : Nat := 12

/-- `POW_CONTEXT`. -/
def powContext : List UInt8 := utf8 "keepstone/v1/pow"

/-- `u8::leading_zeros`. -/
def leadingZeros (byte : UInt8) : Nat := 8 - (if byte = 0 then 0 else byte.toNat.log2 + 1)

/-- `leading_zero_bits`, on the bytes of the digest. -/
def leadingZeroBits : List UInt8 → Nat
  | [] => 0
  | byte :: rest => if byte = 0 then 8 + leadingZeroBits rest else leadingZeros byte

/-- `pow::digest`. -/
def powDigest (signer root : Bytes 32) (dropNonce : Bytes 16) (nonce : UInt64) : Bytes 32 :=
  prim.sha256 (powContext ++ signer.toList ++ root.toList ++ dropNonce.toList ++
    beBytes 8 nonce.toNat)

/-- `pow::is_valid`. -/
def powIsValid (signer root : Bytes 32) (dropNonce : Bytes 16) (nonce : UInt64) : Bool :=
  powDifficultyBits ≤ leadingZeroBits (powDigest prim signer root dropNonce nonce).toList

/-- The loop of `pow::mine` from `nonce` on, for at most the given number of turns. -/
def mineFrom (signer root : Bytes 32) (dropNonce : Bytes 16) : Nat → UInt64 → Option UInt64
  | 0, _ => none
  | turns + 1, nonce =>
    if powIsValid prim signer root dropNonce nonce then some nonce
    else mineFrom signer root dropNonce turns (nonce + 1)

/-- `pow::mine`. After `2 ^ 64` turns the loop has tried every nonce, so it does not end if it has
not ended by then: `none`. -/
def mine (signer root : Bytes 32) (dropNonce : Bytes 16) : Option UInt64 :=
  mineFrom prim signer root dropNonce (2 ^ 64) 0

/-- `DropBody::pow_ok`. -/
def DropBody.powOk (body : DropBody) (signer : Bytes 32) : Bool :=
  powIsValid prim signer body.contentRoot body.dropNonce body.powNonce

/-! ## Envelopes -/

/-- `SIG_ED25519`. -/
def sigEd25519 : UInt8 := 1
/-- `SIG_HYBRID`. -/
def sigHybrid : UInt8 := 2

/-- `DROP_CONTEXT`. -/
def dropContext : List UInt8 := utf8 "keepstone/v1/drop"

/-- `signing_input`. -/
def signingInput (payload : List UInt8) : List UInt8 :=
  dropContext ++ beBytes 4 (min payload.length 0xFFFFFFFF) ++ payload

/-- `encode_envelope`. -/
def encodeEnvelope (suite sigKind : UInt8) (signer : Bytes 32)
    (mlDsaKey payload signature : List UInt8) : List UInt8 :=
  Encoder.array 6 ++ Encoder.uint suite.toUInt64 ++ Encoder.uint sigKind.toUInt64 ++
    Encoder.bytes signer.toList ++ Encoder.bytes mlDsaKey ++ Encoder.bytes payload ++
    Encoder.bytes signature

/-- `SignedDrop`. -/
structure SignedDrop where
  /-- Crypto suite identifier. -/
  suite : UInt8
  /-- Signature kind. -/
  sigKind : UInt8
  /-- Author's Ed25519 public key. -/
  signer : Bytes 32
  /-- Author's ML-DSA-65 verifying key. -/
  mlDsaKey : List UInt8
  /-- Canonical body bytes exactly as received. -/
  payload : List UInt8
  /-- Signature bytes. -/
  signature : List UInt8
  /-- Exact transmitted bytes of the whole envelope. -/
  raw : List UInt8
  deriving DecidableEq

/-- An envelope with the bytes `encode_envelope` gives its fields. -/
def SignedDrop.ofFields (suite sigKind : UInt8) (signer : Bytes 32)
    (mlDsaKey payload signature : List UInt8) : SignedDrop :=
  ⟨suite, sigKind, signer, mlDsaKey, payload, signature,
    encodeEnvelope suite sigKind signer mlDsaKey payload signature⟩

/-- `SignedDrop::sign`. -/
def SignedDrop.sign (identity : Identity) (body : DropBody) : SignedDrop :=
  let payload := body.toCanonical
  let signature := (identity.sign prim (signingInput payload)).toList
  let signer := identity.signingPublic prim
  .ofFields body.suite sigEd25519 signer [] payload signature

/-- `SignedDrop::sign_hybrid`. -/
def SignedDrop.signHybrid (identity : Identity) (mlDsa : MlDsaKeypair) (body : DropBody) :
    Except CoreError SignedDrop :=
  let payload := body.toCanonical
  let input := signingInput payload
  let ed25519 := identity.sign prim input
  match mlDsa.sign prim input with
  | .error e => .error (.crypto e)
  | .ok mlDsaSignature =>
    let signer := identity.signingPublic prim
    let mlDsaKey := mlDsa.verifyingKeyBytes prim
    .ok (.ofFields body.suite sigHybrid signer mlDsaKey payload (ed25519.toList ++ mlDsaSignature))

/-- The six fields of an envelope, as `decode` reads them from the bytes `raw`. -/
def Decoder.envelope (raw : List UInt8) : Decoder SignedDrop := do
  let arity ← array
  Reader.ensure (arity = 6) (.cbor "envelope arity")
  let suite ← uint8 "suite"
  let sigKind ← uint8 "sig_kind"
  let signer ← bytesFixed 32
  let mlDsaKey ← bytes
  let payload ← bytes
  let signature ← bytes
  pure ⟨suite, sigKind, signer, mlDsaKey, payload, signature, raw⟩

/-- `SignedDrop::decode`. -/
def SignedDrop.decode (bytes : List UInt8) : Except CoreError SignedDrop :=
  Decoder.runAll (Decoder.envelope bytes) bytes

/-- `SignedDrop::id`. -/
def SignedDrop.id (drop : SignedDrop) : DropId := .of prim drop.raw

/-- `SignedDrop::verify`. -/
def SignedDrop.verify (drop : SignedDrop) : Except CoreError Unit :=
  let input := signingInput drop.payload
  if drop.sigKind = sigEd25519 then
    match tryBytes 64 drop.signature with
    | some signature =>
      (Crypto.verify prim drop.signer input signature).mapError fun _ => .verify
    | none => .error .verify
  else if drop.sigKind = sigHybrid then
    if h : drop.signature.length < 64 ∨ drop.mlDsaKey.isEmpty then .error .verify
    else do
      let ed25519 : Bytes 64 := bytesOf (drop.signature.take 64) (by rw [List.length_take]; omega)
      (verifyMlDsa prim drop.mlDsaKey input (drop.signature.drop 64)).mapError .crypto
      (Crypto.verify prim drop.signer input ed25519).mapError fun _ => .verify
  else .error .verify

/-- `SignedDrop::body`. -/
def SignedDrop.body (drop : SignedDrop) : Except CoreError DropBody :=
  DropBody.fromCanonical drop.payload

/-! ## Decoding -/

/-- What `encode_envelope` gives for the fields of an envelope. -/
def SignedDrop.encode (drop : SignedDrop) : List UInt8 :=
  encodeEnvelope drop.suite drop.sigKind drop.signer drop.mlDsaKey drop.payload drop.signature

theorem length_encodeEnvelope_le (suite sigKind : UInt8) (signer : Bytes 32)
    (mlDsaKey payload signature : List UInt8) :
    (encodeEnvelope suite sigKind signer mlDsaKey payload signature).length ≤
      95 + mlDsaKey.length + payload.length + signature.length := by
  simp only [encodeEnvelope, Encoder.array, Encoder.uint, Encoder.bytes, List.length_append,
    List.Vector.toList_length]
  have harray := Decoder.length_head_le majorArray (Encoder.lenU64 6)
  have hsuite := Decoder.length_head_le majorUint suite.toUInt64
  have hkind := Decoder.length_head_le majorUint sigKind.toUInt64
  have hbytes := fun n => Decoder.length_head_le majorBytes (Encoder.lenU64 n)
  have hsigner := hbytes 32
  have hkey := hbytes mlDsaKey.length
  have hpayload := hbytes payload.length
  have hsignature := hbytes signature.length
  omega

theorem Decoder.exact_envelope (raw : List UInt8) :
    Exact (envelope raw) (fun drop => drop.raw = raw) SignedDrop.encode := by
  refine (exact_arity (by decide) _
    (Exact.field SignedDrop.suite (exact_uint8 _) fun _ =>
    Exact.field SignedDrop.sigKind (exact_uint8 _) fun _ =>
    Exact.field SignedDrop.signer (exact_bytesFixed 32) fun _ =>
    Exact.field SignedDrop.mlDsaKey exact_bytes fun _ =>
    Exact.field SignedDrop.payload exact_bytes fun _ =>
    Exact.field SignedDrop.signature exact_bytes fun _ =>
    (Exact.pure _).congr (fun _ _ => rfl) fun drop _ => ?_)).congr (fun drop _ => ?_)
      fun _ _ => Iff.rfl
  · cases drop
    simp only [SignedDrop.mk.injEq]
    tauto
  · simp only [SignedDrop.encode, encodeEnvelope, List.append_assoc, List.append_nil]

/-- An input decodes to an envelope exactly when it is the encoding of its fields. -/
theorem decode_ok_iff {s : List UInt8} (hs : s.length < 2 ^ 64) {drop : SignedDrop} :
    SignedDrop.decode s = .ok drop ↔ drop.raw = s ∧ s = drop.encode :=
  Decoder.runAll_ok_iff (Decoder.exact_envelope s) hs

/-- A decoded envelope keeps the bytes it was decoded from. -/
theorem raw_of_decode {s : List UInt8} {drop : SignedDrop} (h : SignedDrop.decode s = .ok drop) :
    drop.raw = s := by
  have hrun : (do let a ← Decoder.envelope s; Decoder.finish; pure a : Decoder SignedDrop) ⟨s, 0⟩ =
      (.ok drop, _) := Prod.ext h rfl
  obtain ⟨drop', c, henvelope, hfinish⟩ := Reader.bind_ok_iff.mp hrun
  obtain ⟨_, _, -, hpure⟩ := Reader.bind_ok_iff.mp hfinish
  obtain ⟨rfl, -⟩ := Reader.pure_ok_iff.mp hpure
  unfold Decoder.envelope at henvelope
  obtain ⟨_, _, -, h1⟩ := Reader.bind_ok_iff.mp henvelope
  obtain ⟨_, _, -, h2⟩ := Reader.bind_ok_iff.mp h1
  obtain ⟨_, _, -, h3⟩ := Reader.bind_ok_iff.mp h2
  obtain ⟨_, _, -, h4⟩ := Reader.bind_ok_iff.mp h3
  obtain ⟨_, _, -, h5⟩ := Reader.bind_ok_iff.mp h4
  obtain ⟨_, _, -, h6⟩ := Reader.bind_ok_iff.mp h5
  obtain ⟨_, _, -, h7⟩ := Reader.bind_ok_iff.mp h6
  obtain ⟨_, _, -, h8⟩ := Reader.bind_ok_iff.mp h7
  obtain ⟨rfl, -⟩ := Reader.pure_ok_iff.mp h8
  rfl

/-! ## Verification -/

variable {prim}

theorem verify_ok {pub : Bytes 32} {message : List UInt8} {signature : Bytes 64} :
    Crypto.verify prim pub message signature = .ok () ↔
      prim.ed25519Verify pub message signature = true := by
  unfold Crypto.verify
  split <;> simp_all

theorem verify_ok_iff_of_ed25519 {drop : SignedDrop} (hkind : drop.sigKind = sigEd25519) :
    drop.verify prim = .ok () ↔ ∃ ed25519 : Bytes 64, drop.signature = ed25519.toList ∧
      prim.ed25519Verify drop.signer (signingInput drop.payload) ed25519 = true := by
  unfold SignedDrop.verify
  rw [if_pos hkind]
  cases h : tryBytes 64 drop.signature with
  | none =>
    refine iff_of_false nofun ?_
    rintro ⟨ed25519, hsig, -⟩
    exact tryBytes_eq_none_iff.mp h (hsig ▸ ed25519.toList_length)
  | some signature =>
    have hsig := tryBytes_eq_some_iff.mp h
    simp only [mapError_ok_iff, verify_ok]
    constructor
    · intro hok
      exact ⟨signature, hsig, hok⟩
    · rintro ⟨ed25519, hsig', hok⟩
      obtain rfl : signature = ed25519 := Subtype.ext (hsig.symm.trans hsig')
      exact hok

theorem verify_ok_iff_of_hybrid {drop : SignedDrop} (hkind : drop.sigKind = sigHybrid) :
    drop.verify prim = .ok () ↔ drop.mlDsaKey ≠ [] ∧ ∃ (ed25519 : Bytes 64) (mlDsa : List UInt8),
      drop.signature = ed25519.toList ++ mlDsa ∧
      verifyMlDsa prim drop.mlDsaKey (signingInput drop.payload) mlDsa = .ok () ∧
      prim.ed25519Verify drop.signer (signingInput drop.payload) ed25519 = true := by
  unfold SignedDrop.verify
  rw [if_neg (by rw [hkind]; decide), if_pos hkind]
  by_cases h : drop.signature.length < 64 ∨ drop.mlDsaKey.isEmpty
  · rw [dif_pos h]
    refine iff_of_false nofun ?_
    rintro ⟨hkey, ed25519, mlDsa, hsig, -⟩
    rcases h with hlen | hempty
    · rw [hsig, List.length_append, ed25519.toList_length] at hlen
      omega
    · exact hkey (List.isEmpty_iff.mp hempty)
  · rw [dif_neg h]
    have hlen : (drop.signature.take 64).length = 64 := by
      rw [List.length_take]
      omega
    simp only [bind_ok_iff, mapError_ok_iff, verify_ok]
    constructor
    · rintro ⟨u, hml, hed⟩
      refine ⟨fun hkey => h (Or.inr (List.isEmpty_iff.mpr hkey)), bytesOf _ hlen, _, ?_, hml, hed⟩
      rw [toList_bytesOf, List.take_append_drop]
    · rintro ⟨-, ed25519, mlDsa, hsig, hml, hed⟩
      have htake : drop.signature.take 64 = ed25519.toList := by
        rw [hsig, List.take_left' ed25519.toList_length]
      have hdrop : drop.signature.drop 64 = mlDsa := by
        rw [hsig, List.drop_left' ed25519.toList_length]
      refine ⟨(), by rwa [hdrop], ?_⟩
      rwa [show bytesOf (drop.signature.take 64) hlen = ed25519 from Subtype.ext htake]

/-- **What `verify` accepts**: an Ed25519 signature and nothing else, or an Ed25519 signature
followed by an ML-DSA signature under the key the envelope carries. -/
theorem verify_ok_iff {drop : SignedDrop} :
    drop.verify prim = .ok () ↔
      (drop.sigKind = sigEd25519 ∧ ∃ ed25519 : Bytes 64, drop.signature = ed25519.toList ∧
        prim.ed25519Verify drop.signer (signingInput drop.payload) ed25519 = true) ∨
      (drop.sigKind = sigHybrid ∧ drop.mlDsaKey ≠ [] ∧ ∃ (ed25519 : Bytes 64) (mlDsa : List UInt8),
        drop.signature = ed25519.toList ++ mlDsa ∧
        verifyMlDsa prim drop.mlDsaKey (signingInput drop.payload) mlDsa = .ok () ∧
        prim.ed25519Verify drop.signer (signingInput drop.payload) ed25519 = true) := by
  by_cases h1 : drop.sigKind = sigEd25519
  · have hne : drop.sigKind ≠ sigHybrid := by
      rw [h1]
      decide
    rw [verify_ok_iff_of_ed25519 h1]
    constructor
    · intro h
      exact Or.inl ⟨h1, h⟩
    · rintro (⟨-, h⟩ | ⟨h2, -⟩)
      · exact h
      · exact absurd h2 hne
  by_cases h2 : drop.sigKind = sigHybrid
  · rw [verify_ok_iff_of_hybrid h2]
    constructor
    · intro h
      exact Or.inr ⟨h2, h⟩
    · rintro (⟨h, -⟩ | ⟨-, h⟩)
      · exact absurd h h1
      · exact h
  · unfold SignedDrop.verify
    rw [if_neg h1, if_neg h2]
    refine iff_of_false nofun ?_
    rintro (⟨h, -⟩ | ⟨h, -⟩)
    · exact h1 h
    · exact h2 h

/-! ## Signing -/

variable (prim) in
/-- What the code relies on: signatures verify under the key of their signer, and an encoded
ML-DSA key is not empty. -/
structure SignatureLaws : Prop where
  ed25519_verify_sign : ∀ secret message,
    prim.ed25519Verify (prim.ed25519Public secret) message (prim.ed25519Sign secret message) = true
  mlDsa_verify_sign : ∀ seed message signature, prim.mlDsaSign seed message = some signature →
    verifyMlDsa prim (prim.mlDsaPublic seed) message signature = .ok ()
  mlDsaPublic_ne_nil : ∀ seed, prim.mlDsaPublic seed ≠ []

/-- A hybrid envelope is its fields, with the two signatures over the payload one after the
other. -/
theorem signHybrid_ok_iff {identity : Identity} {mlDsa : MlDsaKeypair} {body : DropBody}
    {drop : SignedDrop} :
    SignedDrop.signHybrid prim identity mlDsa body = .ok drop ↔
      ∃ mlDsaSignature, prim.mlDsaSign mlDsa.seed (signingInput body.toCanonical) =
          some mlDsaSignature ∧
        drop = .ofFields body.suite sigHybrid (identity.signingPublic prim)
          (mlDsa.verifyingKeyBytes prim) body.toCanonical
          ((identity.sign prim (signingInput body.toCanonical)).toList ++ mlDsaSignature) := by
  unfold SignedDrop.signHybrid MlDsaKeypair.sign
  cases h : prim.mlDsaSign mlDsa.seed (signingInput body.toCanonical) with
  | none => simp [h]
  | some signature =>
    simp only [h, Except.ok.injEq, Option.some.injEq]
    constructor
    · rintro rfl
      exact ⟨signature, rfl, rfl⟩
    · rintro ⟨_, rfl, rfl⟩
      rfl

end Keepstone.Core
