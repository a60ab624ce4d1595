import Keepstone.Core.Envelope
import Keepstone.Lib.Sha256

/-!
# One real drop

A drop of one chunk, sealed to one recipient, with the values that Ed25519, X25519, HKDF-SHA256
and XChaCha20-Poly1305 really give for it, and a `Primitives` that returns them. Concrete runs
elsewhere are runs on this drop.

`primitives` computes SHA-256, and looks the other classical algorithms up in the values below.
Off that table it is a stand-in that keeps the documented laws and lengths: a signature verifies
under its signer's key, ML-DSA-65 keys and signatures have 1952 and 3309 bytes, an AEAD rejects.

The chunk exists twice: `chunk` is the author's, whose hash the body commits to, and
`forgedChunk` is another plaintext encrypted under the same content key. `otherChunk` is a content
encrypted under that key and another nonce prefix.
-/

namespace Keepstone.Core.KnownAnswers

open Keepstone.Lib Keepstone.Crypto

/-- An array given as one big-endian number. -/
def be (n value : Nat) : Bytes n := bytesOf (beBytes n value) (length_beBytes ..)

/-! ## Keys -/

/-- The author's Ed25519 secret. -/
def authorSecret : Bytes 32 := List.Vector.replicate 32 1
/-- The author's Ed25519 public key. -/
def authorPublic : Bytes 32 :=
  be 32 0x8a88e3dd7409f195fd52db2d3cba5d72ca6709bf1d94121bf3748801b40f6f5c
/-- The recipient's secrets. -/
def recipient : Identity := ⟨List.Vector.replicate 32 2, List.Vector.replicate 32 3⟩
/-- The recipient's X25519 public key. -/
def recipientPublic : Bytes 32 :=
  be 32 0x5dfedd3b6bd47f6fa28ee15d969d5bb0ea53774d488bdaf9df1c6e0124b3ef22
/-- The content key. -/
def contentKey : Bytes 32 := List.Vector.replicate 32 4
/-- The sender's ephemeral X25519 public key, of the secret `[5; 32]`. -/
def ephemeralPublic : Bytes 32 :=
  be 32 0x50a61409b1ddd0325e9b16b700e719e9772c07000b1bd7786e907c653d20495d
/-- X25519 of the recipient's secret and `ephemeralPublic`. -/
def shared : Bytes 32 :=
  be 32 0x8a7eddf1d2e69d6c895a5e969092dd6be0caa725d435c0244fe33fc2259aa847

/-! ## The drop -/

/-- The author's chunk: `hello`. -/
def chunk : List UInt8 := beBytes 21 0x5b1be4c95e3c099eb2c56359f5bc605ca761cc53e9
/-- A chunk made by someone who knows the content key: `forged`. -/
def forgedChunk : List UInt8 := beBytes 22 0x5511fac2541e9651c7eef89402f27385732cc56472c7

/-- The nonce prefix of another encryption under the content key. -/
def otherPrefix : Bytes 20 := List.Vector.replicate 20 9
/-- Its chunk: `world`. -/
def otherChunk : List UInt8 := beBytes 21 0x155829a4592c3d6ebad96926618969d2967865b192

/-- The content key sealed to the recipient. -/
def sealedKey : SealedKey where
  ephemeralPublic := ephemeralPublic
  nonce := List.Vector.replicate 24 6
  ciphertext := beBytes 48
    0x72b50656c747fd91d0b9c69c551f11e8764d970a586e39b502dca7880a9a2c222dd4102f28691340ed62b5b9378175d2

/-- The signed body. -/
def body : DropBody where
  version := 1
  suite := 1
  cell := "8928308280fffff"
  ring := 2
  createdAt := 1700000000
  expiry := 0
  mode := 0
  chunkSize := 65536
  chunkCount := 1
  contentRoot := be 32 0x797f8671f33d840778b603f79b031732fba711348dd17b2134da7120dd4aba92
  noncePrefix := List.Vector.replicate 20 7
  dropNonce := List.Vector.replicate 16 8
  powNonce := 3820
  wrappedKeys := [⟨be 8 0x075f2e25aea34d85, .classical sealedKey⟩]

/-- The author's Ed25519 signature over the body. -/
def signature : Bytes 64 :=
  be 64 0xadc771dee38e0b945a31612fd6b46af2b5207c9aa7e09d8d0ecba1de758d92be26e1c97b5f20a89af3285ab5bdfae3a6afb1b92a23dbe60d095c3b1174fc1b00

/-! ## The primitives -/

/-- The Ed25519 signature of `message` by the holder of `pub`. -/
def signBy (pub : Bytes 32) (message : List UInt8) : Bytes 64 :=
  if pub = authorPublic ∧ message = signingInput body.toCanonical then signature
  else appendBytes pub (Sha256.digest message)

/-- HKDF-SHA256 outputs: the recipient's tag key, the sealing key and the key of chunk 0. -/
def derivedKeys : List ((List UInt8 × List UInt8) × Nat) :=
  [((recipientPublic.toList, infoTag ++ body.dropNonce.toList),
      0x075f2e25aea34d85ababc824aa994619f243f0708381a1da045a2eab74a909a2),
   ((shared.toList, infoSealKey),
      0x15630cef64784c14ac6d72741c51d51328787f4861fe3ef86887f7722161c79a),
   ((contentKey.toList, infoChunkKey ++ beBytes 4 0),
      0x1a1b285819c3f983b4b4320f538c7a1f78b593b47836f4fb32558eda94ac9a23)]

/-- XChaCha20-Poly1305: key, nonce and associated data with ciphertext and plaintext. -/
def sealings : List ((Bytes 32 × Bytes 24 × List UInt8) × (List UInt8 × List UInt8)) :=
  let chunkKey := be 32 0x1a1b285819c3f983b4b4320f538c7a1f78b593b47836f4fb32558eda94ac9a23
  [((be 32 0x15630cef64784c14ac6d72741c51d51328787f4861fe3ef86887f7722161c79a, sealedKey.nonce,
      sealAad), (sealedKey.ciphertext, contentKey.toList)),
   ((chunkKey, chunkNonce body.noncePrefix 0, chunkAad 0 1), (chunk, utf8 "hello")),
   ((chunkKey, chunkNonce body.noncePrefix 0, chunkAad 0 1), (forgedChunk, utf8 "forged")),
   ((chunkKey, chunkNonce otherPrefix 0, chunkAad 0 1), (otherChunk, utf8 "world"))]

/-- The ML-DSA-65 stand-in's public key: 1952 bytes. -/
def mlDsaKey (seed : Bytes 32) : List UInt8 := seed.toList ++ List.replicate 1920 0

/-- The ML-DSA-65 stand-in's signature: 3309 bytes that depend on the key and the message. -/
def mlDsaBy (key message : List UInt8) : List UInt8 :=
  (Sha256.digest (key ++ message)).toList ++ List.replicate 3277 0

/-- The operations on the inputs of this drop. -/
def primitives : Primitives where
  sha256 := Sha256.digest
  hkdfExpand ikm _ info len :=
    match derivedKeys.lookup (ikm, info) with
    | some key => tryBytes len (beBytes 32 key)
    | none => tryBytes len (Sha256.digest (ikm ++ info)).toList
  aeadEncrypt key nonce aad plaintext :=
    (sealings.find? fun e => e.1 = (key, nonce, aad) ∧ e.2.2 = plaintext).map fun e => e.2.1
  aeadDecrypt key nonce aad ciphertext :=
    (sealings.find? fun e => e.1 = (key, nonce, aad) ∧ e.2.1 = ciphertext).map fun e => e.2.2
  ed25519Public secret := if secret = authorSecret then authorPublic else secret
  ed25519Sign secret message :=
    signBy (if secret = authorSecret then authorPublic else secret) message
  ed25519Verify pub message sig := sig = signBy pub message
  x25519Public secret := if secret = recipient.ecdh then recipientPublic else secret
  x25519 secret pub := if (secret, pub) = (recipient.ecdh, ephemeralPublic) then shared else secret
  mlDsaSeedOk _ := true
  mlDsaPublic := mlDsaKey
  mlDsaSign seed message := some (mlDsaBy (mlDsaKey seed) message)
  mlDsaKeyOk key := key.length = 1952
  mlDsaSigOk sig := sig.length = 3309
  mlDsaVerify key message sig := sig = mlDsaBy key message
  mlKemSeedOk _ := true
  mlKemPublic seed := seed.toList ++ List.replicate 1120 0
  mlKemEncapsulate key random :=
    if key.length = 1184 then
      some (random.toList ++ List.replicate 1056 0,
        Sha256.digest (key ++ random.toList ++ List.replicate 1056 0))
    else none
  mlKemDecapsulate seed ciphertext :=
    if ciphertext.length = 1088 then
      some (Sha256.digest (seed.toList ++ List.replicate 1120 0 ++ ciphertext))
    else none

theorem length_mlDsaKey (seed : Bytes 32) : (mlDsaKey seed).length = 1952 := by
  rw [mlDsaKey, List.length_append, List.Vector.toList_length, List.length_replicate]

theorem length_mlDsaBy (key message : List UInt8) : (mlDsaBy key message).length = 3309 := by
  rw [mlDsaBy, List.length_append, List.Vector.toList_length, List.length_replicate]

theorem mlDsaKeyOk_iff (key : List UInt8) :
    primitives.mlDsaKeyOk key = true ↔ key.length = 1952 := decide_eq_true_iff

theorem mlDsaSigOk_iff (sig : List UInt8) :
    primitives.mlDsaSigOk sig = true ↔ sig.length = 3309 := decide_eq_true_iff

theorem mlDsaVerify_iff (key message sig : List UInt8) :
    primitives.mlDsaVerify key message sig = true ↔ sig = mlDsaBy key message :=
  decide_eq_true_iff

/-- Key derivation always succeeds. -/
theorem exists_hkdfExpand (ikm salt info : List UInt8) :
    ∃ key, primitives.hkdfExpand ikm salt info 32 = some key := by
  simp only [primitives]
  split
  · exact ⟨bytesOf (beBytes 32 _) (length_beBytes ..), tryBytes_eq_some_iff.mpr rfl⟩
  · exact ⟨_, tryBytes_eq_some_iff.mpr rfl⟩

theorem laws : SignatureLaws primitives where
  ed25519_verify_sign secret message := decide_eq_true rfl
  mlDsa_verify_sign seed message sig h := by
    obtain rfl : mlDsaBy (mlDsaKey seed) message = sig := Option.some.inj h
    exact verifyMlDsa_ok_iff.mpr ⟨(mlDsaKeyOk_iff _).mpr (length_mlDsaKey seed),
      (mlDsaSigOk_iff _).mpr (length_mlDsaBy _ message), (mlDsaVerify_iff _ _ _).mpr rfl⟩
  mlDsaPublic_ne_nil seed := by
    intro (h : mlDsaKey seed = [])
    have hlen := length_mlDsaKey seed
    rw [h, List.length_nil] at hlen
    omega

/-! ## The envelopes -/

/-- The author. -/
def author : Identity := ⟨authorSecret, List.Vector.replicate 32 0⟩

/-- The signed drop. -/
def drop : SignedDrop := .sign primitives author body

/-- The author's ML-DSA keypair. -/
def mlDsa : MlDsaKeypair := ⟨List.Vector.replicate 32 9⟩

/-- The body under the hybrid suite. -/
def hybridBody : DropBody := { body with suite := 2 }

/-- The hybrid-signed drop. -/
def hybridDrop : SignedDrop :=
  .ofFields hybridBody.suite sigHybrid (author.signingPublic primitives)
    (mlDsa.verifyingKeyBytes primitives) hybridBody.toCanonical
    ((author.sign primitives (signingInput hybridBody.toCanonical)).toList ++
      mlDsaBy (mlDsaKey mlDsa.seed) (signingInput hybridBody.toCanonical))

theorem signHybrid_eq :
    SignedDrop.signHybrid primitives author mlDsa hybridBody = .ok hybridDrop := by
  refine signHybrid_ok_iff.mpr
    ⟨mlDsaBy (mlDsaKey mlDsa.seed) (signingInput hybridBody.toCanonical), ?_, ?_⟩
  · simp only [primitives]
  · rw [hybridDrop]

theorem length_drop : drop.raw.length = 337 := by decide +kernel

theorem length_hybridDrop_lt : hybridDrop.raw.length < 2 ^ 64 := by
  have hle := length_encodeEnvelope_le hybridDrop.suite hybridDrop.sigKind hybridDrop.signer
    hybridDrop.mlDsaKey hybridDrop.payload hybridDrop.signature
  have hkey : hybridDrop.mlDsaKey.length = 1952 := length_mlDsaKey mlDsa.seed
  have hpayload : hybridDrop.payload.length = 231 := by decide +kernel
  have hsignature : hybridDrop.signature.length = 64 + 3309 := by
    rw [hybridDrop, SignedDrop.ofFields, List.length_append, List.Vector.toList_length,
      length_mlDsaBy]
  exact hle.trans_lt (by omega)

/-! ## The sender's side -/

/-- The sender's ephemeral X25519 secret. -/
def ephemeral : Bytes 32 := List.Vector.replicate 32 5

/-- The AEAD stand-in's ciphertext: the plaintext and 16 bytes that depend on the whole input. -/
def sealBy (key : Bytes 32) (nonce : Bytes 24) (aad plaintext : List UInt8) : List UInt8 :=
  plaintext ++ (Sha256.digest (key.toList ++ nonce.toList ++ aad ++ plaintext)).toList.take 16

/-- The operations with the values of the sender's side: the ephemeral public key, and the shared
secret, which is zero for the public key zero. Off the table, the AEAD is a stand-in with its
length and its round trip. -/
def sending : Primitives :=
  { primitives with
    x25519Public := fun secret =>
      if secret = ephemeral then ephemeralPublic else primitives.x25519Public secret
    x25519 := fun secret pub =>
      if (secret, pub) = (ephemeral, recipientPublic) then shared
      else if pub = List.Vector.replicate 32 0 then List.Vector.replicate 32 0
      else primitives.x25519 secret pub
    aeadEncrypt := fun key nonce aad plaintext =>
      (primitives.aeadEncrypt key nonce aad plaintext).or (some (sealBy key nonce aad plaintext))
    aeadDecrypt := fun key nonce aad ciphertext =>
      let plaintext := ciphertext.take (ciphertext.length - 16)
      (primitives.aeadDecrypt key nonce aad ciphertext).or
        (if sealBy key nonce aad plaintext = ciphertext then some plaintext else none) }

theorem sendingLaws : SignatureLaws sending where
  ed25519_verify_sign := laws.ed25519_verify_sign
  mlDsa_verify_sign := laws.mlDsa_verify_sign
  mlDsaPublic_ne_nil := laws.mlDsaPublic_ne_nil

theorem length_sealings : ∀ e ∈ sealings, e.2.1.length = e.2.2.length + 16 := by decide +kernel

/-- An AEAD ciphertext is 16 bytes longer than its plaintext. -/
theorem length_sending (key : Bytes 32) (nonce : Bytes 24) (aad plaintext ciphertext : List UInt8)
    (h : sending.aeadEncrypt key nonce aad plaintext = some ciphertext) :
    ciphertext.length = plaintext.length + 16 := by
  rcases Option.or_eq_some_iff.mp h with htable | ⟨-, hstandIn⟩
  · obtain ⟨e, hfound, rfl⟩ := Option.map_eq_some_iff.mp htable
    have hmatch := List.find?_some hfound
    simp only [decide_eq_true_eq] at hmatch
    rw [length_sealings e (List.mem_of_find?_eq_some hfound), hmatch.2]
  · obtain rfl := Option.some.inj hstandIn
    rw [sealBy, List.length_append, List.length_take, List.Vector.toList_length]
    omega

theorem exists_deriveKey32 (ikm salt info : List UInt8) :
    ∃ key, deriveKey32 sending ikm salt info = .ok key := by
  obtain ⟨key, hkey⟩ := exists_hkdfExpand ikm salt info
  exact ⟨key, by unfold deriveKey32; exact hkey ▸ rfl⟩

theorem exists_sending (key : Bytes 32) (nonce : Bytes 24) (aad plaintext : List UInt8) :
    ∃ ciphertext, sending.aeadEncrypt key nonce aad plaintext = some ciphertext := by
  refine Option.isSome_iff_exists.mp ?_
  simp only [sending, Option.isSome_or, Option.isSome_some, Bool.or_true]

/-- The table has one plaintext for a ciphertext, and no ciphertext of the stand-in. -/
theorem sealings_plaintext : ∀ e ∈ sealings, ∀ e' ∈ sealings, e.1 = e'.1 → e.2.1 = e'.2.1 →
    e.2.2 = e'.2.2 := by decide +kernel

theorem sealings_ne_sealBy : ∀ e ∈ sealings,
    sealBy e.1.1 e.1.2.1 e.1.2.2 (e.2.1.take (e.2.1.length - 16)) ≠ e.2.1 := by decide +kernel

theorem take_sealBy (key : Bytes 32) (nonce : Bytes 24) (aad plaintext : List UInt8) :
    (sealBy key nonce aad plaintext).take ((sealBy key nonce aad plaintext).length - 16) =
      plaintext := by
  rw [sealBy, List.length_append, List.length_take, List.Vector.toList_length]
  exact List.take_left' (by omega)

/-- An AEAD ciphertext opens to its plaintext. -/
theorem sending_opens {key : Bytes 32} {nonce : Bytes 24} {aad plaintext ciphertext : List UInt8}
    (h : sending.aeadEncrypt key nonce aad plaintext = some ciphertext) :
    sending.aeadDecrypt key nonce aad ciphertext = some plaintext := by
  refine Option.or_eq_some_iff.mpr ?_
  rcases Option.or_eq_some_iff.mp h with htable | ⟨-, hstandIn⟩
  · obtain ⟨e, hfound, rfl⟩ := Option.map_eq_some_iff.mp htable
    have hmatch := List.find?_some hfound
    have hmem := List.mem_of_find?_eq_some hfound
    simp only [decide_eq_true_eq] at hmatch
    obtain ⟨hcall, rfl⟩ := hmatch
    refine .inl (Option.map_eq_some_iff.mpr ?_)
    have hsome : (sealings.find? fun e' =>
        e'.1 = (key, nonce, aad) ∧ e'.2.1 = e.2.1).isSome := by
      rw [List.find?_isSome]
      exact ⟨e, hmem, decide_eq_true ⟨hcall, rfl⟩⟩
    obtain ⟨e', hfound'⟩ := Option.isSome_iff_exists.mp hsome
    have hmatch' := List.find?_some hfound'
    simp only [decide_eq_true_eq] at hmatch'
    refine ⟨e', hfound', ?_⟩
    exact sealings_plaintext e' (List.mem_of_find?_eq_some hfound') e hmem
      (hmatch'.1.trans hcall.symm) hmatch'.2
  · obtain rfl := Option.some.inj hstandIn
    refine .inr ⟨?_, ?_⟩
    · refine Option.map_eq_none_iff.mpr (List.find?_eq_none.mpr fun e he hmatch => ?_)
      simp only [decide_eq_true_eq] at hmatch
      refine sealings_ne_sealBy e he ?_
      rw [hmatch.1, hmatch.2, take_sealBy]
    · rw [take_sealBy, if_pos rfl]

end Keepstone.Core.KnownAnswers
