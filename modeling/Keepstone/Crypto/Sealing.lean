import Keepstone.Crypto.Keys
import Keepstone.Lib.Except

/-!
# Key derivation, sealed keys and chunked encryption
(`crates/crypto/src/{aead,kdf,sealed,hybrid,stream}.rs`)

Every call that draws randomness takes what was drawn as an argument: the ephemeral secret and
the nonce of a seal, the encapsulation randomness, the nonce prefix of a stream. Clearing of
secrets (`zeroize`) has no effect on a result and is not modelled.
-/

namespace Keepstone.Crypto

open Keepstone.Lib

variable (prim : Primitives)

/-! ## `aead.rs` and `kdf.rs` -/

/-- `aead::seal`. -/
def aeadSeal (key : Bytes 32) (nonce : Bytes 24) (aad plaintext : List UInt8) :
    Except CryptoError (List UInt8) :=
  match prim.aeadEncrypt key nonce aad plaintext with
  | some ciphertext => .ok ciphertext
  | none => .error .encrypt

/-- `aead::open`. -/
def aeadOpen (key : Bytes 32) (nonce : Bytes 24) (aad ciphertext : List UInt8) :
    Except CryptoError (List UInt8) :=
  match prim.aeadDecrypt key nonce aad ciphertext with
  | some plaintext => .ok plaintext
  | none => .error .decrypt

/-- `DEFAULT_SALT`. -/
def defaultSalt : List UInt8 := utf8 "keepstone/v1"
/-- `INFO_CHUNK_KEY`. -/
def infoChunkKey : List UInt8 := utf8 "keepstone/v1/chunk-key"
/-- `INFO_SEAL_KEY`. -/
def infoSealKey : List UInt8 := utf8 "keepstone/v1/seal-key"
/-- `INFO_TAG`. -/
def infoTag : List UInt8 := utf8 "keepstone/v1/tag"

/-- `derive_key32`. -/
def deriveKey32 (ikm salt info : List UInt8) : Except CryptoError (Bytes 32) :=
  match prim.hkdfExpand ikm salt info 32 with
  | some key => .ok key
  | none => .error .invalidKeyLength

/-- `derive_chunk_key`. -/
def deriveChunkKey (contentKey : Bytes 32) (index : UInt32) : Except CryptoError (Bytes 32) :=
  deriveKey32 prim contentKey.toList defaultSalt (infoChunkKey ++ beBytes 4 index.toNat)

/-- `derive_tag`. -/
def deriveTag (recipientPublic : Bytes 32) (dropNonce : Bytes 16) :
    Except CryptoError (Bytes 8) := do
  let key ← deriveKey32 prim recipientPublic.toList defaultSalt (infoTag ++ dropNonce.toList)
  pure (takeBytes 8 key (by decide))

/-! ## `sealed.rs` -/

/-- `SEAL_AAD`. -/
def sealAad : List UInt8 := utf8 "keepstone/v1/sealed"

/-- `SealedKey`. -/
structure SealedKey where
  /-- Sender's ephemeral X25519 public key. -/
  ephemeralPublic : Bytes 32
  /-- Nonce of the wrapping AEAD. -/
  nonce : Bytes 24
  /-- AEAD ciphertext of the content key. -/
  ciphertext : List UInt8
  deriving DecidableEq

/-- A decrypted content key, which must have 32 bytes. -/
def contentKeyOf (plaintext : List UInt8) : Except CryptoError (Bytes 32) :=
  match tryBytes 32 plaintext with
  | some key => .ok key
  | none => .error .invalidKeyLength

/-- `SealedKey::seal` with the drawn ephemeral secret and nonce. -/
def SealedKey.seal (contentKey recipient ephemeral : Bytes 32) (nonce : Bytes 24) :
    Except CryptoError SealedKey := do
  let shared := prim.x25519 ephemeral recipient
  let wrapKey ← deriveKey32 prim shared.toList defaultSalt infoSealKey
  let ciphertext ← aeadSeal prim wrapKey nonce sealAad contentKey.toList
  pure ⟨prim.x25519Public ephemeral, nonce, ciphertext⟩

/-- `SealedKey::open`. -/
def SealedKey.open (sealed : SealedKey) (recipientSecret : Bytes 32) :
    Except CryptoError (Bytes 32) := do
  let shared := prim.x25519 recipientSecret sealed.ephemeralPublic
  if shared.toList.all (· = 0) then throw .invalidPublicKey
  let wrapKey ← deriveKey32 prim shared.toList defaultSalt infoSealKey
  let plaintext ← aeadOpen prim wrapKey sealed.nonce sealAad sealed.ciphertext
  contentKeyOf plaintext

/-! ## `hybrid.rs` -/

/-- `HYBRID_CONTEXT`. -/
def hybridContext : List UInt8 := utf8 "keepstone/v1/hybrid-seal"

/-- `HybridKeypair`: the X25519 secret and the ML-KEM seed. -/
structure HybridKeypair where
  /-- X25519 secret. -/
  x25519 : Bytes 32
  /-- ML-KEM-768 seed. -/
  kem : Bytes 64
  deriving DecidableEq

/-- `HybridPublic`. -/
structure HybridPublic where
  /-- X25519 public key. -/
  x25519 : Bytes 32
  /-- ML-KEM-768 encapsulation key bytes. -/
  kem : List UInt8
  deriving DecidableEq

/-- `HybridSealed`. -/
structure HybridSealed where
  /-- Ephemeral X25519 public key. -/
  ephemeralX25519 : Bytes 32
  /-- ML-KEM-768 ciphertext bytes. -/
  kemCiphertext : List UInt8
  /-- AEAD nonce. -/
  nonce : Bytes 24
  /-- AEAD ciphertext of the content key. -/
  ciphertext : List UInt8
  deriving DecidableEq

/-- `mix`. -/
def mix (shared kemShared : Bytes 32) : Except CryptoError (Bytes 32) :=
  deriveKey32 prim (shared.toList ++ kemShared.toList) hybridContext infoSealKey

/-- `HybridKeypair::from_secret_bytes`. -/
def HybridKeypair.fromSecretBytes (bytes : Bytes 96) : Except CryptoError HybridKeypair :=
  let kem : Bytes 64 :=
    bytesOf (bytes.toList.drop 32) (by rw [List.length_drop, bytes.toList_length])
  if prim.mlKemSeedOk kem then .ok ⟨takeBytes 32 bytes (by decide), kem⟩
  else .error .invalidKeyLength

/-- `HybridKeypair::to_secret_bytes`. -/
def HybridKeypair.toSecretBytes (keypair : HybridKeypair) : Bytes 96 :=
  appendBytes keypair.x25519 keypair.kem

/-- `HybridKeypair::public`. -/
def HybridKeypair.public (keypair : HybridKeypair) : HybridPublic :=
  ⟨prim.x25519Public keypair.x25519, prim.mlKemPublic keypair.kem⟩

/-- `HybridKeypair::open`. -/
def HybridKeypair.open (keypair : HybridKeypair) (sealed : HybridSealed) :
    Except CryptoError (Bytes 32) := do
  let shared := prim.x25519 keypair.x25519 sealed.ephemeralX25519
  let kemShared ← match prim.mlKemDecapsulate keypair.kem sealed.kemCiphertext with
    | some kemShared => pure kemShared
    | none => throw .decrypt
  let key ← mix prim shared kemShared
  let plaintext ← aeadOpen prim key sealed.nonce hybridContext sealed.ciphertext
  contentKeyOf plaintext

/-- `hybrid::seal` with the drawn ephemeral secret, encapsulation randomness and nonce. -/
def hybridSeal (contentKey : Bytes 32) (recipient : HybridPublic) (ephemeral kemRandom : Bytes 32)
    (nonce : Bytes 24) : Except CryptoError HybridSealed := do
  let shared := prim.x25519 ephemeral recipient.x25519
  let (kemCiphertext, kemShared) ← match prim.mlKemEncapsulate recipient.kem kemRandom with
    | some r => pure r
    | none => throw .invalidPublicKey
  let key ← mix prim shared kemShared
  let ciphertext ← aeadSeal prim key nonce hybridContext contentKey.toList
  pure ⟨prim.x25519Public ephemeral, kemCiphertext, nonce, ciphertext⟩

/-! ## `stream.rs` -/

/-- `DEFAULT_CHUNK_SIZE`. -/
def defaultChunkSize : Nat := 64 * 1024

/-- `AAD_DOMAIN`. -/
def aadDomain : List UInt8 := utf8 "keepstone/v1/chunk"

/-- `Framing`. -/
structure Framing where
  /-- Nonce prefix shared by all chunks of a drop. -/
  noncePrefix : Bytes 20
  /-- Total number of chunks. -/
  total : UInt32
  deriving DecidableEq

/-- `chunk_nonce`. -/
def chunkNonce (noncePrefix : Bytes 20) (index : UInt32) : Bytes 24 :=
  appendBytes noncePrefix (bytesOf (beBytes 4 index.toNat) (length_beBytes ..))

/-- `chunk_aad`. -/
def chunkAad (index total : UInt32) : List UInt8 :=
  aadDomain ++ beBytes 4 total.toNat ++ beBytes 4 index.toNat

/-- `u32::try_from` on a `usize`, with the error it is mapped to. -/
def u32TryFrom {ε : Type} (e : ε) (n : Nat) : Except ε UInt32 :=
  if n < 2 ^ 32 then .ok (UInt32.ofNat n) else .error e

/-- One turn of the loop of `stream::encrypt`. -/
def encryptTurn (contentKey : Bytes 32) (plaintext : List UInt8) (framing : Framing)
    (index : Nat) : Except CryptoError (List UInt8) := do
  let data := (plaintext.drop (index * defaultChunkSize)).take defaultChunkSize
  let index ← u32TryFrom .invalidKeyLength index
  let key ← deriveChunkKey prim contentKey index
  aeadSeal prim key (chunkNonce framing.noncePrefix index) (chunkAad index framing.total) data

/-- `stream::encrypt` with the drawn prefix. -/
def streamEncrypt (contentKey : Bytes 32) (plaintext : List UInt8) (noncePrefix : Bytes 20) :
    Except CryptoError (Framing × List (List UInt8)) := do
  let total := max ((plaintext.length + (defaultChunkSize - 1)) / defaultChunkSize) 1
  let totalU32 ← u32TryFrom .invalidKeyLength total
  let framing : Framing := ⟨noncePrefix, totalU32⟩
  let chunks ← (List.range total).mapM (encryptTurn prim contentKey plaintext framing)
  pure (framing, chunks)

/-- `decrypt_chunk`. -/
def decryptChunk (contentKey : Bytes 32) (framing : Framing) (index : UInt32)
    (ciphertext : List UInt8) : Except CryptoError (List UInt8) := do
  if framing.total ≤ index then throw .decrypt
  let key ← deriveChunkKey prim contentKey index
  aeadOpen prim key (chunkNonce framing.noncePrefix index) (chunkAad index framing.total) ciphertext

/-- One turn of the loop of `stream::decrypt`: a chunk and its position. -/
def decryptTurn (contentKey : Bytes 32) (framing : Framing) (chunk : List UInt8 × Nat) :
    Except CryptoError (List UInt8) := do
  let index ← u32TryFrom .decrypt chunk.2
  decryptChunk prim contentKey framing index chunk.1

/-- `stream::decrypt`. -/
def streamDecrypt (contentKey : Bytes 32) (framing : Framing) (chunks : List (List UInt8)) :
    Except CryptoError (List UInt8) := do
  check (chunks.length = framing.total.toNat) .decrypt
  let out ← chunks.zipIdx.mapM (decryptTurn prim contentKey framing)
  pure out.flatten

/-! ### When a stream decrypts -/

/-- Every chunk passes the AEAD check under its own key, nonce and associated data. -/
def Authentic (contentKey : Bytes 32) (framing : Framing) (chunks : List (List UInt8)) : Prop :=
  ∀ index (h : index < chunks.length),
    ∃ data, decryptChunk prim contentKey framing (UInt32.ofNat index) chunks[index] = .ok data

variable {prim} {contentKey : Bytes 32} {framing : Framing}

theorem decryptTurn_eq {index : Nat} (h : index < 2 ^ 32) (chunk : List UInt8) :
    decryptTurn prim contentKey framing (chunk, index) =
      decryptChunk prim contentKey framing (UInt32.ofNat index) chunk := by
  unfold decryptTurn u32TryFrom
  rw [if_pos h]
  rfl

/-- A stream of the right number of chunks decrypts exactly when every chunk is authentic. -/
theorem streamDecrypt_ok_iff {chunks : List (List UInt8)}
    (hlen : chunks.length = framing.total.toNat) :
    (∃ plaintext, streamDecrypt prim contentKey framing chunks = .ok plaintext) ↔
      Authentic prim contentKey framing chunks := by
  have hloop : (∃ plaintext, streamDecrypt prim contentKey framing chunks = .ok plaintext) ↔
      ∃ out, chunks.zipIdx.mapM (decryptTurn prim contentKey framing) = .ok out := by
    unfold streamDecrypt
    simp only [bind_ok_iff, pure_ok_iff, check_ok_iff, decide_eq_true_iff]
    constructor
    · rintro ⟨_, _, -, out, hout, -⟩
      exact ⟨out, hout⟩
    · rintro ⟨out, hout⟩
      exact ⟨_, (), hlen, out, hout, rfl⟩
  have hindex : ∀ index < chunks.length, index < 2 ^ 32 := fun index h =>
    h.trans (hlen ▸ framing.total.toNat_lt)
  rw [hloop, exists_mapM_ok_iff]
  constructor
  · intro h index hlt
    rw [← decryptTurn_eq (hindex index hlt)]
    exact h _ (List.mk_mem_zipIdx_iff_getElem?.mpr (List.getElem?_eq_getElem hlt))
  · rintro h ⟨chunk, index⟩ he
    obtain ⟨hlt, rfl⟩ := List.getElem?_eq_some_iff.mp (List.mk_mem_zipIdx_iff_getElem?.mp he)
    rw [decryptTurn_eq (hindex index hlt)]
    exact h index hlt

end Keepstone.Crypto
