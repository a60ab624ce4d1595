import Keepstone.Lib.Bytes
import Mathlib.Tactic.SplitIfs

/-!
# Primitives, identities and signatures (`crates/crypto/src/{error,keys,hybrid_sig,suite}.rs`)

The cryptographic algorithms live in third-party crates. `Primitives` has one field for each
operation the code calls; what a result relies on (a signature verifies under its own key, an
ML-DSA-65 signature has 3309 bytes) is a hypothesis of that result, never part of the record.
Secret keys are the byte strings they are stored as.
-/

namespace Keepstone.Crypto

open Keepstone.Lib

/-- `CryptoError`. -/
inductive CryptoError where
  | invalidKeyLength
  | encrypt
  | decrypt
  | verify
  | invalidPublicKey
  | unsupportedSuite
  deriving Repr, DecidableEq

/-- `Display` for `CryptoError`. -/
def CryptoError.text : CryptoError → String
  | invalidKeyLength => "invalid key length"
  | encrypt => "encryption failed"
  | decrypt => "decryption failed"
  | verify => "signature verification failed"
  | invalidPublicKey => "invalid public key"
  | unsupportedSuite => "unsupported crypto suite"

/-- The third-party operations. -/
structure Primitives where
  /-- `Sha256`. -/
  sha256 : List UInt8 → Bytes 32
  /-- `Hkdf::<Sha256>::new(Some(salt), ikm).expand(info, out)` for `out` of the given length. -/
  hkdfExpand : (ikm salt info : List UInt8) → (len : Nat) → Option (Bytes len)
  /-- `XChaCha20Poly1305::encrypt`: key, nonce, associated data, plaintext. -/
  aeadEncrypt : Bytes 32 → Bytes 24 → List UInt8 → List UInt8 → Option (List UInt8)
  /-- `XChaCha20Poly1305::decrypt`: key, nonce, associated data, ciphertext. -/
  aeadDecrypt : Bytes 32 → Bytes 24 → List UInt8 → List UInt8 → Option (List UInt8)
  /-- The verifying key of an Ed25519 `SigningKey`. -/
  ed25519Public : Bytes 32 → Bytes 32
  /-- Ed25519 signing. -/
  ed25519Sign : Bytes 32 → List UInt8 → Bytes 64
  /-- `VerifyingKey::from_bytes` followed by `verify`. -/
  ed25519Verify : Bytes 32 → List UInt8 → Bytes 64 → Bool
  /-- The public key of an X25519 `StaticSecret`. -/
  x25519Public : Bytes 32 → Bytes 32
  /-- X25519 `diffie_hellman`: secret, public. -/
  x25519 : Bytes 32 → Bytes 32 → Bytes 32
  /-- Whether an ML-DSA-65 seed is accepted. -/
  mlDsaSeedOk : Bytes 32 → Bool
  /-- The encoded ML-DSA-65 verifying key of a seed. -/
  mlDsaPublic : Bytes 32 → List UInt8
  /-- ML-DSA-65 `try_sign`, encoded. -/
  mlDsaSign : Bytes 32 → List UInt8 → Option (List UInt8)
  /-- Whether bytes decode to an ML-DSA-65 verifying key. -/
  mlDsaKeyOk : List UInt8 → Bool
  /-- Whether bytes decode to an ML-DSA-65 signature. -/
  mlDsaSigOk : List UInt8 → Bool
  /-- ML-DSA-65 `verify` on decoded key and signature: key, message, signature. -/
  mlDsaVerify : List UInt8 → List UInt8 → List UInt8 → Bool
  /-- Whether an ML-KEM-768 seed is accepted. -/
  mlKemSeedOk : Bytes 64 → Bool
  /-- The encoded ML-KEM-768 encapsulation key of a seed. -/
  mlKemPublic : Bytes 64 → List UInt8
  /-- ML-KEM-768 encapsulation to an encoded key with the given randomness; `none` if the key
  does not decode. -/
  mlKemEncapsulate : List UInt8 → Bytes 32 → Option (List UInt8 × Bytes 32)
  /-- ML-KEM-768 decapsulation; `none` if the ciphertext has the wrong length. -/
  mlKemDecapsulate : Bytes 64 → List UInt8 → Option (Bytes 32)

/-- `CryptoSuite`. -/
inductive CryptoSuite where
  | classical25519
  | hybrid25519MlKem768
  deriving Repr, DecidableEq

/-- `CryptoSuite::id`. -/
def CryptoSuite.id : CryptoSuite → UInt8
  | classical25519 => 1
  | hybrid25519MlKem768 => 2

/-- `CryptoSuite::from_id`. -/
def CryptoSuite.fromId (id : UInt8) : Except CryptoError CryptoSuite :=
  if id = 1 then .ok classical25519
  else if id = 2 then .ok hybrid25519MlKem768
  else .error .unsupportedSuite

/-- `Identity`: the two secret keys. -/
structure Identity where
  /-- Ed25519 secret. -/
  signing : Bytes 32
  /-- X25519 secret. -/
  ecdh : Bytes 32
  deriving DecidableEq

/-- `MlDsaKeypair`: the seed. -/
structure MlDsaKeypair where
  /-- The 32-byte seed. -/
  seed : Bytes 32
  deriving DecidableEq

section Signatures

variable (prim : Primitives)

/-- `Identity::signing_public`. -/
def Identity.signingPublic (identity : Identity) : Bytes 32 := prim.ed25519Public identity.signing

/-- `Identity::ecdh_public`. -/
def Identity.ecdhPublic (identity : Identity) : Bytes 32 := prim.x25519Public identity.ecdh

/-- `Identity::sign`. -/
def Identity.sign (identity : Identity) (message : List UInt8) : Bytes 64 :=
  prim.ed25519Sign identity.signing message

/-- `keys::verify`. -/
def verify (pub : Bytes 32) (message : List UInt8) (signature : Bytes 64) :
    Except CryptoError Unit :=
  if prim.ed25519Verify pub message signature then .ok () else .error .verify

/-- `MlDsaKeypair::from_seed`. -/
def MlDsaKeypair.fromSeed (seed : Bytes 32) : Except CryptoError MlDsaKeypair :=
  if prim.mlDsaSeedOk seed then .ok ⟨seed⟩ else .error .invalidKeyLength

/-- `MlDsaKeypair::verifying_key_bytes`. -/
def MlDsaKeypair.verifyingKeyBytes (keypair : MlDsaKeypair) : List UInt8 :=
  prim.mlDsaPublic keypair.seed

/-- `MlDsaKeypair::sign`. -/
def MlDsaKeypair.sign (keypair : MlDsaKeypair) (message : List UInt8) :
    Except CryptoError (List UInt8) :=
  match prim.mlDsaSign keypair.seed message with
  | some signature => .ok signature
  | none => .error .encrypt

/-- `verify_ml_dsa`. -/
def verifyMlDsa (key message signature : List UInt8) : Except CryptoError Unit :=
  if !prim.mlDsaKeyOk key then .error .invalidPublicKey
  else if !prim.mlDsaSigOk signature then .error .verify
  else if prim.mlDsaVerify key message signature then .ok ()
  else .error .verify

variable {prim}

theorem verifyMlDsa_ok_iff {key message signature : List UInt8} :
    verifyMlDsa prim key message signature = .ok () ↔
      prim.mlDsaKeyOk key = true ∧ prim.mlDsaSigOk signature = true ∧
        prim.mlDsaVerify key message signature = true := by
  unfold verifyMlDsa
  split_ifs with hkey hsig hverify <;> simp_all

end Signatures

end Keepstone.Crypto
