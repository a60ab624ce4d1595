import Keepstone.Crypto.Stream

/-!
# What is sealed to a key opens with its secret (`crates/crypto/src/{sealed,hybrid}.rs`)

What is relied on is what the algorithms document, said of the keys that meet and not of all keys:
two X25519 secrets agree, an ML-KEM encapsulation decapsulates, and the AEAD opens what it sealed.
Whether a wrong secret could open something as well is not asked here.

`SealedKey::open` refuses a shared secret of all zeros, which `SealedKey::seal` does not look at.
`HybridKeypair::open` does not look at it either.

Results:
* **`open_seal_iff`**: a sealed key opens to the content key unless the shared secret is zero;
* **`open_hybridSeal`**: a hybrid sealed key opens to the content key.
-/

namespace Keepstone.Crypto

open Keepstone.Lib

variable (prim : Primitives)

/-! ## What is relied on -/

/-- Two X25519 secrets find the same shared secret with each other's public key. -/
def Agree (a b : Bytes 32) : Prop :=
  prim.x25519 a (prim.x25519Public b) = prim.x25519 b (prim.x25519Public a)

/-- What is encapsulated to the key of a seed with this randomness, the seed decapsulates. -/
def Decapsulates (seed : Bytes 64) (random : Bytes 32) : Prop :=
  ∀ ciphertext shared, prim.mlKemEncapsulate (prim.mlKemPublic seed) random =
    some (ciphertext, shared) → prim.mlKemDecapsulate seed ciphertext = some shared

/-- The AEAD opens what it sealed. -/
def AeadOpens : Prop :=
  ∀ key nonce aad plaintext ciphertext,
    prim.aeadEncrypt key nonce aad plaintext = some ciphertext →
    prim.aeadDecrypt key nonce aad ciphertext = some plaintext

variable {prim}

/-! ## Opening -/

theorem AeadOpens.open_seal (h : AeadOpens prim) {key : Bytes 32} {nonce : Bytes 24}
    {aad plaintext ciphertext : List UInt8}
    (hsealed : aeadSeal prim key nonce aad plaintext = .ok ciphertext) :
    aeadOpen prim key nonce aad ciphertext = .ok plaintext := by
  unfold aeadSeal at hsealed
  split at hsealed
  case h_1 sealed hencrypt =>
    obtain rfl := Except.ok.inj hsealed
    unfold aeadOpen
    rw [h _ _ _ _ _ hencrypt]
  case h_2 => exact absurd hsealed nofun

theorem AeadOpens.opens (h : AeadOpens prim) {contentKey : Bytes 32} {plaintext : List UInt8}
    {framing : Framing} {index : Nat} {call : SealCall}
    (hcall : ChunkCall prim contentKey plaintext framing index call) : call.Opens prim :=
  h.open_seal hcall.sealed

theorem contentKeyOf_toList (contentKey : Bytes 32) :
    contentKeyOf contentKey.toList = .ok contentKey := by
  unfold contentKeyOf
  rw [tryBytes_eq_some_iff.mpr rfl]

/-- **A sealed key opens with the secret of the key it was sealed to, unless the shared secret is
all zeros.** -/
theorem open_seal_iff (haead : AeadOpens prim) {contentKey secret ephemeral : Bytes 32}
    {nonce : Bytes 24} {sealed : SealedKey} (hagree : Agree prim secret ephemeral)
    (hsealed : SealedKey.seal prim contentKey (prim.x25519Public secret) ephemeral nonce =
      .ok sealed) :
    sealed.open prim secret = .ok contentKey ↔
      (prim.x25519 secret (prim.x25519Public ephemeral)).toList.all (· = 0) = false := by
  unfold SealedKey.seal at hsealed
  simp only [bind_ok_iff, pure_ok_iff] at hsealed
  obtain ⟨wrapKey, hwrap, ciphertext, hcipher, rfl⟩ := hsealed
  rw [← hagree] at hwrap
  unfold SealedKey.open
  cases hzero : (prim.x25519 secret (prim.x25519Public ephemeral)).toList.all (· = 0) with
  | true =>
    simp only [hzero, if_true, reduceCtorEq, iff_false]
    exact nofun
  | false =>
    simp only [hzero, Bool.false_eq_true, if_false, iff_true]
    exact bind_ok_iff.mpr ⟨wrapKey, hwrap,
      bind_ok_iff.mpr ⟨_, haead.open_seal hcipher, contentKeyOf_toList contentKey⟩⟩

/-- **A hybrid sealed key opens with the keypair it was sealed to.** -/
theorem open_hybridSeal (haead : AeadOpens prim) {contentKey ephemeral kemRandom : Bytes 32}
    {nonce : Bytes 24} {keypair : HybridKeypair} {sealed : HybridSealed}
    (hagree : Agree prim keypair.x25519 ephemeral)
    (hkem : Decapsulates prim keypair.kem kemRandom)
    (hsealed : hybridSeal prim contentKey (keypair.public prim) ephemeral kemRandom nonce =
      .ok sealed) :
    keypair.open prim sealed = .ok contentKey := by
  unfold hybridSeal at hsealed
  cases hencapsulate : prim.mlKemEncapsulate (keypair.public prim).kem kemRandom with
  | none =>
    rw [hencapsulate] at hsealed
    exact absurd hsealed nofun
  | some encapsulated =>
    obtain ⟨kemCiphertext, kemShared⟩ := encapsulated
    rw [hencapsulate] at hsealed
    obtain ⟨_, hpair, hsealed⟩ := bind_ok_iff.mp hsealed
    obtain rfl := Except.ok.inj hpair
    simp only [bind_ok_iff, pure_ok_iff] at hsealed
    obtain ⟨key, hkey, ciphertext, hcipher, rfl⟩ := hsealed
    have hkey' : mix prim (prim.x25519 keypair.x25519 (prim.x25519Public ephemeral)) kemShared =
        .ok key := by
      rw [hagree]
      exact hkey
    unfold HybridKeypair.open
    rw [hkem _ _ hencapsulate]
    exact bind_ok_iff.mpr ⟨kemShared, rfl, bind_ok_iff.mpr ⟨key, hkey',
      bind_ok_iff.mpr ⟨_, haead.open_seal hcipher, contentKeyOf_toList contentKey⟩⟩⟩

end Keepstone.Crypto
