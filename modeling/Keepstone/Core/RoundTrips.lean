import Keepstone.Core.Presence
import Keepstone.Log.Sth

/-!
# Encoding and decoding on the way (`crates/core/src/presence.rs`, `crates/log/src/sth.rs`)

Requests, attestations and tree heads are encoded and decoded each time they are handed on. What is
verified in the end is the object that was sent, however often that happened, since each encoding is
undone by its decoder.

Results:
* `hops_eq`: handing on what its decoder reads back changes nothing;
* **`encodings_bijective`**: the three encodings are bijections, and verification is the same after
  any number of hops.
-/

namespace Keepstone.Core

open Keepstone.Lib Keepstone.Crypto

/-! ## Hops -/

section Hops

variable {ε α : Type} (encode : α → List UInt8) (decode : List UInt8 → Except ε α)

/-- What arrives after an object has been encoded and decoded a number of times. -/
def hops : Nat → α → Except ε α
  | 0, a => .ok a
  | n + 1, a => do
    let a ← hops n a
    decode (encode a)

variable {encode decode}

theorem hops_eq {a : α} (h : decode (encode a) = .ok a) (n : Nat) :
    hops encode decode n a = .ok a := by
  induction n with
  | zero => rfl
  | succ n ih => rw [hops, ih, bind_ok_iff]; exact ⟨a, rfl, h⟩

end Hops

/-- A request after a number of hops. -/
def PresenceRequest.hops : Nat → PresenceRequest → Except CoreError PresenceRequest :=
  Core.hops PresenceRequest.toCanonical PresenceRequest.fromCanonical

/-- An attestation after a number of hops. -/
def PresenceAttestation.hops : Nat → PresenceAttestation → Except CoreError PresenceAttestation :=
  Core.hops PresenceAttestation.toCanonical PresenceAttestation.fromCanonical

/-- A certificate whose request and attestations have come over a number of hops. -/
def PresenceCert.hops (n : Nat) (cert : PresenceCert) : Except CoreError PresenceCert := do
  let request ← cert.request.hops n
  let attestations ← cert.attestations.mapM (PresenceAttestation.hops n)
  pure ⟨request, attestations⟩

/-- A byte string that fits into memory. -/
def Fitting (bytes : List UInt8) : Prop := bytes.length < 2 ^ 64

instance (bytes : List UInt8) : Decidable (Fitting bytes) := inferInstanceAs (Decidable (_ < _))

theorem PresenceRequest.hops_eq {request : PresenceRequest} (h : Fitting request.toCanonical)
    (n : Nat) : request.hops n = .ok request :=
  Core.hops_eq ((PresenceRequest.fromCanonical_iff h).mpr rfl) n

theorem PresenceAttestation.hops_eq {attestation : PresenceAttestation}
    (h : Fitting attestation.toCanonical) (n : Nat) : attestation.hops n = .ok attestation :=
  Core.hops_eq ((PresenceAttestation.fromCanonical_iff h).mpr rfl) n

theorem PresenceCert.hops_eq {cert : PresenceCert} (hrequest : Fitting cert.request.toCanonical)
    (hattestations : ∀ a ∈ cert.attestations, Fitting a.toCanonical) (n : Nat) :
    cert.hops n = .ok cert := by
  have hmap : cert.attestations.mapM (PresenceAttestation.hops n) = .ok cert.attestations := by
    rw [mapM_ok_iff, List.forall₂_same]
    exact fun a ha => PresenceAttestation.hops_eq (hattestations a ha) n
  rw [PresenceCert.hops, PresenceRequest.hops_eq hrequest, hmap]
  rfl

/-- **The encodings are bijections**: a request or an attestation is decoded from the byte string
that it is encoded as and from no other, and tree heads and arrays of 144 bytes correspond one to
one. So verification gives the same after any number of hops. -/
theorem encodings_bijective (prim : Primitives) :
    (∀ (r : PresenceRequest) (s : List UInt8), Fitting s →
      (PresenceRequest.fromCanonical s = .ok r ↔ s = r.toCanonical)) ∧
    (∀ (a : PresenceAttestation) (s : List UInt8), Fitting s →
      (PresenceAttestation.fromCanonical s = .ok a ↔ s = a.toCanonical)) ∧
    Function.LeftInverse Log.SignedTreeHead.fromBytes Log.SignedTreeHead.toBytes ∧
    Function.RightInverse Log.SignedTreeHead.fromBytes Log.SignedTreeHead.toBytes ∧
    (∀ (n : Nat) (a : PresenceAttestation), Fitting a.toCanonical →
      (a.hops n >>= fun a => a.verify prim) = a.verify prim) ∧
    (∀ (n : Nat) (cert : PresenceCert) (threshold : Nat) (now : UInt64),
      Fitting cert.request.toCanonical → (∀ a ∈ cert.attestations, Fitting a.toCanonical) →
      (cert.hops n >>= fun cert => cert.verifyAt prim threshold now) =
        cert.verifyAt prim threshold now) ∧
    ∀ (n : Nat) (sth : Log.SignedTreeHead),
      ((Log.SignedTreeHead.fromBytes ∘ Log.SignedTreeHead.toBytes)^[n] sth).verify prim =
        sth.verify prim := by
  refine ⟨fun r s hs => PresenceRequest.fromCanonical_iff hs,
    fun a s hs => PresenceAttestation.fromCanonical_iff hs,
    Log.SignedTreeHead.fromBytes_toBytes, Log.SignedTreeHead.toBytes_fromBytes, ?_, ?_, ?_⟩
  · intro n a ha
    rw [PresenceAttestation.hops_eq ha]
    rfl
  · intro n cert threshold now hrequest hattestations
    rw [PresenceCert.hops_eq hrequest hattestations]
    rfl
  · intro n sth
    have hid : Log.SignedTreeHead.fromBytes ∘ Log.SignedTreeHead.toBytes = id :=
      funext Log.SignedTreeHead.fromBytes_toBytes
    rw [hid, Function.iterate_id]
    rfl

/-- The known certificate, with its attestation handed on three times. -/
theorem known_certificate_handed_on :
    let attestation := KnownAnswers.attestation
    PresenceRequest.fromCanonical KnownAnswers.request.toCanonical = .ok KnownAnswers.request ∧
      PresenceAttestation.fromCanonical attestation.toCanonical = .ok attestation ∧
      (attestation.hops 3 >>= fun a => a.verify KnownAnswers.primitives) = .ok () ∧
      (PresenceCert.hops 3 ⟨KnownAnswers.request, [attestation]⟩ >>= fun cert =>
        cert.verifyAt KnownAnswers.primitives 1 960) = .ok () := by
  intro attestation
  obtain ⟨hrequest, hattestation, -, -, hhops, hcert, -⟩ :=
    encodings_bijective KnownAnswers.primitives
  have hsmall : Fitting attestation.toCanonical := by decide +kernel
  refine ⟨(hrequest _ _ (by decide +kernel)).mpr rfl, (hattestation _ _ hsmall).mpr rfl,
    (hhops 3 attestation hsmall).trans (by decide +kernel), ?_⟩
  refine (hcert 3 ⟨KnownAnswers.request, [attestation]⟩ 1 960 (by decide +kernel) ?_).trans
    (by decide +kernel)
  intro a ha
  obtain rfl := List.mem_singleton.mp ha
  exact hsmall

end Keepstone.Core
