import Keepstone.Core.KnownAnswers
import Mathlib.Data.Finset.Card

/-!
# Presence certificates (`crates/core/src/presence.rs`)

A claimant asks witnesses to attest that they saw them in a cell. The request has an expiry, but
what a witness signs has none: an attestation repeats the cell, the nonce and the claimant, and
`verify_at` takes the expiry from the copy of the request that the claimant puts into the
certificate.

Results:
* `PresenceRequest.fromCanonical_iff`, `PresenceAttestation.fromCanonical_iff`: the canonical
  encodings are bijections;
* `PresenceCert.verify_ok_iff`: what `verify` accepts;
* **`verifyAt_counts_witnesses`**: what `verify_at` accepts, and that it counts witnesses;
* **`outlived_refused_iff`**: when a certificate on a request is refused.
-/

namespace Keepstone.Core

open Keepstone.Lib Keepstone.Crypto

/-- `PRESENCE_CONTEXT`. -/
def presenceContext : List UInt8 := utf8 "keepstone/v1/presence"

/-- `PresenceRequest`. -/
structure PresenceRequest where
  /-- H3 cell (hex). -/
  cell : String
  /-- Random nonce. -/
  nonce : Bytes 16
  /-- Claimant's Ed25519 public key. -/
  claimant : Bytes 32
  /-- Unix seconds; 0 is no expiry. -/
  expiry : UInt64
  deriving DecidableEq

/-- `PresenceAttestation`. -/
structure PresenceAttestation where
  /-- H3 cell (hex). -/
  cell : String
  /-- The request nonce. -/
  nonce : Bytes 16
  /-- Claimant's Ed25519 public key. -/
  claimant : Bytes 32
  /-- Coarse round-trip-time bucket. -/
  rttBucket : UInt8
  /-- Witness's Unix timestamp. -/
  timestamp : UInt64
  /-- Witness's Ed25519 public key. -/
  witness : Bytes 32
  /-- Witness's signature. -/
  signature : Bytes 64
  deriving DecidableEq

/-- `attestation_input`. -/
def attestationInput (cell : String) (nonce : Bytes 16) (claimant : Bytes 32) (rttBucket : UInt8)
    (timestamp : UInt64) : List UInt8 :=
  presenceContext ++ beBytes 4 (min (utf8 cell).length 0xFFFFFFFF) ++ utf8 cell ++ nonce.toList ++
    claimant.toList ++ [rttBucket] ++ beBytes 8 timestamp.toNat

/-! ## The encodings -/

/-- `PresenceRequest::to_canonical`. -/
def PresenceRequest.toCanonical (request : PresenceRequest) : List UInt8 :=
  Encoder.array 4 ++ Encoder.text request.cell ++ Encoder.bytes request.nonce.toList ++
    Encoder.bytes request.claimant.toList ++ Encoder.uint request.expiry

/-- `PresenceAttestation::to_canonical`. -/
def PresenceAttestation.toCanonical (attestation : PresenceAttestation) : List UInt8 :=
  Encoder.array 7 ++ Encoder.text attestation.cell ++ Encoder.bytes attestation.nonce.toList ++
    Encoder.bytes attestation.claimant.toList ++ Encoder.uint attestation.rttBucket.toUInt64 ++
    Encoder.uint attestation.timestamp ++ Encoder.bytes attestation.witness.toList ++
    Encoder.bytes attestation.signature.toList

namespace Decoder

/-- The fields of `PresenceRequest::from_canonical`, up to `dec.finish()`. -/
def presenceRequest : Decoder PresenceRequest := do
  let arity ← array
  Reader.ensure (arity = 4) (.cbor "presence request arity")
  let cell ← text
  let nonce ← bytesFixed 16
  let claimant ← bytesFixed 32
  let expiry ← uint
  pure ⟨cell, nonce, claimant, expiry⟩

/-- The fields of `PresenceAttestation::from_canonical`, up to `dec.finish()`. -/
def presenceAttestation : Decoder PresenceAttestation := do
  let arity ← array
  Reader.ensure (arity = 7) (.cbor "attestation arity")
  let cell ← text
  let nonce ← bytesFixed 16
  let claimant ← bytesFixed 32
  let rttBucket ← uint8 "rtt"
  let timestamp ← uint
  let witness ← bytesFixed 32
  let signature ← bytesFixed 64
  pure ⟨cell, nonce, claimant, rttBucket, timestamp, witness, signature⟩

theorem exact_presenceRequest :
    Exact presenceRequest (fun _ => True) PresenceRequest.toCanonical := by
  refine (exact_arity (by decide) _
    (Exact.field PresenceRequest.cell exact_text fun _ =>
    Exact.field PresenceRequest.nonce (exact_bytesFixed 16) fun _ =>
    Exact.field PresenceRequest.claimant (exact_bytesFixed 32) fun _ =>
    Exact.field PresenceRequest.expiry exact_uint fun _ =>
    (Exact.pure _).congr (fun _ _ => rfl) fun request _ => ?_)).congr (fun request _ => ?_)
      fun _ _ => Iff.rfl
  · cases request
    simp [and_assoc]
  · simp only [PresenceRequest.toCanonical, List.append_assoc, List.append_nil]

theorem exact_presenceAttestation :
    Exact presenceAttestation (fun _ => True) PresenceAttestation.toCanonical := by
  refine (exact_arity (by decide) _
    (Exact.field PresenceAttestation.cell exact_text fun _ =>
    Exact.field PresenceAttestation.nonce (exact_bytesFixed 16) fun _ =>
    Exact.field PresenceAttestation.claimant (exact_bytesFixed 32) fun _ =>
    Exact.field PresenceAttestation.rttBucket (exact_uint8 _) fun _ =>
    Exact.field PresenceAttestation.timestamp exact_uint fun _ =>
    Exact.field PresenceAttestation.witness (exact_bytesFixed 32) fun _ =>
    Exact.field PresenceAttestation.signature (exact_bytesFixed 64) fun _ =>
    (Exact.pure _).congr (fun _ _ => rfl) fun attestation _ => ?_)).congr (fun attestation _ => ?_)
      fun _ _ => Iff.rfl
  · cases attestation
    simp [and_assoc]
  · simp only [PresenceAttestation.toCanonical, List.append_assoc, List.append_nil]

end Decoder

/-- `PresenceRequest::from_canonical`. -/
def PresenceRequest.fromCanonical (bytes : List UInt8) : Except CoreError PresenceRequest :=
  Decoder.runAll Decoder.presenceRequest bytes

/-- `PresenceAttestation::from_canonical`. -/
def PresenceAttestation.fromCanonical (bytes : List UInt8) : Except CoreError PresenceAttestation :=
  Decoder.runAll Decoder.presenceAttestation bytes

theorem PresenceRequest.fromCanonical_iff {request : PresenceRequest} {s : List UInt8}
    (hs : s.length < 2 ^ 64) : fromCanonical s = .ok request ↔ s = request.toCanonical :=
  (Decoder.runAll_ok_iff Decoder.exact_presenceRequest hs).trans (and_iff_right trivial)

theorem PresenceAttestation.fromCanonical_iff {attestation : PresenceAttestation}
    {s : List UInt8} (hs : s.length < 2 ^ 64) :
    fromCanonical s = .ok attestation ↔ s = attestation.toCanonical :=
  (Decoder.runAll_ok_iff Decoder.exact_presenceAttestation hs).trans (and_iff_right trivial)

/-! ## Certificates -/

/-- `PresenceCert`. -/
structure PresenceCert where
  /-- The request, as the claimant gives it. -/
  request : PresenceRequest
  /-- Witness attestations. -/
  attestations : List PresenceAttestation

section Certificates

variable (prim : Primitives)

/-- `PresenceAttestation::sign`. -/
def PresenceAttestation.sign (witness : Identity) (request : PresenceRequest) (rttBucket : UInt8)
    (timestamp : UInt64) : PresenceAttestation where
  cell := request.cell
  nonce := request.nonce
  claimant := request.claimant
  rttBucket
  timestamp
  witness := witness.signingPublic prim
  signature := witness.sign prim
    (attestationInput request.cell request.nonce request.claimant rttBucket timestamp)

/-- `PresenceAttestation::verify`. -/
def PresenceAttestation.verify (attestation : PresenceAttestation) : Except CoreError Unit :=
  (Crypto.verify prim attestation.witness (attestationInput attestation.cell attestation.nonce
    attestation.claimant attestation.rttBucket attestation.timestamp)
    attestation.signature).mapError fun _ => .verify

/-- The attestation is one on the request. -/
def PresenceAttestation.Matches (attestation : PresenceAttestation) (request : PresenceRequest) :
    Prop :=
  attestation.cell = request.cell ∧ attestation.nonce = request.nonce ∧
    attestation.claimant = request.claimant

instance (attestation : PresenceAttestation) (request : PresenceRequest) :
    Decidable (attestation.Matches request) :=
  inferInstanceAs (Decidable (_ ∧ _ ∧ _))

/-- The loop of `PresenceCert::verify`, with the witnesses seen so far. -/
def checkAttestations (request : PresenceRequest) :
    List (Bytes 32) → List PresenceAttestation → Except CoreError Unit
  | _, [] => .ok ()
  | seen, attestation :: rest => do
    check (attestation.Matches request) (.invalid "attestation does not match request")
    attestation.verify prim
    check (attestation.witness ∉ seen) (.invalid "duplicate witness")
    checkAttestations request (seen ++ [attestation.witness]) rest

/-- `PresenceCert::verify`. -/
def PresenceCert.verify (cert : PresenceCert) (threshold : Nat) : Except CoreError Unit :=
  if cert.attestations.length < threshold ∨ threshold = 0 then
    .error (.invalid "insufficient attestations")
  else checkAttestations prim cert.request [] cert.attestations

/-- `PresenceCert::verify_at`. -/
def PresenceCert.verifyAt (cert : PresenceCert) (threshold : Nat) (now : UInt64) :
    Except CoreError Unit :=
  if cert.request.expiry ≠ 0 ∧ cert.request.expiry < now then
    .error (.invalid "presence request expired")
  else cert.verify prim threshold

/-- `PresenceCert::witness_count`. -/
def PresenceCert.witnessCount (cert : PresenceCert) : Nat := cert.attestations.length

end Certificates

variable {prim : Primitives}

/-! ## What is accepted -/

theorem checkAttestations_ok_iff {request : PresenceRequest} {seen : List (Bytes 32)}
    {attestations : List PresenceAttestation} :
    checkAttestations prim request seen attestations = .ok () ↔
      (∀ a ∈ attestations, a.Matches request ∧ a.verify prim = .ok ()) ∧
        (attestations.map (·.witness)).Nodup ∧ ∀ a ∈ attestations, a.witness ∉ seen := by
  induction attestations generalizing seen with
  | nil => simp [checkAttestations]
  | cons a rest ih =>
    simp only [checkAttestations, bind_ok_iff, check_ok_iff, decide_eq_true_eq, ih,
      List.forall_mem_cons, List.map_cons, List.nodup_cons, List.mem_map, List.mem_append,
      List.mem_singleton]
    constructor
    · rintro ⟨_, hmatches, _, hverify, _, hseen, hrest, hnodup, hrestSeen⟩
      refine ⟨⟨⟨hmatches, hverify⟩, hrest⟩, ⟨?_, hnodup⟩, hseen, ?_⟩
      · rintro ⟨b, hb, hwitness⟩
        exact hrestSeen b hb (Or.inr hwitness)
      · intro b hb hbseen
        exact hrestSeen b hb (Or.inl hbseen)
    · rintro ⟨⟨⟨hmatches, hverify⟩, hrest⟩, ⟨hfresh, hnodup⟩, hseen, hrestSeen⟩
      refine ⟨(), hmatches, (), hverify, (), hseen, hrest, hnodup, ?_⟩
      rintro b hb (hbseen | hwitness)
      · exact hrestSeen b hb hbseen
      · exact hfresh ⟨b, hb, hwitness⟩

/-- **What `verify` accepts**: enough attestations on the request, each validly signed, by
different witnesses. -/
theorem PresenceCert.verify_ok_iff {cert : PresenceCert} {threshold : Nat} :
    cert.verify prim threshold = .ok () ↔
      0 < threshold ∧ threshold ≤ cert.attestations.length ∧
        (∀ a ∈ cert.attestations, a.Matches cert.request ∧ a.verify prim = .ok ()) ∧
        (cert.attestations.map (·.witness)).Nodup := by
  unfold PresenceCert.verify
  by_cases hfew : cert.attestations.length < threshold ∨ threshold = 0
  · rw [if_pos hfew]
    refine iff_of_false nofun ?_
    rintro ⟨hpos, hle, -⟩
    omega
  · rw [if_neg hfew, checkAttestations_ok_iff]
    constructor
    · rintro ⟨hall, hnodup, -⟩
      exact ⟨by omega, by omega, hall, hnodup⟩
    · rintro ⟨-, -, hall, hnodup⟩
      exact ⟨hall, hnodup, fun _ _ => List.not_mem_nil⟩

theorem PresenceCert.verifyAt_ok_iff {cert : PresenceCert} {threshold : Nat} {now : UInt64} :
    cert.verifyAt prim threshold now = .ok () ↔
      ¬ (cert.request.expiry ≠ 0 ∧ cert.request.expiry < now) ∧
        cert.verify prim threshold = .ok () := by
  unfold PresenceCert.verifyAt
  by_cases hexpired : cert.request.expiry ≠ 0 ∧ cert.request.expiry < now
  · rw [if_pos hexpired]
    exact iff_of_false nofun fun h => h.1 hexpired
  · rw [if_neg hexpired, and_iff_right hexpired]

theorem PresenceAttestation.verify_ok_iff {a : PresenceAttestation} :
    a.verify prim = .ok () ↔ prim.ed25519Verify a.witness
      (attestationInput a.cell a.nonce a.claimant a.rttBucket a.timestamp) a.signature = true := by
  rw [PresenceAttestation.verify, mapError_ok_iff, verify_ok]

/-- **What `verify_at` accepts**: a positive threshold that the attestations meet, before the
expiry, each of them on the request and validly signed, by different witnesses. So their order
does not matter, a lower threshold is met too, and `witness_count` counts witnesses. -/
theorem verifyAt_counts_witnesses (prim : Primitives) :
    (∀ (cert : PresenceCert) (threshold : Nat) (now : UInt64),
      cert.verifyAt prim threshold now = .ok () ↔
        1 ≤ threshold ∧ (cert.request.expiry = 0 ∨ now ≤ cert.request.expiry) ∧
        threshold ≤ cert.attestations.length ∧
        (∀ a ∈ cert.attestations, a.cell = cert.request.cell ∧ a.nonce = cert.request.nonce ∧
          a.claimant = cert.request.claimant ∧ prim.ed25519Verify a.witness
            (attestationInput a.cell a.nonce a.claimant a.rttBucket a.timestamp) a.signature =
              true) ∧
        cert.attestations.Pairwise fun a b => a.witness ≠ b.witness) ∧
    (∀ (request : PresenceRequest) (as bs : List PresenceAttestation) (threshold : Nat)
      (now : UInt64), as.Perm bs →
      (PresenceCert.verifyAt prim ⟨request, as⟩ threshold now = .ok () ↔
        PresenceCert.verifyAt prim ⟨request, bs⟩ threshold now = .ok ())) ∧
    (∀ (cert : PresenceCert) (threshold lower : Nat) (now : UInt64),
      cert.verifyAt prim threshold now = .ok () → 1 ≤ lower → lower ≤ threshold →
        cert.verifyAt prim lower now = .ok ()) ∧
    ∀ (cert : PresenceCert) (threshold : Nat) (now : UInt64),
      cert.verifyAt prim threshold now = .ok () →
        cert.witnessCount = (cert.attestations.map (·.witness)).toFinset.card := by
  refine ⟨fun cert threshold now => ?_, fun request as bs threshold now hperm => ?_, ?_, ?_⟩
  · have hexpiry : ¬ (cert.request.expiry ≠ 0 ∧ cert.request.expiry < now) ↔
        cert.request.expiry = 0 ∨ now ≤ cert.request.expiry := by
      rw [not_and_or, not_not, UInt64.not_lt]
    rw [PresenceCert.verifyAt_ok_iff, PresenceCert.verify_ok_iff, hexpiry, List.Nodup,
      List.pairwise_map]
    simp only [PresenceAttestation.verify_ok_iff, PresenceAttestation.Matches, and_assoc]
    exact and_left_comm
  · have hall : (∀ a ∈ as, a.Matches request ∧ a.verify prim = .ok ()) ↔
        ∀ a ∈ bs, a.Matches request ∧ a.verify prim = .ok () :=
      forall_congr' fun a => by rw [hperm.mem_iff]
    rw [PresenceCert.verifyAt_ok_iff, PresenceCert.verifyAt_ok_iff, PresenceCert.verify_ok_iff,
      PresenceCert.verify_ok_iff, hall, hperm.length_eq,
      (hperm.map PresenceAttestation.witness).nodup_iff]
  · intro cert threshold lower now haccepted hpos hle
    obtain ⟨hfresh, hverify⟩ := PresenceCert.verifyAt_ok_iff.mp haccepted
    obtain ⟨-, hmet, hall, hdistinct⟩ := PresenceCert.verify_ok_iff.mp hverify
    exact PresenceCert.verifyAt_ok_iff.mpr ⟨hfresh,
      PresenceCert.verify_ok_iff.mpr ⟨hpos, hle.trans hmet, hall, hdistinct⟩⟩
  · intro cert threshold now haccepted
    obtain ⟨-, hverify⟩ := PresenceCert.verifyAt_ok_iff.mp haccepted
    obtain ⟨-, -, -, hdistinct⟩ := PresenceCert.verify_ok_iff.mp hverify
    rw [List.toFinset_card_of_nodup hdistinct, List.length_map]
    rfl

/-! ## Certificates on a request -/

/-- The attestation is one a witness signed on the request. -/
def PresenceAttestation.SignedOn (prim : Primitives) (request : PresenceRequest)
    (attestation : PresenceAttestation) : Prop :=
  ∃ witness rttBucket timestamp, attestation = .sign prim witness request rttBucket timestamp

theorem PresenceAttestation.SignedOn.verify (hlaws : SignatureLaws prim)
    {request : PresenceRequest} {attestation : PresenceAttestation}
    (h : attestation.SignedOn prim request) : attestation.verify prim = .ok () := by
  obtain ⟨witness, rttBucket, timestamp, rfl⟩ := h
  rw [PresenceAttestation.verify, mapError_ok_iff, verify_ok]
  exact hlaws.ed25519_verify_sign _ _

/-- The two requests differ in what a witness signs. -/
def PresenceRequest.Differs (r r' : PresenceRequest) : Prop :=
  r.cell ≠ r'.cell ∨ r.nonce ≠ r'.nonce ∨ r.claimant ≠ r'.claimant

instance (r r' : PresenceRequest) : Decidable (r.Differs r') :=
  inferInstanceAs (Decidable (_ ∨ _ ∨ _))

theorem PresenceAttestation.SignedOn.matches_iff {r r' : PresenceRequest}
    {attestation : PresenceAttestation} (h : attestation.SignedOn prim r) :
    attestation.Matches r' ↔ ¬ r.Differs r' := by
  obtain ⟨witness, rttBucket, timestamp, rfl⟩ := h
  simp only [PresenceAttestation.Matches, PresenceAttestation.sign, PresenceRequest.Differs,
    not_or, not_not]

/-- **When a certificate of attestations on `r` is refused.** The expiry of `r` is not among the
reasons: only that of the request the claimant put into the certificate is. -/
theorem outlived_refused_iff (hlaws : SignatureLaws prim) {r : PresenceRequest}
    {cert : PresenceCert} (hsigned : ∀ a ∈ cert.attestations, a.SignedOn prim r)
    (threshold : Nat) (now : UInt64) :
    (∃ e, cert.verifyAt prim threshold now = .error e) ↔
      (cert.request.expiry ≠ 0 ∧ cert.request.expiry < now) ∨
        threshold = 0 ∨ cert.attestations.length < threshold ∨
        (cert.attestations ≠ [] ∧ r.Differs cert.request) ∨
        ¬ (cert.attestations.map (·.witness)).Nodup := by
  have hall : (∀ a ∈ cert.attestations, a.Matches cert.request ∧ a.verify prim = .ok ()) ↔
      cert.attestations ≠ [] → ¬ r.Differs cert.request := by
    constructor
    · intro h hne
      obtain ⟨a, ha⟩ := List.exists_mem_of_ne_nil _ hne
      exact (hsigned a ha).matches_iff.mp (h a ha).1
    · intro h a ha
      exact ⟨(hsigned a ha).matches_iff.mpr (h (List.ne_nil_of_mem ha)),
        (hsigned a ha).verify hlaws⟩
  rw [exists_error_iff, Ne, PresenceCert.verifyAt_ok_iff, not_and_or, not_not,
    PresenceCert.verify_ok_iff, hall]
  refine or_congr Iff.rfl ?_
  simp only [not_and_or, not_not, not_lt, not_le, Classical.not_imp, Nat.le_zero]

/-- The request of a claimant, good until 1000. -/
def KnownAnswers.request : PresenceRequest where
  cell := "8928308280fffff"
  nonce := List.Vector.replicate 16 3
  claimant := List.Vector.replicate 32 2
  expiry := 1000

/-- The author's attestation on it. -/
def KnownAnswers.attestation : PresenceAttestation :=
  .sign KnownAnswers.primitives KnownAnswers.author KnownAnswers.request 1 900

/-- The recipient's attestation on it. -/
def KnownAnswers.secondAttestation : PresenceAttestation :=
  .sign KnownAnswers.primitives KnownAnswers.recipient KnownAnswers.request 2 950

/-- Two witnesses are enough for two, in either order, and for one. -/
theorem known_certificate_counts :
    let cert : PresenceCert :=
      ⟨KnownAnswers.request, [KnownAnswers.attestation, KnownAnswers.secondAttestation]⟩
    cert.verifyAt KnownAnswers.primitives 2 960 = .ok () ∧
      PresenceCert.verifyAt KnownAnswers.primitives
        ⟨KnownAnswers.request, [KnownAnswers.secondAttestation, KnownAnswers.attestation]⟩ 2 960 =
          .ok () ∧
      cert.verifyAt KnownAnswers.primitives 1 960 = .ok () ∧
      cert.witnessCount = (cert.attestations.map (·.witness)).toFinset.card := by
  intro cert
  obtain ⟨-, hperm, hlower, hcount⟩ := verifyAt_counts_witnesses KnownAnswers.primitives
  have haccepted : cert.verifyAt KnownAnswers.primitives 2 960 = .ok () := by decide +kernel
  refine ⟨haccepted, ?_, hlower cert 2 1 960 haccepted (by decide) (by decide),
    hcount cert 2 960 haccepted⟩
  exact (hperm _ _ _ 2 960 (List.Perm.swap _ _ _)).mp haccepted

/-- The certificate with the request as it was made is refused after its expiry. -/
theorem known_certificate_expires :
    ∃ e, PresenceCert.verifyAt KnownAnswers.primitives
      ⟨KnownAnswers.request, [KnownAnswers.attestation]⟩ 1 2000 = .error e := by
  refine (outlived_refused_iff KnownAnswers.laws (r := KnownAnswers.request) ?_ 1 2000).mpr
    (Or.inl (by decide +kernel))
  intro a ha
  obtain rfl := List.mem_singleton.mp ha
  exact ⟨_, _, _, rfl⟩

/-- The same attestation under a request without an expiry is accepted after the expiry. -/
theorem known_certificate_outlives :
    KnownAnswers.request.expiry ≠ 0 ∧ KnownAnswers.request.expiry < 2000 ∧
      KnownAnswers.attestation.SignedOn KnownAnswers.primitives KnownAnswers.request ∧
      PresenceCert.verifyAt KnownAnswers.primitives
        ⟨{ KnownAnswers.request with expiry := 0 }, [KnownAnswers.attestation]⟩ 1 2000 = .ok () := by
  refine ⟨by decide, by decide, ⟨_, _, _, rfl⟩, ?_⟩
  decide +kernel

end Keepstone.Core
