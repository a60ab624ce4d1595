import Keepstone.Core.KnownAnswers

/-!
# What a signed envelope guarantees, and what it does not

Results:
* **`signed_envelope_round_trip`**: what `sign` and `sign_hybrid` produce decodes to itself,
  verifies and carries the body, and whatever decodes re-encodes to the same bytes;
* **`envelope_malleable`**: every accepted envelope has an accepted sibling with other bytes,
  because three of its fields are not signed;
* **`hybrid_downgrade`**: every hybrid envelope can be stripped to an accepted Ed25519 one.
-/

namespace Keepstone.Core

open Keepstone.Lib Keepstone.Crypto

variable {prim : Primitives}

/-! ## Transmission -/

/-- An envelope whose bytes encode its fields decodes to itself. -/
theorem decode_raw {drop : SignedDrop} (hraw : drop.raw = drop.encode)
    (hlen : drop.raw.length < 2 ^ 64) : SignedDrop.decode drop.raw = .ok drop :=
  (decode_ok_iff hlen).mpr ⟨rfl, hraw⟩

/-- **A part of an envelope is none.** -/
theorem decode_of_prefix {raw whole : List UInt8} {signed : SignedDrop}
    (hdecode : SignedDrop.decode whole = .ok signed) (hlen : whole.length < 2 ^ 64)
    (hpre : raw <+: whole) (hne : raw ≠ whole) : ∃ e, SignedDrop.decode raw = .error e := by
  cases hpart : SignedDrop.decode raw with
  | error e => exact ⟨e, rfl⟩
  | ok part =>
    have hshort : raw.length < 2 ^ 64 := hpre.length_le.trans_lt hlen
    obtain ⟨hraw, hencoded⟩ := (decode_ok_iff hshort).mp hpart
    obtain ⟨-, hwhole⟩ := (decode_ok_iff hlen).mp hdecode
    have hother : ({ signed with raw := raw } : SignedDrop).encode = signed.encode := rfl
    refine absurd ?_ hne
    rw [hencoded, hwhole, ← hother]
    refine (Decoder.exact_envelope raw).eq_of_isPrefix hraw rfl ?_ ?_
    · rw [hother, ← hencoded, ← hwhole]
      exact hpre
    · rw [hother, ← hwhole]
      exact hlen

theorem sign_raw (identity : Identity) (body : DropBody) :
    (SignedDrop.sign prim identity body).raw = (SignedDrop.sign prim identity body).encode := rfl

theorem payload_length_le (drop : SignedDrop) : drop.payload.length ≤ drop.encode.length := by
  simp only [SignedDrop.encode, encodeEnvelope, Encoder.bytes, List.length_append]
  omega

theorem sign_verify (laws : SignatureLaws prim) (identity : Identity) (body : DropBody) :
    (SignedDrop.sign prim identity body).verify prim = .ok () :=
  verify_ok_iff.mpr (Or.inl ⟨rfl, _, rfl, laws.ed25519_verify_sign identity.signing _⟩)

theorem signHybrid_verify (laws : SignatureLaws prim) {identity : Identity} {mlDsa : MlDsaKeypair}
    {body : DropBody} {drop : SignedDrop}
    (hdrop : SignedDrop.signHybrid prim identity mlDsa body = .ok drop) :
    drop.verify prim = .ok () := by
  obtain ⟨mlDsaSignature, hsign, rfl⟩ := signHybrid_ok_iff.mp hdrop
  exact verify_ok_iff.mpr (Or.inr ⟨rfl, laws.mlDsaPublic_ne_nil _, _, _, rfl,
    laws.mlDsa_verify_sign _ _ _ hsign, laws.ed25519_verify_sign identity.signing _⟩)

variable (prim) in
/-- Decoding the transmitted bytes gives the envelope back field for field; it verifies, has the
same id and carries `body`. -/
def SurvivesTransmission (drop : SignedDrop) (body : DropBody) : Prop :=
  ∃ received, SignedDrop.decode drop.raw = .ok received ∧ received = drop ∧
    received.verify prim = .ok () ∧ received.id prim = drop.id prim ∧ received.body = .ok body

/-- The payload of an envelope that carries a body decodes to it. -/
theorem body_of_payload {drop : SignedDrop} {body : DropBody}
    (hpayload : drop.payload = body.toCanonical) (hlen : drop.encode.length < 2 ^ 64) :
    drop.body = .ok body := by
  have hpayloadLen : drop.payload.length < 2 ^ 64 := (payload_length_le drop).trans_lt hlen
  exact (Decoder.runAll_ok_iff Decoder.exact_dropBody hpayloadLen).mpr ⟨trivial, hpayload⟩

theorem survives_of_verify {drop : SignedDrop} {body : DropBody} (hraw : drop.raw = drop.encode)
    (hpayload : drop.payload = body.toCanonical) (hverify : drop.verify prim = .ok ())
    (hlen : drop.raw.length < 2 ^ 64) : SurvivesTransmission prim drop body := by
  refine ⟨drop, decode_raw hraw hlen, rfl, hverify, rfl, body_of_payload hpayload ?_⟩
  rwa [← hraw]

/-- **Signed envelopes survive transmission exactly**, of either signature kind; and whatever
decodes is the encoding of its fields. -/
theorem signed_envelope_round_trip (prim : Primitives) (laws : SignatureLaws prim) :
    (∀ identity body, (SignedDrop.sign prim identity body).raw.length < 2 ^ 64 →
      SurvivesTransmission prim (SignedDrop.sign prim identity body) body) ∧
    (∀ identity mlDsa body drop, SignedDrop.signHybrid prim identity mlDsa body = .ok drop →
      drop.raw.length < 2 ^ 64 → SurvivesTransmission prim drop body) ∧
    (∀ (s : List UInt8) e, s.length < 2 ^ 64 → SignedDrop.decode s = .ok e →
      encodeEnvelope e.suite e.sigKind e.signer e.mlDsaKey e.payload e.signature = s ∧
        e.raw = s) := by
  refine ⟨fun identity body hlen => ?_, fun identity mlDsa body drop hdrop hlen => ?_,
    fun s e hlen hdec => ?_⟩
  · exact survives_of_verify (sign_raw identity body) rfl (sign_verify laws identity body) hlen
  · have hverify := signHybrid_verify laws hdrop
    obtain ⟨_, -, rfl⟩ := signHybrid_ok_iff.mp hdrop
    exact survives_of_verify rfl rfl hverify hlen
  · obtain ⟨hraw, henc⟩ := (decode_ok_iff hlen).mp hdec
    exact ⟨henc.symm, hraw⟩

theorem known_drops_survive :
    SurvivesTransmission KnownAnswers.primitives KnownAnswers.drop KnownAnswers.body ∧
    SurvivesTransmission KnownAnswers.primitives KnownAnswers.hybridDrop
      KnownAnswers.hybridBody := by
  obtain ⟨hsign, hsignHybrid, -⟩ :=
    signed_envelope_round_trip KnownAnswers.primitives KnownAnswers.laws
  refine ⟨hsign KnownAnswers.author KnownAnswers.body ?_,
    hsignHybrid _ _ _ _ KnownAnswers.signHybrid_eq KnownAnswers.length_hybridDrop_lt⟩
  exact KnownAnswers.length_drop ▸ (by decide)

/-! ## What the signature does not cover -/

/-- An envelope with another suite byte. -/
def SignedDrop.withSuite (drop : SignedDrop) (suite : UInt8) : SignedDrop :=
  .ofFields suite drop.sigKind drop.signer drop.mlDsaKey drop.payload drop.signature

theorem withSuite_raw (drop : SignedDrop) (suite : UInt8) :
    (drop.withSuite suite).raw = (drop.withSuite suite).encode := rfl

/-- The suite byte is not signed. -/
theorem withSuite_signed (drop : SignedDrop) (suite : UInt8) :
    (drop.withSuite suite).signer = drop.signer ∧ (drop.withSuite suite).payload = drop.payload ∧
      (drop.withSuite suite).signature = drop.signature := ⟨rfl, rfl, rfl⟩

theorem withSuite_verify (drop : SignedDrop) (suite : UInt8) :
    (drop.withSuite suite).verify prim = drop.verify prim := rfl

theorem length_withSuite_le (drop : SignedDrop) {suite : UInt8} (hsuite : suite ≤ 1) :
    (drop.withSuite suite).raw.length ≤ drop.encode.length := by
  have hshort : (Encoder.uint suite.toUInt64).length = 1 := by
    have hle : suite.toNat ≤ 1 := UInt8.le_iff_toNat_le.mp hsuite
    rw [Encoder.uint, Decoder.head_eq, List.length_cons, length_beBytes, UInt8.toNat_toUInt64]
    have := Decoder.head_forms suite.toNat
    omega
  have hlong : 1 ≤ (Encoder.uint drop.suite.toUInt64).length := by
    rw [Encoder.uint, Decoder.head_eq, List.length_cons]
    omega
  simp only [SignedDrop.withSuite, SignedDrop.ofFields, SignedDrop.encode, encodeEnvelope,
    List.length_append]
  omega

/-- **Every accepted envelope has an accepted sibling**: same signer, same payload, same
signature, other bytes. Among accepted envelopes that agree in those three, the bytes are the same
exactly when the unsigned fields are. -/
theorem envelope_malleable (prim : Primitives) (b : List UInt8) (drop : SignedDrop)
    (hb : b.length < 2 ^ 64) (hdec : SignedDrop.decode b = .ok drop)
    (hverify : drop.verify prim = .ok ()) :
    (∃ b' drop', b'.length < 2 ^ 64 ∧ SignedDrop.decode b' = .ok drop' ∧
      drop'.verify prim = .ok () ∧ drop'.signer = drop.signer ∧ drop'.payload = drop.payload ∧
      drop'.signature = drop.signature ∧ b' ≠ b) ∧
    (∀ b' drop', b'.length < 2 ^ 64 → SignedDrop.decode b' = .ok drop' →
      drop'.verify prim = .ok () → drop'.signer = drop.signer → drop'.payload = drop.payload →
      drop'.signature = drop.signature →
      (b' = b ↔ drop'.suite = drop.suite ∧ drop'.sigKind = drop.sigKind ∧
        drop'.mlDsaKey = drop.mlDsaKey)) := by
  obtain ⟨hraw, henc⟩ := (decode_ok_iff hb).mp hdec
  constructor
  · -- flip the suite byte between 0 and 1
    obtain ⟨suite, hsuite, hne⟩ : ∃ suite : UInt8, suite ≤ 1 ∧ suite ≠ drop.suite := by
      by_cases h0 : drop.suite = 0
      · exact ⟨1, by decide, by rw [h0]; decide⟩
      · exact ⟨0, by decide, fun h => h0 h.symm⟩
    have hlen : (drop.withSuite suite).raw.length < 2 ^ 64 := by
      have := length_withSuite_le drop hsuite
      rw [← henc] at this
      omega
    have hdec' := decode_raw (withSuite_raw drop suite) hlen
    obtain ⟨hsigner, hpayload, hsignature⟩ := withSuite_signed drop suite
    refine ⟨_, _, hlen, hdec', hverify, hsigner, hpayload, hsignature, ?_⟩
    rintro rfl
    exact hne (congrArg SignedDrop.suite (Except.ok.inj (hdec'.symm.trans hdec)))
  · intro b' drop' hb' hdec' hverify' hsigner hpayload hsignature
    obtain ⟨hraw', henc'⟩ := (decode_ok_iff hb').mp hdec'
    constructor
    · rintro rfl
      obtain rfl := Except.ok.inj (hdec'.symm.trans hdec)
      exact ⟨rfl, rfl, rfl⟩
    · rintro ⟨hsuite, hkind, hkey⟩
      rw [henc', henc, SignedDrop.encode, SignedDrop.encode, hsuite, hkind, hkey, hsigner,
        hpayload, hsignature]

/-- The known drop, as signed: its bytes decode to it, it verifies and carries the body. -/
theorem known_drop_accepted : SignedDrop.decode KnownAnswers.drop.raw = .ok KnownAnswers.drop ∧
    KnownAnswers.drop.verify KnownAnswers.primitives = .ok () ∧
    KnownAnswers.drop.body = .ok KnownAnswers.body := by
  have hlen : KnownAnswers.drop.raw.length < 2 ^ 64 := KnownAnswers.length_drop ▸ (by decide)
  have hraw : KnownAnswers.drop.raw = KnownAnswers.drop.encode := sign_raw _ _
  exact ⟨decode_raw hraw hlen,
    sign_verify KnownAnswers.laws KnownAnswers.author KnownAnswers.body,
    body_of_payload rfl (hraw ▸ hlen)⟩

theorem known_drop_work :
    KnownAnswers.body.powOk KnownAnswers.primitives KnownAnswers.drop.signer = true := by
  decide +kernel

theorem known_drop_has_sibling : ∃ b' drop', SignedDrop.decode b' = .ok drop' ∧
    drop'.verify KnownAnswers.primitives = .ok () ∧
    drop'.payload = KnownAnswers.drop.payload ∧ b' ≠ KnownAnswers.drop.raw := by
  obtain ⟨⟨b', drop', -, hdec, hverify, -, hpayload, -, hne⟩, -⟩ :=
    envelope_malleable KnownAnswers.primitives KnownAnswers.drop.raw KnownAnswers.drop
      (KnownAnswers.length_drop ▸ (by decide)) known_drop_accepted.1 known_drop_accepted.2.1
  exact ⟨b', drop', hdec, hverify, hpayload, hne⟩

/-- The known drop and its envelope marked with another suite have different hashes. -/
theorem known_sibling_hash :
    KnownAnswers.primitives.sha256 (KnownAnswers.drop.withSuite 0).raw ≠
      KnownAnswers.primitives.sha256 KnownAnswers.drop.raw := by
  decide +kernel

/-- The known drop under suite byte 0 is accepted as well, with another id. -/
theorem known_drop_under_suite_zero :
    let b := KnownAnswers.drop.raw
    let drop' := KnownAnswers.drop.withSuite 0
    SignedDrop.decode b = .ok KnownAnswers.drop ∧
    KnownAnswers.drop.verify KnownAnswers.primitives = .ok () ∧
    SignedDrop.decode drop'.raw = .ok drop' ∧ drop'.verify KnownAnswers.primitives = .ok () ∧
    drop'.signer = KnownAnswers.drop.signer ∧ drop'.payload = KnownAnswers.drop.payload ∧
    drop'.signature = KnownAnswers.drop.signature ∧ b ≠ drop'.raw ∧
    KnownAnswers.drop.id KnownAnswers.primitives ≠ drop'.id KnownAnswers.primitives := by
  obtain ⟨hdec, hverify, -⟩ := known_drop_accepted
  have hlen : (KnownAnswers.drop.withSuite 0).raw.length < 2 ^ 64 := by decide +kernel
  obtain ⟨hsigner, hpayload, hsignature⟩ := withSuite_signed KnownAnswers.drop 0
  refine ⟨hdec, hverify, decode_raw (withSuite_raw KnownAnswers.drop 0) hlen,
    (withSuite_verify KnownAnswers.drop 0).trans hverify, hsigner, hpayload, hsignature, ?_, ?_⟩
  · exact fun heq => known_sibling_hash (congrArg KnownAnswers.primitives.sha256 heq.symm)
  · exact fun heq => known_sibling_hash (congrArg DropId.bytes heq.symm)

/-! ## Downgrade -/

variable (prim) in
/-- The envelope carries an ML-DSA signature over its payload that verifies under `key`. -/
def CarriesMlDsa (drop : SignedDrop) (key : List UInt8) : Prop :=
  ∃ (ed25519 : Bytes 64) (mlDsa : List UInt8), drop.signature = ed25519.toList ++ mlDsa ∧
    verifyMlDsa prim key (signingInput drop.payload) mlDsa = .ok ()

/-- The envelope with the ML-DSA half of its signature cut off. -/
def SignedDrop.stripped (drop : SignedDrop) : SignedDrop :=
  .ofFields drop.suite sigEd25519 drop.signer [] drop.payload (drop.signature.take 64)

theorem stripped_raw (drop : SignedDrop) : drop.stripped.raw = drop.stripped.encode := rfl

theorem not_carries_stripped (hsig : ∀ signature, prim.mlDsaSigOk signature = true →
      signature.length = 3309) (drop : SignedDrop) (key : List UInt8) :
    ¬ CarriesMlDsa prim drop.stripped key := by
  rintro ⟨ed25519, mlDsa, hsignature, hverify⟩
  have hlen := congrArg List.length hsignature
  have htake : drop.stripped.signature.length = min 64 drop.signature.length := List.length_take ..
  rw [htake, List.length_append, ed25519.toList_length] at hlen
  have hmlDsa := hsig mlDsa (verifyMlDsa_ok_iff.mp hverify).2.1
  omega

theorem stripped_verify (laws : SignatureLaws prim) {identity : Identity} {mlDsa : MlDsaKeypair}
    {body : DropBody} {drop : SignedDrop}
    (hdrop : SignedDrop.signHybrid prim identity mlDsa body = .ok drop) :
    drop.stripped.verify prim = .ok () := by
  obtain ⟨mlDsaSignature, -, rfl⟩ := signHybrid_ok_iff.mp hdrop
  refine verify_ok_iff.mpr (Or.inl ⟨rfl, _, ?_, laws.ed25519_verify_sign identity.signing _⟩)
  exact List.take_left' (List.Vector.toList_length _)

theorem length_stripped_le {drop : SignedDrop} (hkind : drop.sigKind = sigHybrid) :
    drop.stripped.raw.length ≤ drop.encode.length := by
  have hkey : (Encoder.bytes []).length ≤ (Encoder.bytes drop.mlDsaKey).length :=
    Decoder.length_bytes_mono (Nat.zero_le _)
  have hsignature : (Encoder.bytes (drop.signature.take 64)).length ≤
      (Encoder.bytes drop.signature).length :=
    Decoder.length_bytes_mono (List.length_take_le' 64 drop.signature)
  have hkinds : (Encoder.uint sigEd25519.toUInt64).length =
      (Encoder.uint sigHybrid.toUInt64).length := rfl
  simp only [SignedDrop.stripped, SignedDrop.ofFields, SignedDrop.encode, encodeEnvelope,
    List.length_append, hkind, hkinds]
  omega

/-- **Every hybrid envelope can be downgraded**: for every identity, key and body there is an
accepted envelope with the same signer and payload and no ML-DSA signature at all. An accepted
envelope that still names the hybrid kind and the author's ML-DSA key does carry one. -/
theorem hybrid_downgrade (prim : Primitives) (laws : SignatureLaws prim)
    (hsig : ∀ signature, prim.mlDsaSigOk signature = true → signature.length = 3309)
    (identity : Identity) (mlDsa : MlDsaKeypair) (body : DropBody) (drop : SignedDrop)
    (hdrop : SignedDrop.signHybrid prim identity mlDsa body = .ok drop)
    (hlen : drop.raw.length < 2 ^ 64) :
    (∃ s e, s.length < 2 ^ 64 ∧ SignedDrop.decode s = .ok e ∧ e.verify prim = .ok () ∧
      e.signer = drop.signer ∧ e.payload = drop.payload ∧ ¬ CarriesMlDsa prim e drop.mlDsaKey) ∧
    (∀ s e, s.length < 2 ^ 64 → SignedDrop.decode s = .ok e → e.verify prim = .ok () →
      e.sigKind = sigHybrid → e.mlDsaKey = drop.mlDsaKey → CarriesMlDsa prim e drop.mlDsaKey) := by
  constructor
  · have hraw : drop.raw = drop.encode ∧ drop.sigKind = sigHybrid := by
      obtain ⟨_, -, rfl⟩ := signHybrid_ok_iff.mp hdrop
      exact ⟨rfl, rfl⟩
    have hshort : drop.stripped.raw.length < 2 ^ 64 :=
      (length_stripped_le hraw.2).trans_lt (hraw.1 ▸ hlen)
    exact ⟨_, _, hshort, decode_raw (stripped_raw drop) hshort, stripped_verify laws hdrop, rfl,
      rfl, not_carries_stripped hsig drop drop.mlDsaKey⟩
  · intro s e _ _ hverify hkind hkey
    obtain ⟨-, ed25519, mlDsa', hsignature, hmlDsa, -⟩ := (verify_ok_iff_of_hybrid hkind).mp hverify
    exact ⟨ed25519, mlDsa', hsignature, hkey ▸ hmlDsa⟩

theorem known_hybrid_drop_downgrades : ∃ s e, SignedDrop.decode s = .ok e ∧
    e.verify KnownAnswers.primitives = .ok () ∧ e.payload = KnownAnswers.hybridDrop.payload ∧
    ¬ CarriesMlDsa KnownAnswers.primitives e KnownAnswers.hybridDrop.mlDsaKey := by
  obtain ⟨⟨s, e, -, hdec, hverify, -, hpayload, hnot⟩, -⟩ :=
    hybrid_downgrade KnownAnswers.primitives KnownAnswers.laws
      (fun sig => (KnownAnswers.mlDsaSigOk_iff sig).mp) _ _ _ _ KnownAnswers.signHybrid_eq
      KnownAnswers.length_hybridDrop_lt
  exact ⟨s, e, hdec, hverify, hpayload, hnot⟩

/-- The known hybrid drop without the ML-DSA half of its signature is accepted. -/
theorem known_hybrid_drop_stripped :
    let drop := KnownAnswers.hybridDrop
    KnownAnswers.hybridBody.suite = 2 ∧
    SignedDrop.signHybrid KnownAnswers.primitives KnownAnswers.author KnownAnswers.mlDsa
      KnownAnswers.hybridBody = .ok drop ∧
    SignedDrop.decode drop.stripped.raw = .ok drop.stripped ∧
    drop.stripped.verify KnownAnswers.primitives = .ok () ∧
    drop.stripped.signer = drop.signer ∧ drop.stripped.payload = drop.payload ∧
    ¬ CarriesMlDsa KnownAnswers.primitives drop.stripped drop.mlDsaKey := by
  have hlen : KnownAnswers.hybridDrop.stripped.raw.length < 2 ^ 64 :=
    (length_stripped_le rfl).trans_lt KnownAnswers.length_hybridDrop_lt
  exact ⟨rfl, KnownAnswers.signHybrid_eq, decode_raw (stripped_raw _) hlen,
    stripped_verify KnownAnswers.laws KnownAnswers.signHybrid_eq, rfl, rfl,
    not_carries_stripped (fun sig => (KnownAnswers.mlDsaSigOk_iff sig).mp) _ _⟩

end Keepstone.Core
