import Keepstone.Core.Transmission
import Keepstone.Store.Drops

/-!
# Opening a drop (`crates/store/src/lib.rs:543-603, 654-664`)

`openDrop` reads, it changes nothing. Everything before the decryption is `unlockDrop`.

Results:
* `unlockDrop_ok_iff`, `openDrop_ok_iff`: what has to hold for a drop to open;
* `openDrop_accepted_iff`: what is left to hold when its envelope passes the checks;
* **`openDrop_of_replaced`**: whoever knows the content key chooses what is opened;
* `opened_iff`: which directories open only to drops with a property;
* **`openDrop_committed_iff`**: in which directories what is opened is what the author committed
  to. The code never compares the chunks with the content root;
* **`openDrop_recognised_iff`**: in which directories what is opened has a version, a suite and a
  mode that this code knows. The code never compares these either.
-/

namespace Keepstone.Store

open Keepstone.Lib Keepstone.Crypto Keepstone.Core

variable (prim : Primitives)

/-- `Store::read_drop`. -/
def readDrop (dir : Dir) (id : DropId) : Except StoreError (SignedDrop × DropBody) := do
  let raw ← okOr (dir.lookup (.drop id)) (.notFound id.toHex)
  let signed ← (SignedDrop.decode raw).mapError .core
  let body ← signed.body.mapError .core
  pure (signed, body)

/-- The loop of `open_drop` over the wrapped keys: the first entry with our tag that opens.
`loaded` is the hybrid keypair, read from its file when the first hybrid entry asks for it. -/
def findContentKey (dir : Dir) (ourTag : Bytes 8) (ecdhSecret : Bytes 32) :
    Option HybridKeypair → List WrappedKey → Except StoreError (Option (Bytes 32))
  | _, [] => .ok none
  | loaded, wrapped :: rest =>
    if wrapped.tag ≠ ourTag then findContentKey dir ourTag ecdhSecret loaded rest
    else match wrapped.sealed with
      | .classical sealed =>
        match sealed.open prim ecdhSecret with
        | .ok key => .ok (some key)
        | .error _ => findContentKey dir ourTag ecdhSecret loaded rest
      | .hybrid sealed => do
        let keypair ← match loaded with
          | some keypair => pure keypair
          | none => hybrid prim dir
        match keypair.open prim sealed with
        | .ok key => .ok (some key)
        | .error _ => findContentKey dir ourTag ecdhSecret (some keypair) rest

/-- The chunk files `0 .. count` of a drop, in order. -/
def readChunks (dir : Dir) (id : DropId) (count : UInt32) :
    Except StoreError (List (List UInt8)) :=
  (List.range count.toNat).mapM fun index =>
    okOr (dir.lookup (.chunk id index)) (.notFound ("chunk " ++ toString index))

/-- `Store::open_drop` up to the decryption: the signed body, the content key, the chunks. -/
def unlockDrop (dir : Dir) (id : DropId) :
    Except StoreError (DropBody × Bytes 32 × List (List UInt8)) := do
  let identity ← identity dir
  let raw ← okOr (dir.lookup (.drop id)) (.notFound id.toHex)
  let signed ← (SignedDrop.decode raw).mapError .core
  (signed.verify prim).mapError fun _ => .invalid "signature invalid"
  let body ← signed.body.mapError .core
  check (body.powOk prim signed.signer) (.invalid "proof-of-work invalid")
  let ourTag ← (deriveTag prim (identity.ecdhPublic prim) body.dropNonce).mapError .crypto
  let found ← findContentKey prim dir ourTag identity.ecdh none body.wrappedKeys
  let contentKey ← okOr found (.invalid "drop is not addressed to this device")
  let chunks ← readChunks dir id body.chunkCount
  pure (body, contentKey, chunks)

/-- How the chunks of a body are framed. -/
def framingOf (body : DropBody) : Framing := ⟨body.noncePrefix, body.chunkCount⟩

/-- `Store::open_drop`. -/
def openDrop (dir : Dir) (id : DropId) : Except StoreError (List UInt8) := do
  let (body, contentKey, chunks) ← unlockDrop prim dir id
  (streamDecrypt prim contentKey (framingOf body) chunks).mapError fun _ =>
    .invalid "decryption failed"

/-! ## What opens -/

variable {prim}

theorem readDrop_ok_iff {dir : Dir} {id : DropId} {signed : SignedDrop} {body : DropBody} :
    readDrop dir id = .ok (signed, body) ↔
      ∃ raw, dir.lookup (.drop id) = some raw ∧ SignedDrop.decode raw = .ok signed ∧
        signed.body = .ok body := by
  unfold readDrop
  simp only [bind_ok_iff, okOr_ok_iff, mapError_ok_iff, pure_ok_iff, Prod.mk.injEq]
  constructor
  · rintro ⟨raw, hraw, _, hdecode, _, hbody, rfl, rfl⟩
    exact ⟨raw, hraw, hdecode, hbody⟩
  · rintro ⟨raw, hraw, hdecode, hbody⟩
    exact ⟨raw, hraw, signed, hdecode, body, hbody, rfl, rfl⟩

/-- The checks before the decryption, as conditions on the files of the directory. -/
structure Unlocks (prim : Primitives) (dir : Dir) (id : DropId) (signed : SignedDrop)
    (body : DropBody) (contentKey : Bytes 32) (chunks : List (List UInt8)) : Prop where
  /-- The envelope file decodes. -/
  envelope : ∃ raw, dir.lookup (.drop id) = some raw ∧ SignedDrop.decode raw = .ok signed
  /-- Its signature is valid. -/
  verified : signed.verify prim = .ok ()
  /-- Its payload is a body. -/
  decoded : signed.body = .ok body
  /-- The proof of work is valid. -/
  pow : body.powOk prim signed.signer = true
  /-- An entry with our tag gives the content key. -/
  unsealed : ∃ own tag, identity dir = .ok own ∧
    deriveTag prim (own.ecdhPublic prim) body.dropNonce = .ok tag ∧
    findContentKey prim dir tag own.ecdh none body.wrappedKeys = .ok (some contentKey)
  /-- The chunk files are there. -/
  stored : readChunks dir id body.chunkCount = .ok chunks

theorem unlockDrop_ok_iff {dir : Dir} {id : DropId} {body : DropBody} {contentKey : Bytes 32}
    {chunks : List (List UInt8)} :
    unlockDrop prim dir id = .ok (body, contentKey, chunks) ↔
      ∃ signed, Unlocks prim dir id signed body contentKey chunks := by
  unfold unlockDrop
  simp only [bind_ok_iff, mapError_ok_iff, okOr_ok_iff, check_ok_iff, pure_ok_iff, Prod.mk.injEq]
  constructor
  · rintro ⟨own, hown, raw, hraw, signed, hdec, ⟨⟩, hverify, _, hbody, ⟨⟩, hpow, tag, htag, _,
      hfind, _, rfl, _, hchunks, rfl, rfl, rfl⟩
    exact ⟨signed, ⟨raw, hraw, hdec⟩, hverify, hbody, hpow, ⟨own, tag, hown, htag, hfind⟩, hchunks⟩
  · rintro ⟨signed, ⟨raw, hraw, hdec⟩, hverify, hbody, hpow, ⟨own, tag, hown, htag, hfind⟩, hchunks⟩
    exact ⟨own, hown, raw, hraw, signed, hdec, (), hverify, body, hbody, (), hpow, tag, htag, _,
      hfind, contentKey, rfl, chunks, hchunks, rfl, rfl, rfl⟩

/-- Which chunks are read. -/
theorem readChunks_ok_iff {dir : Dir} {id : DropId} {count : UInt32} {chunks : List (List UInt8)} :
    readChunks dir id count = .ok chunks ↔ chunks.length = count.toNat ∧
      ∀ index (hindex : index < chunks.length),
        dir.lookup (.chunk id index) = some chunks[index] := by
  unfold readChunks
  simp only [mapM_ok_iff, List.forall₂_iff_get, List.length_range, List.get_eq_getElem,
    okOr_ok_iff]
  constructor
  · rintro ⟨hlen, h⟩
    refine ⟨hlen.symm, fun index hindex => ?_⟩
    have hlookup := h index (hlen ▸ hindex) hindex
    rwa [List.getElem_range] at hlookup
  · rintro ⟨hlen, h⟩
    refine ⟨hlen.symm, fun index _ hindex => ?_⟩
    rw [List.getElem_range]
    exact h index hindex

theorem length_of_readChunks {dir : Dir} {id : DropId} {count : UInt32}
    {chunks : List (List UInt8)} (h : readChunks dir id count = .ok chunks) :
    chunks.length = count.toNat := (readChunks_ok_iff.mp h).1

theorem openDrop_ok_iff {dir : Dir} {id : DropId} {plaintext : List UInt8} :
    openDrop prim dir id = .ok plaintext ↔
      ∃ signed body contentKey chunks, Unlocks prim dir id signed body contentKey chunks ∧
        streamDecrypt prim contentKey (framingOf body) chunks = .ok plaintext := by
  unfold openDrop
  simp only [bind_ok_iff, Prod.exists, unlockDrop_ok_iff, mapError_ok_iff]
  constructor
  · rintro ⟨body, contentKey, chunks, ⟨signed, hunlocks⟩, hplain⟩
    exact ⟨signed, body, contentKey, chunks, hunlocks, hplain⟩
  · rintro ⟨signed, body, contentKey, chunks, hunlocks, hplain⟩
    exact ⟨body, contentKey, chunks, ⟨signed, hunlocks⟩, hplain⟩

/-- A drop that passes the checks opens to what its chunks decrypt to. -/
theorem Unlocks.openDrop_eq {dir : Dir} {id : DropId} {signed : SignedDrop} {body : DropBody}
    {contentKey : Bytes 32} {chunks : List (List UInt8)}
    (h : Unlocks prim dir id signed body contentKey chunks) :
    openDrop prim dir id = (streamDecrypt prim contentKey (framingOf body) chunks).mapError
      fun _ => .invalid "decryption failed" := by
  unfold openDrop
  rw [unlockDrop_ok_iff.mpr ⟨signed, h⟩]
  rfl

/-- The entries are opened with the keys of the directory, whatever its other files are. -/
theorem findContentKey_congr {dir dir' : Dir} (h : dir'.lookup .hybrid = dir.lookup .hybrid)
    (tag : Bytes 8) (secret : Bytes 32) (loaded : Option HybridKeypair)
    (entries : List WrappedKey) :
    findContentKey prim dir' tag secret loaded entries =
      findContentKey prim dir tag secret loaded entries := by
  have hkeypair : hybrid prim dir' = hybrid prim dir := by
    unfold hybrid readToString
    rw [h]
  induction entries generalizing loaded with
  | nil => rfl
  | cons wrapped rest ih => simp only [findContentKey, hkeypair, ih]

/-- The keys of a directory, whatever its other files are, give the content key of a body. -/
def Unseals (prim : Primitives) (dir : Dir) (body : DropBody) (contentKey : Bytes 32) : Prop :=
  ∃ own tag, identity dir = .ok own ∧
    deriveTag prim (own.ecdhPublic prim) body.dropNonce = .ok tag ∧
    findContentKey prim dir tag own.ecdh none body.wrappedKeys = .ok (some contentKey)

theorem Unseals.of_same_keys {dir dir' : Dir}
    (hidentity : dir'.lookup .identity = dir.lookup .identity)
    (hhybrid : dir'.lookup .hybrid = dir.lookup .hybrid) {body : DropBody} {contentKey : Bytes 32}
    (h : Unseals prim dir body contentKey) : Unseals prim dir' body contentKey := by
  obtain ⟨own, tag, hown, htag, hfind⟩ := h
  refine ⟨own, tag, ?_, htag, (findContentKey_congr hhybrid _ _ _ _).trans hfind⟩
  rw [← hown]
  unfold identity readToString
  rw [hidentity]

/-- **What an envelope that passes its checks opens to.** -/
theorem openDrop_accepted_iff {dir : Dir} {id : DropId} {raw : List UInt8} {signed : SignedDrop}
    {body : DropBody} {plaintext : List UInt8} (hraw : dir.lookup (.drop id) = some raw)
    (hdec : SignedDrop.decode raw = .ok signed) (hverify : signed.verify prim = .ok ())
    (hbody : signed.body = .ok body) (hpow : body.powOk prim signed.signer = true) :
    openDrop prim dir id = .ok plaintext ↔
      ∃ contentKey chunks, Unseals prim dir body contentKey ∧
        readChunks dir id body.chunkCount = .ok chunks ∧
        streamDecrypt prim contentKey (framingOf body) chunks = .ok plaintext := by
  rw [openDrop_ok_iff]
  constructor
  · rintro ⟨signed', body', contentKey, chunks, h, hplain⟩
    obtain ⟨raw', hraw', hdec'⟩ := h.envelope
    obtain rfl := Option.some.inj (hraw.symm.trans hraw')
    obtain rfl := Except.ok.inj (hdec.symm.trans hdec')
    obtain rfl := Except.ok.inj (hbody.symm.trans h.decoded)
    exact ⟨contentKey, chunks, h.unsealed, h.stored, hplain⟩
  · rintro ⟨contentKey, chunks, hkeys, hchunks, hplain⟩
    exact ⟨signed, body, contentKey, chunks,
      ⟨⟨raw, hraw, hdec⟩, hverify, hbody, hpow, hkeys, hchunks⟩, hplain⟩

/-- **Whoever knows the content key chooses what is opened**: if the chunk files of a drop are
replaced by others that decrypt under its key, and all other files stay, the drop opens to the
replaced content. -/
theorem openDrop_of_replaced {dir dir' : Dir} {id : DropId} {signed : SignedDrop}
    {body : DropBody} {contentKey : Bytes 32} {chunks chunks' : List (List UInt8)}
    {plaintext : List UInt8} (h : Unlocks prim dir id signed body contentKey chunks)
    (hother : ∀ file, (∀ index, file ≠ .chunk id index) → dir'.lookup file = dir.lookup file)
    (hchunks : readChunks dir' id body.chunkCount = .ok chunks')
    (hplain : streamDecrypt prim contentKey (framingOf body) chunks' = .ok plaintext) :
    openDrop prim dir' id = .ok plaintext := by
  obtain ⟨raw, hraw, hdec⟩ := h.envelope
  have henvelope : dir'.lookup (.drop id) = some raw := (hother (.drop id) nofun).trans hraw
  have hkeys : Unseals prim dir' body contentKey :=
    Unseals.of_same_keys (hother .identity nofun) (hother .hybrid nofun) h.unsealed
  exact (openDrop_accepted_iff henvelope hdec h.verified h.decoded h.pow).mpr
    ⟨contentKey, chunks', hkeys, hchunks, hplain⟩

/-! ## What is opened -/

/-- A directory has one envelope, one body, one key and one list of chunks under an id. -/
theorem Unlocks.unique {dir : Dir} {id : DropId} {signed signed' : SignedDrop}
    {body body' : DropBody} {contentKey contentKey' : Bytes 32}
    {chunks chunks' : List (List UInt8)}
    (h : Unlocks prim dir id signed body contentKey chunks)
    (h' : Unlocks prim dir id signed' body' contentKey' chunks') :
    signed = signed' ∧ body = body' ∧ contentKey = contentKey' ∧ chunks = chunks' := by
  obtain ⟨raw, hraw, hdec⟩ := h.envelope
  obtain ⟨raw', hraw', hdec'⟩ := h'.envelope
  obtain rfl := Option.some.inj (hraw.symm.trans hraw')
  have hunlocked := unlockDrop_ok_iff.mpr ⟨signed, h⟩
  rw [unlockDrop_ok_iff.mpr ⟨signed', h'⟩, Except.ok.injEq, Prod.mk.injEq, Prod.mk.injEq]
    at hunlocked
  obtain ⟨hbody, hkey, hchunks⟩ := hunlocked
  exact ⟨Except.ok.inj (hdec.symm.trans hdec'), hbody.symm, hkey.symm, hchunks.symm⟩

/-- **Only drops with a property open** exactly when whatever passes the checks before the
decryption has the property, or is no ciphertext under its content key. -/
theorem opened_iff {dir : Dir} {id : DropId}
    {R : SignedDrop → DropBody → List (List UInt8) → Prop} :
    (∀ plaintext, openDrop prim dir id = .ok plaintext →
      ∀ signed body contentKey chunks, Unlocks prim dir id signed body contentKey chunks →
        R signed body chunks) ↔
      ∀ signed body contentKey chunks, Unlocks prim dir id signed body contentKey chunks →
        R signed body chunks ∨ ¬ Authentic prim contentKey (framingOf body) chunks := by
  constructor
  · intro h signed body contentKey chunks hunlocks
    by_cases hauth : Authentic prim contentKey (framingOf body) chunks
    · obtain ⟨plaintext, hplain⟩ :=
        (streamDecrypt_ok_iff (length_of_readChunks hunlocks.stored)).mpr hauth
      have hopen := openDrop_ok_iff.mpr ⟨signed, body, contentKey, chunks, hunlocks, hplain⟩
      exact Or.inl (h plaintext hopen _ _ _ _ hunlocks)
    · exact Or.inr hauth
  · intro h plaintext hopen signed body contentKey chunks hunlocks
    obtain ⟨_, _, _, _, hunlocks', hplain⟩ := openDrop_ok_iff.mp hopen
    obtain ⟨rfl, rfl, rfl, rfl⟩ := hunlocks.unique hunlocks'
    have hauth := (streamDecrypt_ok_iff (length_of_readChunks hunlocks.stored)).mp ⟨plaintext, hplain⟩
    exact (h _ _ _ _ hunlocks).resolve_right (not_not.mpr hauth)

variable (prim) in
/-- The chunk files of `id` hash to the content root of its verified body. -/
def Committed (dir : Dir) (id : DropId) : Prop :=
  ∃ raw signed body chunks, dir.lookup (.drop id) = some raw ∧ SignedDrop.decode raw = .ok signed ∧
    signed.verify prim = .ok () ∧ signed.body = .ok body ∧
    readChunks dir id body.chunkCount = .ok chunks ∧ contentRoot prim chunks = body.contentRoot

/-- A directory has one envelope, one body and one list of chunks under an id. -/
theorem Unlocks.committed_iff {dir : Dir} {id : DropId} {signed : SignedDrop} {body : DropBody}
    {contentKey : Bytes 32} {chunks : List (List UInt8)}
    (h : Unlocks prim dir id signed body contentKey chunks) :
    Committed prim dir id ↔ contentRoot prim chunks = body.contentRoot := by
  obtain ⟨raw, hraw, hdec⟩ := h.envelope
  constructor
  · rintro ⟨raw', signed', body', chunks', hraw', hdec', -, hbody', hchunks', hroot⟩
    obtain rfl := Option.some.inj (hraw.symm.trans hraw')
    obtain rfl := Except.ok.inj (hdec.symm.trans hdec')
    obtain rfl := Except.ok.inj (h.decoded.symm.trans hbody')
    obtain rfl := Except.ok.inj (h.stored.symm.trans hchunks')
    exact hroot
  · intro hroot
    exact ⟨raw, signed, body, chunks, hraw, hdec, h.verified, h.decoded, h.stored, hroot⟩

/-- **What is opened is what the author committed to exactly** in the directories where the
stored chunks hash to the signed content root, or one of them is not a ciphertext under the
content key. Whoever knows that key can make ciphertexts that are, so the AEAD is no substitute
for the comparison. -/
theorem openDrop_committed_iff (prim : Primitives) (dir : Dir) (id : DropId) :
    (∀ plaintext, openDrop prim dir id = .ok plaintext → Committed prim dir id) ↔
      ∀ signed body contentKey chunks, Unlocks prim dir id signed body contentKey chunks →
        contentRoot prim chunks = body.contentRoot ∨
          ¬ Authentic prim contentKey (framingOf body) chunks := by
  rw [← opened_iff]
  constructor
  · intro h plaintext hopen signed body contentKey chunks hunlocks
    exact hunlocks.committed_iff.mp (h plaintext hopen)
  · intro h plaintext hopen
    obtain ⟨signed, body, contentKey, chunks, hunlocks, -⟩ := openDrop_ok_iff.mp hopen
    exact hunlocks.committed_iff.mpr (h plaintext hopen _ _ _ _ hunlocks)

/-- The recipient's directory with the known drop and some chunk under it. -/
def knownDir (id : DropId) (chunk : List UInt8) : Dir :=
  AList.insert (.chunk id 0) chunk
    (AList.insert (.drop id) KnownAnswers.drop.raw
      (AList.insert .identity (textBytes (identityText KnownAnswers.recipient)) ∅))

theorem lookup_knownDir (id : DropId) (chunk : List UInt8) :
    (knownDir id chunk).lookup .identity =
        some (textBytes (identityText KnownAnswers.recipient)) ∧
      (knownDir id chunk).lookup (.drop id) = some KnownAnswers.drop.raw ∧
      (knownDir id chunk).lookup (.chunk id 0) = some chunk := by
  unfold knownDir
  refine ⟨?_, ?_, AList.lookup_insert _⟩
  · rw [AList.lookup_insert_ne (by nofun), AList.lookup_insert_ne (by nofun), AList.lookup_insert]
  · rw [AList.lookup_insert_ne (by nofun), AList.lookup_insert]

/-- A classical entry with our tag that opens ends the loop. -/
theorem findContentKey_classical {dir : Dir} {tag : Bytes 8} {secret contentKey : Bytes 32}
    {sealed : SealedKey} (hopen : sealed.open prim secret = .ok contentKey)
    (loaded : Option HybridKeypair) (rest : List WrappedKey) :
    findContentKey prim dir tag secret loaded (⟨tag, .classical sealed⟩ :: rest) =
      .ok (some contentKey) := by
  unfold findContentKey
  rw [if_neg (not_not.mpr rfl)]
  simp only [hopen]

section Recipient

variable {dir : Dir} {id : DropId} {signed : SignedDrop} {body : DropBody} {raw chunk : List UInt8}

/-- In a directory of the recipient, whose key opens the known entry, any verified body with the
known keys and one chunk passes all checks before the decryption, whatever the chunk is. -/
theorem unlocks_of_opens
    (hopens : KnownAnswers.sealedKey.open prim KnownAnswers.recipient.ecdh =
      .ok KnownAnswers.contentKey)
    (htag : deriveTag prim (KnownAnswers.recipient.ecdhPublic prim) KnownAnswers.body.dropNonce =
      .ok (KnownAnswers.be 8 0x075f2e25aea34d85))
    (hidentity : dir.lookup .identity = some (textBytes (identityText KnownAnswers.recipient)))
    (hraw : dir.lookup (.drop id) = some raw) (hchunk : dir.lookup (.chunk id 0) = some chunk)
    (hdec : SignedDrop.decode raw = .ok signed) (hverify : signed.verify prim = .ok ())
    (hbody : signed.body = .ok body) (hpow : body.powOk prim signed.signer = true)
    (hnonce : body.dropNonce = KnownAnswers.body.dropNonce)
    (hkeys : body.wrappedKeys = KnownAnswers.body.wrappedKeys) (hcount : body.chunkCount = 1) :
    Unlocks prim dir id signed body KnownAnswers.contentKey [chunk] where
  envelope := ⟨raw, hraw, hdec⟩
  verified := hverify
  decoded := hbody
  pow := hpow
  unsealed := by
    refine ⟨KnownAnswers.recipient, KnownAnswers.be 8 0x075f2e25aea34d85,
      identity_saved hidentity, hnonce ▸ htag, ?_⟩
    rw [hkeys]
    exact findContentKey_classical hopens none []
  stored := by
    rw [hcount]
    exact mapM_ok_iff.mpr (List.Forall₂.cons (okOr_ok_iff.mpr hchunk) List.Forall₂.nil)

/-- With the known values the key opens the entry. -/
theorem recipient_unlocks
    (hidentity : dir.lookup .identity = some (textBytes (identityText KnownAnswers.recipient)))
    (hraw : dir.lookup (.drop id) = some raw) (hchunk : dir.lookup (.chunk id 0) = some chunk)
    (hdec : SignedDrop.decode raw = .ok signed)
    (hverify : signed.verify KnownAnswers.primitives = .ok ()) (hbody : signed.body = .ok body)
    (hpow : body.powOk KnownAnswers.primitives signed.signer = true)
    (hnonce : body.dropNonce = KnownAnswers.body.dropNonce)
    (hkeys : body.wrappedKeys = KnownAnswers.body.wrappedKeys) (hcount : body.chunkCount = 1) :
    Unlocks KnownAnswers.primitives dir id signed body KnownAnswers.contentKey [chunk] :=
  unlocks_of_opens (by decide +kernel) (by decide +kernel) hidentity hraw hchunk hdec hverify hbody
    hpow hnonce hkeys hcount

end Recipient

/-- Whatever the chunk is, all checks before the decryption pass. -/
theorem known_unlocks (id : DropId) (chunk : List UInt8) :
    Unlocks KnownAnswers.primitives (knownDir id chunk) id KnownAnswers.drop KnownAnswers.body
      KnownAnswers.contentKey [chunk] := by
  obtain ⟨hdec, hverify, hbody⟩ := known_drop_accepted
  obtain ⟨hidentity, hraw, hchunk⟩ := lookup_knownDir id chunk
  exact recipient_unlocks hidentity hraw hchunk hdec hverify hbody known_drop_work rfl rfl rfl

/-- The author signed `hello`; `forged` opens under the same id and signature. -/
theorem known_drop_opens_forged :
    let id := KnownAnswers.drop.id KnownAnswers.primitives
    let dir := knownDir id KnownAnswers.forgedChunk
    openDrop KnownAnswers.primitives dir id = .ok (utf8 "forged") ∧
    ¬ Committed KnownAnswers.primitives dir id := by
  have hunlocks := known_unlocks (KnownAnswers.drop.id KnownAnswers.primitives)
    KnownAnswers.forgedChunk
  constructor
  · refine openDrop_ok_iff.mpr ⟨_, _, _, _, hunlocks, ?_⟩
    decide +kernel
  · rw [hunlocks.committed_iff]
    decide +kernel

/-! ## Identifiers -/

/-- The version, the suite and the mode are ones this code knows, and the envelope is marked with
the suite of its body. -/
def Recognised (signed : SignedDrop) (body : DropBody) : Prop :=
  body.version = protocolVersion ∧ (∃ suite, CryptoSuite.fromId body.suite = .ok suite) ∧
    (∃ mode, Mode.fromId body.mode = .ok mode) ∧ signed.suite = body.suite

/-- **Unknown identifiers fail closed exactly** in the directories where the stored drop has known
ones, or fails a check of its signature, its work, its keys or its chunks. No check looks at the
identifiers themselves. -/
theorem openDrop_recognised_iff (prim : Primitives) (dir : Dir) (id : DropId) :
    (∀ plaintext, openDrop prim dir id = .ok plaintext →
      ∃ raw signed body, dir.lookup (.drop id) = some raw ∧ SignedDrop.decode raw = .ok signed ∧
        signed.body = .ok body ∧ Recognised signed body) ↔
      ∀ signed body contentKey chunks, Unlocks prim dir id signed body contentKey chunks →
        Recognised signed body ∨ ¬ Authentic prim contentKey (framingOf body) chunks := by
  rw [← opened_iff (R := fun signed body _ => Recognised signed body)]
  refine forall_congr' fun plaintext => forall_congr' fun hopen => ?_
  constructor
  · rintro ⟨raw, signed, body, hraw, hdec, hbody, hknown⟩ signed' body' contentKey chunks hunlocks
    obtain ⟨raw', hraw', hdec'⟩ := hunlocks.envelope
    obtain rfl := Option.some.inj (hraw.symm.trans hraw')
    obtain rfl := Except.ok.inj (hdec.symm.trans hdec')
    obtain rfl := Except.ok.inj (hbody.symm.trans hunlocks.decoded)
    exact hknown
  · intro h
    obtain ⟨signed, body, contentKey, chunks, hunlocks, -⟩ := openDrop_ok_iff.mp hopen
    obtain ⟨raw, hraw, hdec⟩ := hunlocks.envelope
    exact ⟨raw, signed, body, hraw, hdec, hunlocks.decoded, h _ _ _ _ hunlocks⟩

/-- The known body with a version, a suite and a mode that nobody has defined. -/
def unknownBody : DropBody := { KnownAnswers.body with version := 9, suite := 7, mode := 5 }

/-- The author's envelope of it, marked with yet another suite. -/
def unknownDrop : SignedDrop :=
  (SignedDrop.sign KnownAnswers.primitives KnownAnswers.author unknownBody).withSuite 0

/-- The recipient's directory with that envelope and the author's chunk. -/
def unknownDir (id : DropId) : Dir :=
  AList.insert (.drop id) unknownDrop.raw (knownDir id KnownAnswers.chunk)

/-- The unknown drop opens, and none of its identifiers is known. -/
theorem unknown_drop_opens :
    let id := unknownDrop.id KnownAnswers.primitives
    openDrop KnownAnswers.primitives (unknownDir id) id = .ok (utf8 "hello") ∧
      (unknownDir id).lookup (.drop id) = some unknownDrop.raw ∧
      SignedDrop.decode unknownDrop.raw = .ok unknownDrop ∧ unknownDrop.body = .ok unknownBody ∧
      unknownBody.version ≠ protocolVersion ∧
      CryptoSuite.fromId unknownBody.suite = .error .unsupportedSuite ∧
      Mode.fromId unknownBody.mode = .error (.invalid "unknown mode") ∧
      unknownDrop.suite ≠ unknownBody.suite := by
  intro id
  have hlen : unknownDrop.raw.length < 2 ^ 64 := by decide +kernel
  have hencode : unknownDrop.raw = unknownDrop.encode := withSuite_raw _ _
  have hdec : SignedDrop.decode unknownDrop.raw = .ok unknownDrop := decode_raw hencode hlen
  have hbody : unknownDrop.body = .ok unknownBody := body_of_payload rfl (hencode ▸ hlen)
  have hraw : (unknownDir id).lookup (.drop id) = some unknownDrop.raw := AList.lookup_insert _
  have hverify : unknownDrop.verify KnownAnswers.primitives = .ok () :=
    (withSuite_verify _ _).trans (sign_verify KnownAnswers.laws _ _)
  have hidentity : (unknownDir id).lookup .identity =
      some (textBytes (identityText KnownAnswers.recipient)) :=
    (AList.lookup_insert_ne (by nofun)).trans (lookup_knownDir id KnownAnswers.chunk).1
  have hchunk : (unknownDir id).lookup (.chunk id 0) = some KnownAnswers.chunk :=
    (AList.lookup_insert_ne (by nofun)).trans (lookup_knownDir id KnownAnswers.chunk).2.2
  have hunlocks := recipient_unlocks hidentity hraw hchunk hdec hverify hbody
    (by decide +kernel) rfl rfl rfl
  refine ⟨?_, hraw, hdec, hbody, by decide, by decide, by decide, by decide⟩
  refine openDrop_ok_iff.mpr ⟨_, _, _, _, hunlocks, ?_⟩
  decide +kernel

end Keepstone.Store
