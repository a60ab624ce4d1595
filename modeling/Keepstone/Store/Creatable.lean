import Keepstone.Store.Creation

/-!
# When a drop can be created (`crates/store/src/lib.rs:396-545`)

Apart from calls that fail, and from a log entry that would be too long, `create_drop` fails or does
not end only before it has written anything of the drop, and on account of what is known before it
is called: the arguments, the identity, the contacts and the ML-DSA key (`Creatable`). It leaves
these such that what could be created before can be created afterwards.

Results:
* `creatable_of_untilEnvelope`: what a call has had that came to its envelope;
* **`exec_createDrop_of_creatable`**: what can be created is, on a disk that fails no call;
* **`Creatable.after`**: and can then be created again.
-/

namespace Keepstone.Store

open Keepstone.Lib Keepstone.Crypto Keepstone.Core

variable {prim : Primitives}

/-! ## What the algorithms return -/

/-- What the algorithms document of when they return, and of the sizes of ML-DSA-65. -/
structure ReturnLaws (prim : Primitives) : Prop where
  /-- HKDF-SHA256 makes a block. -/
  hkdf : ∀ ikm salt info, (prim.hkdfExpand ikm salt info 32).isSome
  /-- XChaCha20-Poly1305 encrypts what is shorter than 4 GiB. -/
  aead : ∀ key nonce aad plaintext, aad.length + plaintext.length < 2 ^ 32 →
    (prim.aeadEncrypt key nonce aad plaintext).isSome
  /-- Whether a key decodes does not depend on what is encapsulated to it. -/
  mlKem : ∀ key random random', (prim.mlKemEncapsulate key random).isSome →
    (prim.mlKemEncapsulate key random').isSome
  /-- Every seed is one. -/
  mlDsaSeed : ∀ seed, prim.mlDsaSeedOk seed = true
  /-- Its key signs every message. -/
  mlDsaSign : ∀ seed message, ∃ signature, prim.mlDsaSign seed message = some signature ∧
    signature.length = 3309
  mlDsaPublic : ∀ seed, (prim.mlDsaPublic seed).length = 1952

theorem ReturnLaws.exists_key (laws : ReturnLaws prim) (ikm salt info : List UInt8) :
    ∃ key, deriveKey32 prim ikm salt info = .ok key := by
  obtain ⟨key, hkey⟩ := Option.isSome_iff_exists.mp (laws.hkdf ikm salt info)
  exact ⟨key, by rw [deriveKey32, hkey]⟩

theorem ReturnLaws.exists_sealed (laws : ReturnLaws prim) (key : Bytes 32) (nonce : Bytes 24)
    {aad data : List UInt8} (h : aad.length + data.length < 2 ^ 32) :
    ∃ ciphertext, aeadSeal prim key nonce aad data = .ok ciphertext := by
  obtain ⟨ciphertext, hencrypt⟩ := Option.isSome_iff_exists.mp (laws.aead key nonce aad data h)
  exact ⟨ciphertext, by rw [aeadSeal, hencrypt]⟩

/-- Every content is encrypted whose chunks can be counted. -/
theorem ReturnLaws.exists_chunks (laws : ReturnLaws prim) (contentKey : Bytes 32)
    (noncePrefix : Bytes 20) {plaintext : List UInt8} (h : chunkCount plaintext.length < 2 ^ 32) :
    ∃ chunks, streamEncrypt prim contentKey plaintext noncePrefix =
      .ok (⟨noncePrefix, UInt32.ofNat (chunkCount plaintext.length)⟩, chunks) := by
  refine exists_streamEncrypt h fun index _ => ?_
  obtain ⟨key, hkey⟩ := laws.exists_key contentKey.toList defaultSalt
    (infoChunkKey ++ beBytes 4 (UInt32.ofNat index).toNat)
  have hsize : (chunkAad (UInt32.ofNat index)
      (UInt32.ofNat (chunkCount plaintext.length))).length +
      (chunkData plaintext index).length < 2 ^ 32 := by
    have hdomain : aadDomain.length = 18 := by decide +kernel
    have hdata : (chunkData plaintext index).length ≤ defaultChunkSize := List.length_take_le ..
    simp only [chunkAad, List.length_append, length_beBytes, hdomain, defaultChunkSize] at hdata ⊢
    omega
  obtain ⟨ciphertext, hseal⟩ := laws.exists_sealed key _ hsize
  exact ⟨key, ciphertext, hkey, hseal⟩

/-! ## Devices -/

/-- A device that a content key can be sealed to: in a hybrid drop its hybrid key has the length of
one and decodes. -/
def Sealable (prim : Primitives) (hybridMode : Bool) (device : Device) : Prop :=
  hybridMode = true → ∃ bytes pub random, device.2 = some bytes ∧
    hybridPublicFromBytes bytes = .ok pub ∧ (prim.mlKemEncapsulate pub.kem random).isSome

theorem sealable_of_wrapKey {draws : Draws} {hybridMode : Bool} {position : Nat} {device : Device}
    {entry : WrappedKey} (h : wrapKey prim draws hybridMode position device = .ok entry) :
    Sealable prim hybridMode device := by
  rintro rfl
  obtain ⟨-, hsealed⟩ := wrapKey_ok_iff.mp h
  obtain ⟨tag, sealed⟩ := entry
  cases sealed with
  | classical sealed => exact absurd hsealed.1 (by simp)
  | hybrid sealed =>
    obtain ⟨-, bytes, pub, hbytes, hpub, hseal⟩ := hsealed
    refine ⟨bytes, pub, (draws.seals position).kemRandom, hbytes, hpub, ?_⟩
    cases hkem : prim.mlKemEncapsulate pub.kem (draws.seals position).kemRandom with
    | none =>
      rw [hybridSeal, hkem] at hseal
      exact absurd hseal (by simp [bind, Except.bind, throw, throwThe, MonadExceptOf.throw])
    | some encapsulated => rfl

/-- The content key is sealed to every such device. -/
theorem exists_wrapKey (laws : ReturnLaws prim) {hybridMode : Bool} {device : Device}
    (h : Sealable prim hybridMode device) (draws : Draws) (position : Nat) :
    ∃ entry, wrapKey prim draws hybridMode position device = .ok entry := by
  have hcontent : ∀ contentKey : Bytes 32, contentKey.toList.length = 32 :=
    List.Vector.toList_length
  obtain ⟨tag, htag⟩ : ∃ tag, deriveTag prim device.1 draws.dropNonce = .ok tag := by
    obtain ⟨key, hkey⟩ := laws.exists_key device.1.toList defaultSalt
      (infoTag ++ draws.dropNonce.toList)
    exact ⟨_, bind_ok_iff.mpr ⟨key, hkey, rfl⟩⟩
  cases hybridMode with
  | false =>
    obtain ⟨key, hkey⟩ := laws.exists_key
      (prim.x25519 (draws.seals position).ephemeral device.1).toList defaultSalt infoSealKey
    have hsize : sealAad.length + draws.contentKey.toList.length < 2 ^ 32 := by
      rw [hcontent]
      decide +kernel
    obtain ⟨ciphertext, hseal⟩ := laws.exists_sealed key (draws.seals position).nonce hsize
    exact ⟨⟨tag, .classical _⟩, wrapKey_ok_iff.mpr
      ⟨htag, rfl, bind_ok_iff.mpr ⟨key, hkey, bind_ok_iff.mpr ⟨_, hseal, rfl⟩⟩⟩⟩
  | true =>
    obtain ⟨bytes, pub, random, hbytes, hpub, hdecodes⟩ := h rfl
    obtain ⟨⟨kemCiphertext, kemShared⟩, hkem⟩ := Option.isSome_iff_exists.mp
      (laws.mlKem pub.kem random (draws.seals position).kemRandom hdecodes)
    obtain ⟨key, hkey⟩ := laws.exists_key
      ((prim.x25519 (draws.seals position).ephemeral pub.x25519).toList ++ kemShared.toList)
      hybridContext infoSealKey
    have hsize : hybridContext.length + draws.contentKey.toList.length < 2 ^ 32 := by
      rw [hcontent]
      decide +kernel
    obtain ⟨ciphertext, hseal⟩ := laws.exists_sealed key (draws.seals position).nonce hsize
    have hsealed : ∃ sealed, hybridSeal prim draws.contentKey pub (draws.seals position).ephemeral
        (draws.seals position).kemRandom (draws.seals position).nonce = .ok sealed := by
      refine ⟨⟨prim.x25519Public (draws.seals position).ephemeral, kemCiphertext,
        (draws.seals position).nonce, ciphertext⟩, ?_⟩
      unfold hybridSeal
      rw [hkem]
      exact bind_ok_iff.mpr ⟨_, rfl, bind_ok_iff.mpr ⟨key, hkey, bind_ok_iff.mpr ⟨_, hseal, rfl⟩⟩⟩
    obtain ⟨sealed, hsealed⟩ := hsealed
    exact ⟨⟨tag, .hybrid sealed⟩, wrapKey_ok_iff.mpr ⟨htag, rfl, bytes, pub, hbytes, hpub, hsealed⟩⟩

/-! ## The ML-DSA key -/

/-- The ML-DSA keypair can be had: it loads, or there is none and one is generated. -/
def MlDsaReady (prim : Primitives) (dir : Dir) : Prop :=
  dir.lookup .mldsa = none ∨ ∃ keypair, mldsa prim dir = .ok keypair

theorem mldsa_saved {dir : Dir} {saved : MlDsaKeypair}
    (h : dir.lookup .mldsa = some (textBytes (hexEncode saved.seed.toList)))
    (hseed : prim.mlDsaSeedOk saved.seed = true) : mldsa prim dir = .ok saved := by
  unfold mldsa readToString
  simp only [h, Option.bind_some, readText_textBytes, trim_hexEncode, hexDecode_hexEncode,
    tryBytes_eq_some_iff.mpr rfl, MlDsaKeypair.fromSeed, hseed, if_true]
  rfl

/-- Whether the file of the ML-DSA key is there. -/
theorem exec_mldsaPresent (disk : Disk) :
    (Program.reads fun disk : Disk => (.ok (disk.dir.lookup .mldsa).isSome :
      Except StoreError Bool)).exec disk = (.ok (disk.dir.lookup .mldsa).isSome, disk) := rfl

theorem returns_mldsaOrCreate {disk : Disk} (hready : MlDsaReady prim disk.dir)
    (hquiet : disk.Quiet) (generated : MlDsaKeypair) :
    ∃ keypair disk', (mldsaOrCreate prim generated).exec disk = (.ok keypair, disk') ∧
      disk'.Quiet := by
  unfold mldsaOrCreate
  rw [Program.exec_bind_ok (exec_mldsaPresent disk)]
  cases hlookup : disk.dir.lookup .mldsa with
  | none =>
    have hsave : (saveMldsa generated).exec disk = (.ok (), _) :=
      Program.exec_mapErr_ok (exec_call hquiet _ _)
    simp only [Option.isSome_none, Bool.false_eq_true, if_false]
    rw [Program.exec_bind_ok hsave]
    exact ⟨generated, _, rfl, hquiet.tail _⟩
  | some text =>
    obtain ⟨keypair, hload⟩ := hready.resolve_left (by rw [hlookup]; simp)
    exact ⟨keypair, disk, Program.exec_reads_ok hload, hquiet⟩

/-- A call that returned has loaded the keypair, or has written it without fail. -/
theorem exec_mldsaOrCreate {generated keypair : MlDsaKeypair} {disk disk' : Disk}
    (h : (mldsaOrCreate prim generated).exec disk = (.ok keypair, disk')) :
    MlDsaReady prim disk.dir ∧ ∃ n, disk.Spent n disk' := by
  unfold mldsaOrCreate at h
  rw [Program.exec_bind_ok (exec_mldsaPresent disk)] at h
  cases hlookup : disk.dir.lookup .mldsa with
  | none =>
    simp only [hlookup, Option.isSome_none, Bool.false_eq_true, if_false] at h
    obtain ⟨_, _, hsave, h⟩ := Program.exec_bind_eq_ok h
    obtain ⟨-, rfl⟩ := Program.exec_pure_eq_ok h
    exact ⟨.inl hlookup, 1, spent_call (Program.exec_mapErr_eq_ok hsave)⟩
  | some text =>
    simp only [hlookup, Option.isSome_some, if_true] at h
    obtain ⟨hload, rfl⟩ := Program.exec_reads_eq_ok h
    exact ⟨.inr ⟨keypair, hload⟩, 0, .refl disk⟩

/-! ## What creating needs -/

/-- **What a drop needs to be created**: of the arguments, and of what a directory knows of the
author and the recipients. -/
structure Creatable (prim : Primitives) (cellAt : Float → Float → UInt8 → Except CoreError String)
    (args : CreateArgs) (draws : Draws) (dir : Dir) : Prop where
  /-- There is a recipient. -/
  names : args.names ≠ []
  /-- The suite exists. -/
  suite : eqIgnoreAsciiCase args.suite "classical" || args.hybridMode
  /-- Every name has devices, and the content key can be sealed to each of them. -/
  recipients : ∃ devices, resolve dir args = .ok devices ∧
    ∀ device ∈ devices, Sealable prim args.hybridMode device
  /-- The chunks can be counted. -/
  content : chunkCount args.plaintext.length < 2 ^ 32
  /-- The position has a cell. -/
  place : ∃ cell, cellAt args.lat args.lng args.res = .ok cell
  /-- The author has an identity, and there is a proof of work for the chunks. -/
  author : ∃ author, identity dir = .ok author ∧ ∀ framing chunks,
    streamEncrypt prim draws.contentKey args.plaintext draws.noncePrefix = .ok (framing, chunks) →
    ∃ nonce, powIsValid prim (author.signingPublic prim) (contentRoot prim chunks)
      draws.dropNonce nonce = true
  /-- A hybrid drop can be signed. -/
  signature : args.hybridMode = true → MlDsaReady prim dir

variable {cellAt : Float → Float → UInt8 → Except CoreError String} {now : UInt64}
  {args : CreateArgs} {draws : Draws}

/-- Such a drop is prepared. -/
theorem Creatable.exists_prepared {dir : Dir} (h : Creatable prim cellAt args draws dir)
    (laws : ReturnLaws prim) : ∃ prepared, prepareDrop prim args draws dir = .ok prepared := by
  obtain ⟨devices, hresolved, hsealable⟩ := h.recipients
  obtain ⟨author, hauthor, -⟩ := h.author
  obtain ⟨chunks, hencrypted⟩ := laws.exists_chunks draws.contentKey draws.noncePrefix h.content
  obtain ⟨wrapped, hwrapped⟩ : ∃ wrapped, (devices.zipIdx.mapM fun e : Device × Nat =>
      wrapKey prim draws args.hybridMode e.2 e.1) = .ok wrapped :=
    exists_mapM_ok_iff.mpr fun e he =>
      exists_wrapKey laws (hsealable e.1 (List.fst_mem_of_mem_zipIdx he)) draws e.2
  exact ⟨⟨author, args.hybridMode, _, chunks, shuffled draws (padded draws wrapped)⟩,
    prepareDrop_ok_iff.mpr ⟨devices, wrapped, h.names, h.suite, rfl, hauthor, hresolved, hencrypted,
      mapM_ok_iff.mp hwrapped, rfl⟩⟩

/-- Such a drop has a proof of work, a cell and a body. -/
theorem Creatable.exists_body {dir : Dir} (h : Creatable prim cellAt args draws dir)
    (laws : ReturnLaws prim) (now : UInt64) :
    ∃ prepared powNonce cell body, prepareDrop prim args draws dir = .ok prepared ∧
      mine prim (prepared.identity.signingPublic prim) (contentRoot prim prepared.chunks)
        draws.dropNonce = some powNonce ∧
      cellAt args.lat args.lng args.res = .ok cell ∧
      bodyOf prim args draws prepared powNonce cell now = .ok body := by
  obtain ⟨prepared, hprepared⟩ := h.exists_prepared laws
  obtain ⟨devices, wrapped, hprepares⟩ := prepareDrop_ok_iff.mp hprepared
  obtain ⟨cell, hcell⟩ := h.place
  obtain ⟨author, hauthor, hwork⟩ := h.author
  obtain rfl : author = prepared.identity := Except.ok.inj (hauthor.symm.trans hprepares.author)
  obtain ⟨nonce, hnonce⟩ := hwork _ _ hprepares.encrypted
  obtain ⟨powNonce, hmined⟩ := exists_mine hnonce
  exact ⟨prepared, powNonce, cell, _, hprepared, hmined, hcell, rfl⟩

/-- A body is signed, in an envelope that is not much longer. -/
theorem exists_signBody (laws : ReturnLaws prim) {prepared : Prepared} {disk : Disk}
    (hready : prepared.hybridMode = true → MlDsaReady prim disk.dir) (hquiet : disk.Quiet)
    (draws : Draws) (body : DropBody) :
    ∃ signed disk', (signBody prim draws prepared body).exec disk = (.ok signed, disk') ∧
      disk'.Quiet ∧ signed.raw.length ≤ 5420 + body.toCanonical.length := by
  unfold signBody
  cases hmode : prepared.hybridMode with
  | false =>
    have hle := length_encodeEnvelope_le body.suite sigEd25519 (prepared.identity.signingPublic prim)
      [] body.toCanonical (prepared.identity.sign prim (signingInput body.toCanonical)).toList
    rw [List.Vector.toList_length, List.length_nil] at hle
    exact ⟨SignedDrop.sign prim prepared.identity body, disk, rfl, hquiet, hle.trans (by omega)⟩
  | true =>
    obtain ⟨keypair, disk', hkeypair, hquiet'⟩ :=
      returns_mldsaOrCreate (hready hmode) hquiet draws.mlDsa
    obtain ⟨signature, hsign, hsize⟩ :=
      laws.mlDsaSign keypair.seed (signingInput body.toCanonical)
    have hle := length_encodeEnvelope_le body.suite sigHybrid (prepared.identity.signingPublic prim)
      (keypair.verifyingKeyBytes prim) body.toCanonical
      ((prepared.identity.sign prim (signingInput body.toCanonical)).toList ++ signature)
    have hkey : (keypair.verifyingKeyBytes prim).length = 1952 := laws.mlDsaPublic keypair.seed
    rw [List.length_append, List.Vector.toList_length, hkey, hsize] at hle
    obtain ⟨signed, hsigned, hraw⟩ : ∃ signed,
        SignedDrop.signHybrid prim prepared.identity keypair body = .ok signed ∧
          signed.raw.length ≤ 5420 + body.toCanonical.length :=
      ⟨_, signHybrid_ok_iff.mpr ⟨signature, hsign, rfl⟩, hle.trans (by omega)⟩
    refine ⟨signed, disk', ?_, hquiet', hraw⟩
    refine (Program.exec_bind_ok hkeypair _).trans ?_
    rw [Program.exec_ofExcept, hsigned]
    rfl

/-- **What can be created is**, on a disk that fails no call, if its entries fit the log. -/
theorem exec_createDrop_of_creatable (laws : ReturnLaws prim) {disk : Disk}
    (h : Creatable prim cellAt args draws disk.dir) (hquiet : disk.Quiet)
    (hsize : ∀ cell prepared, cellAt args.lat args.lng args.res = .ok cell →
      prepareDrop prim args draws disk.dir = .ok prepared →
      5623 + (utf8 cell).length +
        (prepared.wrappedKeys.flatMap WrappedKey.toCanonical).length < 2 ^ 32) :
    ∃ created disk', (createDrop prim cellAt now args draws).exec disk = (.ok created, disk') ∧
      disk'.Quiet := by
  obtain ⟨prepared, powNonce, cell, body, hprepared, hmined, hcell, hbody⟩ := h.exists_body laws now
  obtain ⟨devices, wrapped, hprepares⟩ := prepareDrop_ok_iff.mp hprepared
  obtain ⟨signed, disk', hsigned, hquiet', hle⟩ := exists_signBody laws
    (fun hmode => h.signature (hprepares.mode ▸ hmode)) hquiet draws body
  have hcanonical := length_toCanonical_le body
  rw [(bodyOf_ok hbody).1, (bodyOf_place hbody).1] at hcanonical
  have hfits := hsize cell prepared hcell hprepared
  exact exec_createDrop_of_signed hprepared hmined hcell hbody hsigned hquiet' (by omega)

/-! ## What a call has had that came to its envelope -/

theorem exec_signBody_ready {prepared : Prepared} {body : DropBody} {signed : SignedDrop}
    {disk disk' : Disk}
    (h : (signBody prim draws prepared body).exec disk = (.ok signed, disk')) :
    (prepared.hybridMode = true → MlDsaReady prim disk.dir) ∧ ∃ n, disk.Spent n disk' := by
  unfold signBody at h
  split at h
  case isTrue hmode =>
    obtain ⟨mlDsa, _, hkeypair, hsign⟩ := Program.exec_bind_eq_ok h
    obtain ⟨-, rfl⟩ := Program.exec_ofExcept_eq_ok hsign
    obtain ⟨hready, hspent⟩ := exec_mldsaOrCreate hkeypair
    exact ⟨fun _ => hready, hspent⟩
  case isFalse hmode =>
    obtain ⟨-, rfl⟩ := Program.exec_pure_eq_ok h
    exact ⟨fun h => absurd h hmode, 0, .refl disk⟩

theorem spent_writeChunks {id : DropId} {entries : List (List UInt8 × Nat)} {disk disk' : Disk}
    {u : PUnit}
    (h : (forM entries fun e : List UInt8 × Nat =>
      (write (.chunk id e.2) e.1).mapErr StoreError.io).exec disk = (.ok u, disk')) :
    disk.Spent entries.length disk' := by
  induction entries generalizing disk with
  | nil =>
    obtain ⟨-, rfl⟩ := Program.exec_pure_eq_ok h
    exact .refl disk
  | cons e entries ih =>
    obtain ⟨middle, _, hfirst, hrest⟩ := exec_forM_cons_eq_ok h
    rw [List.length_cons, Nat.add_comm]
    exact (spent_call (Program.exec_mapErr_eq_ok hfirst)).trans (ih hrest)

/-- **A call that comes to its envelope** creates what can be created, and the calls for its
directory and its chunks have not failed. -/
theorem creatable_of_untilEnvelope {disk disk' : Disk} {signed : SignedDrop}
    {created : CreatedDrop}
    (h : (untilEnvelope prim cellAt now args draws).exec disk = (.ok (signed, created), disk')) :
    Creatable prim cellAt args draws disk.dir ∧
      ∀ outcome ∈ disk.outcomes.take (1 + chunkCount args.plaintext.length), outcome = .done := by
  obtain ⟨prepared, _, hprepared, h⟩ := Program.exec_bind_eq_ok h
  obtain ⟨hprepare, rfl⟩ := Program.exec_reads_eq_ok hprepared
  obtain ⟨powNonce, _, hnonce, h⟩ := Program.exec_bind_eq_ok h
  obtain ⟨hmined, rfl⟩ := Program.exec_ofExcept_eq_ok hnonce
  obtain ⟨cell, _, hcell, h⟩ := Program.exec_bind_eq_ok h
  obtain ⟨hplace, rfl⟩ := Program.exec_ofExcept_eq_ok hcell
  obtain ⟨body, _, hbody, h⟩ := Program.exec_bind_eq_ok h
  obtain ⟨-, rfl⟩ := Program.exec_ofExcept_eq_ok hbody
  obtain ⟨signed', ready, hsigned, h⟩ := Program.exec_bind_eq_ok h
  obtain ⟨_, _, hstored, -⟩ := Program.exec_bind_eq_ok h
  obtain ⟨devices, wrapped, hprepares⟩ := prepareDrop_ok_iff.mp (mapError_ok_iff.mp hprepare)
  obtain ⟨hready, n, hspent⟩ := exec_signBody_ready (Program.exec_mapErr_eq_ok hsigned)
  obtain ⟨hcount, -, hlen, -⟩ := streamEncrypt_ok_iff.mp hprepares.encrypted
  constructor
  · refine ⟨hprepares.names, hprepares.suite, ⟨devices, hprepares.resolved, ?_⟩, hcount,
      ⟨cell, mapError_ok_iff.mp hplace⟩, ⟨prepared.identity, hprepares.author, ?_⟩,
      fun hmode => hready (hprepares.mode.trans hmode)⟩
    · intro device hdevice
      obtain ⟨_, _, -, -, hwrap⟩ := hprepares.exists_entry hdevice
      exact sealable_of_wrapKey hwrap
    · intro framing chunks hencrypted
      obtain ⟨-, rfl⟩ := Prod.mk.inj (Except.ok.inj (hprepares.encrypted.symm.trans hencrypted))
      refine ⟨powNonce, mine_valid ?_⟩
      split at hmined
      case h_1 nonce hmine => rw [hmine, Except.ok.inj hmined]
      case h_2 => exact absurd hmined (by simp)
  · -- the call for the directory and those for the chunks come after those of the signature
    obtain ⟨_, _, hmake, hstored⟩ := Program.exec_bind_eq_ok (Program.exec_mapErr_eq_ok hstored)
    obtain ⟨_, _, hchunks, -⟩ := Program.exec_bind_eq_ok hstored
    have hcalls := (hspent.trans (spent_call (Program.exec_mapErr_eq_ok hmake))).trans
      (spent_writeChunks hchunks)
    rw [List.length_zipIdx, hlen] at hcalls
    exact fun outcome ho => hcalls.2 outcome (List.take_subset_take_left _ (by omega) ho)

/-! ## What a call leaves -/

/-- What creating depends on is as before, but for an ML-DSA key that may have come. -/
structure SameAuthor (prim : Primitives) (before dir : Dir) : Prop where
  identity : dir.lookup .identity = before.lookup .identity
  contacts : dir.lookup .contacts = before.lookup .contacts
  mldsa : MlDsaReady prim before → MlDsaReady prim dir

section Same

variable {before dir : Dir}

theorem SameAuthor.refl (prim : Primitives) (dir : Dir) : SameAuthor prim dir dir :=
  ⟨rfl, rfl, fun h => h⟩

theorem SameAuthor.resolve (h : SameAuthor prim before dir) (args : CreateArgs) :
    resolve dir args = resolve before args := by
  unfold Store.resolve Store.contacts readToString
  rw [h.contacts]

/-- What could be created can be created. -/
theorem Creatable.after (h : Creatable prim cellAt args draws before)
    (hsame : SameAuthor prim before dir) : Creatable prim cellAt args draws dir := by
  have hidentity : Store.identity dir = Store.identity before := by
    unfold Store.identity readToString
    rw [hsame.identity]
  refine ⟨h.names, h.suite, ?_, h.content, h.place, ?_, fun hmode => hsame.mldsa (h.signature hmode)⟩
  · rw [hsame.resolve]
    exact h.recipients
  · rw [hidentity]
    exact h.author

theorem ignores_sameAuthor {file : File} (hidentity : File.identity ≠ file)
    (hcontacts : File.contacts ≠ file) (hmldsa : File.mldsa ≠ file) :
    Ignores (SameAuthor prim before) file := by
  intro dir content h
  refine ⟨?_, ?_, fun hready => (h.mldsa hready).imp (fun hnone => ?_) fun hloads => ?_⟩
  · rw [AList.lookup_insert_ne hidentity, h.identity]
  · rw [AList.lookup_insert_ne hcontacts, h.contacts]
  · rw [AList.lookup_insert_ne hmldsa, hnone]
  · unfold Store.mldsa readToString at hloads ⊢
    rwa [AList.lookup_insert_ne hmldsa]

/-- **A call of `create_drop` leaves what creating depends on**, if none of its writes is torn. -/
theorem keeps_createDrop_sameAuthor (laws : ReturnLaws prim)
    (cellAt : Float → Float → UInt8 → Except CoreError String) (now : UInt64) (args : CreateArgs)
    (draws : Draws) : Keeps (Safely (SameAuthor prim before))
      (createDrop prim cellAt now args draws) fun _ => True := by
  have hother : ∀ file, File.identity ≠ file → File.contacts ≠ file → File.mldsa ≠ file →
      Allows (Safely (SameAuthor prim before)) file := fun _ hidentity hcontacts hmldsa =>
    (ignores_sameAuthor hidentity hcontacts hmldsa).safely
  have hmldsa : Keeps (Safely (SameAuthor prim before)) (mldsaOrCreate prim draws.mlDsa)
      fun _ => True := by
    refine keeps_orCreate (keeps_write fun dir h => ?_) _ _
    refine ⟨?_, ?_, fun _ =>
      .inr ⟨draws.mlDsa, mldsa_saved (AList.lookup_insert _) (laws.mlDsaSeed _)⟩⟩
    · rw [AList.lookup_insert_ne (by simp), h.identity]
    · rw [AList.lookup_insert_ne (by simp), h.contacts]
  exact keeps_createDrop prim hmldsa (fun _ _ => hother _ (by simp) (by simp) (by simp))
    (hother _ (by simp) (by simp) (by simp))
    (fun _ => (hother _ (by simp) (by simp) (by simp)).write _) cellAt now args

end Same

end Keepstone.Store
