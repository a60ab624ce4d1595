import Keepstone.Store.Addressing

/-!
# What opening a drop depends on (`crates/store/src/lib.rs:240-266, 404-603`)

A drop that opens depends on four of the files. A hybrid key is written only where there is none,
and then the drop has opened without it; `create_drop` writes the files of one drop, that of the
envelope it has signed, and no other call writes a chunk or an envelope.

Results:
* `openDrop_of_retains`: a drop opens as before when these files are retained;
* `keeps_hybridOrCreate_retains`, **`createDrop_retains`**: which calls retain them.
-/

namespace Keepstone.Store

open Keepstone.Lib Keepstone.Crypto Keepstone.Core

variable {prim : Primitives}

/-! ## The files of a drop -/

/-- The files that opening a drop depends on. -/
def Concerns (id : DropId) : File → Prop
  | .identity | .hybrid => True
  | .drop other => other = id
  | .chunk other _ => other = id
  | _ => False

/-- These files are as they were, except that a hybrid key may have come where there was none. -/
structure Retains (before : Dir) (id : DropId) (dir : Dir) : Prop where
  /-- The identity is the same. -/
  identity : dir.lookup .identity = before.lookup .identity
  /-- The hybrid key is the same if there was one. -/
  hybrid : ∀ text, before.lookup .hybrid = some text → dir.lookup .hybrid = some text
  /-- The envelope is the same. -/
  drop : dir.lookup (.drop id) = before.lookup (.drop id)
  /-- The chunks are the same. -/
  chunk : ∀ index, dir.lookup (.chunk id index) = before.lookup (.chunk id index)

variable {before dir : Dir} {id : DropId}

theorem Retains.refl (dir : Dir) (id : DropId) : Retains dir id dir :=
  ⟨rfl, fun _ h => h, rfl, fun _ => rfl⟩

/-- Other files may be written. -/
theorem ignores_retains {file : File} (hfile : ¬ Concerns id file) :
    Ignores (Retains before id) file := by
  rintro dir content ⟨hidentity, hhybrid, hdrop, hchunk⟩
  have hother : ∀ concerned, Concerns id concerned →
      (dir.insert file content).lookup concerned = dir.lookup concerned := by
    intro concerned hconcerned
    refine AList.lookup_insert_ne ?_
    rintro rfl
    exact hfile hconcerned
  constructor
  · exact (hother .identity trivial).trans hidentity
  · exact fun text htext => (hother .hybrid trivial).trans (hhybrid text htext)
  · exact (hother (.drop id) rfl).trans hdrop
  · exact fun index => (hother (.chunk id index) rfl).trans (hchunk index)

/-- What is loaded of the hybrid key is loaded later. -/
theorem Retains.hybrid_ok (h : Retains before id dir) {keypair : HybridKeypair}
    (hload : Store.hybrid prim before = .ok keypair) : Store.hybrid prim dir = .ok keypair := by
  cases htext : before.lookup .hybrid with
  | none =>
    rw [Store.hybrid, readToString, htext] at hload
    cases hload
  | some text => rwa [Store.hybrid, readToString, h.hybrid text htext, ← htext]

/-- A search that finds a content key finds it with more hybrid keys to load. -/
theorem findContentKey_of_loads
    (hloads : ∀ keypair, hybrid prim before = .ok keypair → hybrid prim dir = .ok keypair)
    {tag : Bytes 8} {secret contentKey : Bytes 32} {loaded : Option HybridKeypair}
    {entries : List WrappedKey}
    (h : findContentKey prim before tag secret loaded entries = .ok (some contentKey)) :
    findContentKey prim dir tag secret loaded entries = .ok (some contentKey) := by
  induction entries generalizing loaded with
  | nil => exact absurd h nofun
  | cons entry rest ih =>
    by_cases htag : entry.tag ≠ tag
    · rw [findContentKey, if_pos htag] at h ⊢
      exact ih h
    · rw [findContentKey, if_neg htag] at h ⊢
      cases hsealed : entry.sealed with
      | classical sealed =>
        simp only [hsealed] at h ⊢
        split at h
        case h_1 key hopen => exact h
        case h_2 e hopen => exact ih h
      | hybrid sealed =>
        simp only [hsealed] at h ⊢
        cases loaded with
        | none =>
          obtain ⟨keypair, hkeypair, h⟩ := bind_ok_iff.mp h
          refine bind_ok_iff.mpr ⟨keypair, hloads keypair hkeypair, ?_⟩
          split at h
          case h_1 key hopen => exact h
          case h_2 e hopen => exact ih h
        | some keypair =>
          simp only [pure_bind] at h ⊢
          split at h
          case h_1 key hopen => exact h
          case h_2 e hopen => exact ih h

/-- **What opening a drop depends on.** -/
theorem openDrop_of_retains (h : Retains before id dir) {plaintext : List UInt8}
    (hopen : openDrop prim before id = .ok plaintext) :
    openDrop prim dir id = .ok plaintext := by
  obtain ⟨signed, body, contentKey, chunks, hunlocks, hplain⟩ := openDrop_ok_iff.mp hopen
  obtain ⟨raw, hraw, hdecode⟩ := hunlocks.envelope
  obtain ⟨own, tag, hown, htag, hfind⟩ := hunlocks.unsealed
  have hidentity : identity dir = identity before := by
    rw [identity, identity, readToString, readToString, h.identity]
  have hstored : readChunks dir id body.chunkCount = .ok chunks := by
    unfold readChunks
    simp only [h.chunk]
    exact hunlocks.stored
  refine openDrop_ok_iff.mpr ⟨signed, body, contentKey, chunks, ?_, hplain⟩
  exact
    { envelope := ⟨raw, h.drop.trans hraw, hdecode⟩
      verified := hunlocks.verified
      decoded := hunlocks.decoded
      pow := hunlocks.pow
      unsealed := ⟨own, tag, hidentity.trans hown, htag,
        findContentKey_of_loads (fun _ => h.hybrid_ok) hfind⟩
      stored := hstored }

/-! ## What a call leaves of them -/

/-- A hybrid key that is there is not written. -/
theorem keeps_hybridOrCreate_retains (generated : HybridKeypair) :
    Keeps (fun disk : Disk => Retains before id disk.dir) (hybridOrCreate prim generated)
      fun _ => True := by
  cases hbefore : before.lookup .hybrid with
  | none =>
    have hother : Ignores (Retains before id) .hybrid := by
      intro dir content h
      refine ⟨?_, fun text htext => absurd (hbefore.symm.trans htext) nofun, ?_, fun index => ?_⟩
      · rw [AList.lookup_insert_ne (by simp), h.identity]
      · rw [AList.lookup_insert_ne (by simp), h.drop]
      · rw [AList.lookup_insert_ne (by simp), h.chunk]
    exact keeps_orCreate (hother.always.write _) _ _
  | some text =>
    intro disk h
    have hpresent : (Program.reads fun disk : Disk => (.ok (disk.dir.lookup .hybrid).isSome :
        Except StoreError Bool)).exec disk = (.ok true, disk) := by
      refine Program.exec_reads_ok (congrArg Except.ok ?_)
      rw [h.hybrid text hbefore, Option.isSome_some]
    have hloads : Keeps (fun disk : Disk => Retains before id disk.dir)
        (Program.reads fun disk : Disk => hybrid prim disk.dir) fun _ => True :=
      Keeps.reads fun _ _ _ _ => trivial
    rw [hybridOrCreate, Program.exec_bind_ok hpresent]
    exact hloads disk h

/-- What storing an envelope and its chunks keeps. -/
theorem keeps_storeDrop {I : Disk → Prop} {signed : SignedDrop}
    (hchunk : ∀ index, Allows I (.chunk (signed.id prim) index)) (hlog : Allows I .logEntries)
    (hdrop : Keeps I (write (.drop (signed.id prim)) signed.raw) fun _ => True)
    (chunks : List (List UInt8)) : Keeps I (storeDrop prim signed chunks) fun _ => True := by
  refine (hlog.createDirAll.mapErr _).bind fun _ _ => ?_
  refine (keeps_writeChunks fun e _ => hchunk _).bind fun _ _ => ?_
  refine hlog.createDirAll.ok.bind fun _ _ => ?_
  refine (hdrop.mapErr _).bind fun _ _ => ?_
  exact keeps_appendLogEntry hlog _

/-- Whether the primitives are ideal depends on the keys and the plaintext. -/
theorem Ideal.of_same_keys {args args' : CreateArgs} {draws : Draws} {devices : List Device}
    {dir' : Dir} (ideal : Ideal prim args draws devices dir)
    (hplaintext : args'.plaintext = args.plaintext) (hidentity : identity dir' = identity dir)
    (hhybrid : hybrid prim dir' = hybrid prim dir) : Ideal prim args' draws devices dir' := by
  constructor
  · simpa only [hidentity] using ideal.classicalSlot
  · simpa only [hidentity] using ideal.classicalOther
  · simpa only [hhybrid] using ideal.hybridSlot
  · simpa only [hhybrid] using ideal.hybridOther
  · simpa only [hidentity] using ideal.decoy
  · simpa only [hidentity] using ideal.tag
  · simpa only [hplaintext] using ideal.chunk

/-! ## What a call creates -/

section Creating

variable (prim) (cellAt : Float → Float → UInt8 → Except CoreError String) (now : UInt64)
  (args : CreateArgs) (draws : Draws)

/-- `create_drop` up to the signature: what it stores then. -/
def untilSigned : Program Stop Disk (Prepared × DropBody × SignedDrop) := do
  let prepared ← .reads fun disk => (prepareDrop prim args draws disk.dir).mapError .error
  let signer := prepared.identity.signingPublic prim
  let powNonce ← .ofExcept
    (match mine prim signer (contentRoot prim prepared.chunks) draws.dropNonce with
    | some nonce => .ok nonce
    | none => .error .diverges)
  let cell ← .ofExcept ((cellAt args.lat args.lng args.res).mapError fun e => .error (.core e))
  let body ← .ofExcept ((bodyOf prim args draws prepared powNonce cell now).mapError .error)
  let signed ← (signBody prim draws prepared body).mapErr .error
  pure (prepared, body, signed)

theorem createDrop_eq_untilSigned :
    createDrop prim cellAt now args draws = (do
      let (prepared, body, signed) ← untilSigned prim cellAt now args draws
      (storeDrop prim signed prepared.chunks).mapErr .error
      pure ⟨signed.id prim, body.cell, prepared.framing.total, args.plaintext.length, body.suite,
        signed.sigKind⟩) := by
  unfold untilSigned
  simp only [bind_assoc, pure_bind]
  rfl

/-- On this disk a call comes to store this envelope. -/
def Signs (disk : Disk) (signed : SignedDrop) : Prop :=
  ∃ prepared body disk',
    (untilSigned prim cellAt now args draws).exec disk = (.ok (prepared, body, signed), disk')

variable {prim cellAt now args draws}

/-- What can be created, in a hybrid drop that is the first, is not if the write of the ML-DSA key
is torn: there is no envelope then, and a part of the key. -/
theorem exec_untilSigned_torn (laws : ReturnLaws prim) {dir : Dir}
    (h : Creatable prim cellAt args draws dir) (hmode : args.hybridMode = true)
    (hnone : dir.lookup .mldsa = none) (k : Nat) :
    (untilSigned prim cellAt now args draws).exec ⟨dir, [.torn k]⟩ =
      (.error (.error (.io .system)),
        ⟨dir.insert .mldsa ((textBytes (hexEncode draws.mlDsa.seed.toList)).take k), []⟩) := by
  obtain ⟨prepared, powNonce, cell, body, hprepared, hmined, hcell, hbody⟩ := h.exists_body laws now
  obtain ⟨devices, wrapped, hprepares⟩ := prepareDrop_ok_iff.mp hprepared
  have hreads : (Program.reads fun disk : Disk =>
      (prepareDrop prim args draws disk.dir).mapError Stop.error).exec ⟨dir, [.torn k]⟩ =
      (.ok prepared, ⟨dir, [.torn k]⟩) := Prod.ext (mapError_ok_iff.mpr hprepared) rfl
  have hkey : (mldsaOrCreate prim draws.mlDsa).exec ⟨dir, [.torn k]⟩ =
      (.error (.io .system),
        ⟨dir.insert .mldsa ((textBytes (hexEncode draws.mlDsa.seed.toList)).take k), []⟩) := by
    unfold mldsaOrCreate
    rw [Program.exec_bind_ok (exec_mldsaPresent _)]
    simp only [hnone, Option.isSome_none, Bool.false_eq_true, if_false]
    exact Program.exec_bind_error (Program.exec_mapErr_error rfl) _
  unfold untilSigned
  rw [Program.exec_bind_ok hreads, Program.exec_ofExcept_bind (by rw [hmined]),
    Program.exec_ofExcept_bind (mapError_ok_iff.mpr hcell),
    Program.exec_ofExcept_bind (mapError_ok_iff.mpr hbody)]
  refine Program.exec_bind_error (Program.exec_mapErr_error ?_) _
  unfold signBody
  rw [if_pos (hprepares.mode.trans hmode)]
  exact Program.exec_bind_error hkey _

/-- What is signed verifies, and carries a body with work and with the nonce that was drawn. -/
theorem Signs.exists_body {disk : Disk} {signed : SignedDrop}
    (h : Signs prim cellAt now args draws disk signed) :
    signed.raw = signed.encode ∧ (SignatureLaws prim → signed.verify prim = .ok ()) ∧
      ∃ body : DropBody, signed.payload = body.toCanonical ∧
        body.dropNonce = draws.dropNonce ∧ body.powOk prim signed.signer = true := by
  obtain ⟨prepared, body, disk', h⟩ := h
  obtain ⟨prepared', _, -, h⟩ := Program.exec_bind_eq_ok h
  obtain ⟨powNonce, _, hnonce, h⟩ := Program.exec_bind_eq_ok h
  obtain ⟨cell, _, -, h⟩ := Program.exec_bind_eq_ok h
  obtain ⟨body', _, hbody, h⟩ := Program.exec_bind_eq_ok h
  obtain ⟨signed', _, hsigned, h⟩ := Program.exec_bind_eq_ok h
  obtain ⟨htriple, -⟩ := Program.exec_pure_eq_ok h
  obtain ⟨-, hpair⟩ := Prod.mk.inj htriple
  obtain ⟨-, rfl⟩ := Prod.mk.inj hpair
  obtain ⟨hencoded, hpayload, hsigner, hverify⟩ :=
    exec_signBody (Program.exec_mapErr_eq_ok hsigned)
  have hmined : mine prim (prepared'.identity.signingPublic prim)
      (contentRoot prim prepared'.chunks) draws.dropNonce = some powNonce := by
    have hmatch := (Program.exec_ofExcept_eq_ok hnonce).1
    split at hmatch
    case h_1 nonce hmine => rw [hmine, Except.ok.inj hmatch]
    case h_2 => exact absurd hmatch nofun
  obtain ⟨-, -, hdropNonce, hroot, hpow⟩ :=
    bodyOf_ok (mapError_ok_iff.mp (Program.exec_ofExcept_eq_ok hbody).1)
  have hworked : body'.powOk prim signed'.signer = true := by
    unfold DropBody.powOk
    rw [hsigner, hroot, hdropNonce, hpow]
    exact mine_valid hmined
  exact ⟨hencoded, hverify, body', hpayload, hdropNonce, hworked⟩

/-- An envelope whose body has another nonce is another one. -/
theorem Signs.raw_ne {disk : Disk} {made signed : SignedDrop} {body : DropBody}
    (h : Signs prim cellAt now args draws disk made) (hsmall : signed.raw.length < 2 ^ 64)
    (hdecode : SignedDrop.decode signed.raw = .ok signed) (hbody : signed.body = .ok body)
    (hfresh : draws.dropNonce ≠ body.dropNonce) : made.raw ≠ signed.raw := by
  intro hraw
  obtain ⟨hencoded, -, madeBody, hpayload, hnonce, -⟩ := h.exists_body
  have hmadeSmall : made.raw.length < 2 ^ 64 := hraw ▸ hsmall
  have hmade := decode_raw hencoded hmadeSmall
  rw [hraw, hdecode] at hmade
  obtain rfl := Except.ok.inj hmade
  have hcarries := body_of_payload hpayload (hencoded ▸ hsmall)
  obtain rfl := Except.ok.inj (hbody.symm.trans hcarries)
  exact hfresh hnonce.symm

/-- **What a call of `create_drop` keeps**, by the envelope it comes to store. -/
theorem after_createDrop {I : Disk → Prop} {disk : Disk} (h : I disk) (hmldsa : Allows I .mldsa)
    (hlog : Allows I .logEntries)
    (hstores : ∀ signed, Signs prim cellAt now args draws disk signed →
      (∀ index, Allows I (.chunk (signed.id prim) index)) ∧
        Keeps I (write (.drop (signed.id prim)) signed.raw) fun _ => True) :
    I ((createDrop prim cellAt now args draws).exec disk).2 := by
  have huntil : Keeps I (untilSigned prim cellAt now args draws) fun _ => True := by
    refine (Keeps.reads fun _ _ _ _ => trivial).bind fun prepared _ => ?_
    refine (Keeps.ofExcept _).bind fun powNonce _ => ?_
    refine (Keeps.ofExcept _).bind fun cell _ => ?_
    refine (Keeps.ofExcept _).bind fun body _ => ?_
    have hsign := keeps_signBody prim (keeps_mldsaOrCreate prim hmldsa draws.mlDsa) prepared body
    refine (hsign.mapErr _).bind fun signed _ => ?_
    exact Keeps.pure trivial
  rw [createDrop_eq_untilSigned]
  have hsigned := (huntil disk h).1
  refine Keeps.after_bind_ok (I := I) hsigned ?_
  rintro ⟨prepared, body, signed⟩ disk' hexec
  rw [hexec] at hsigned
  obtain ⟨hchunk, hdrop⟩ := hstores signed ⟨prepared, body, disk', hexec⟩
  have hstore := keeps_storeDrop hchunk hlog hdrop prepared.chunks
  exact (((hstore.mapErr Stop.error).bind fun _ _ => Keeps.pure (Q := fun _ => True) trivial)
    disk' hsigned).1

/-- **What `create_drop` leaves of the files of another drop.** -/
theorem createDrop_retains {disk : Disk} (h : Retains before id disk.dir)
    (hother : ∀ signed, Signs prim cellAt now args draws disk signed → signed.id prim ≠ id) :
    Retains before id ((createDrop prim cellAt now args draws).exec disk).2.dir := by
  have hallows : ∀ file, ¬ Concerns id file →
      Allows (fun disk : Disk => Retains before id disk.dir) file := fun file hfile =>
    (ignores_retains hfile).always
  have hmldsa := hallows .mldsa fun h => h
  have hlog := hallows .logEntries fun h => h
  refine after_createDrop (I := fun disk => Retains before id disk.dir) h hmldsa hlog ?_
  intro signed hsigns
  -- the files of one drop are those of no other
  have hne := hother signed hsigns
  exact ⟨fun index => hallows _ hne, (hallows (.drop (signed.id prim)) hne).write _⟩

end Creating

end Keepstone.Store
