import Keepstone.Core.Pow
import Keepstone.Crypto.Stream
import Keepstone.Store.Log
import Keepstone.Store.Opening
import Mathlib.Data.List.FinRange

/-!
# What `create_drop` leaves (`crates/store/src/lib.rs:404-541`)

Results:
* `prepareDrop_ok_iff`: what it prepares, with the entries of the devices and the decoys;
* `exec_storeDrop`: the files of a drop whose storing returned;
* **`exec_createDrop`**: a call of `create_drop` that returned has stored a verifying envelope of
  the body it prepared, with a valid proof of work, and the chunks of that body;
* `exec_createDrop_place`: that body is in the cell of the arguments and has their ring;
* `exec_untilEnvelope`: the envelope is written when all its chunks are there;
* **`exists_exec_createDrop`**: when it returns.
-/

namespace Keepstone.Store

open Keepstone.Lib Keepstone.Crypto Keepstone.Core

variable {prim : Primitives}

/-! ## What is prepared -/

/-- A device of a contact: its X25519 public key, and its hybrid public key bytes if known. -/
abbrev Device := Bytes 32 × Option (List UInt8)

/-- Whether the suite is the hybrid one. -/
def CreateArgs.hybridMode (args : CreateArgs) : Bool := eqIgnoreAsciiCase args.suite "hybrid"

/-- The devices the names stand for, in the contacts of a directory. -/
def resolve (dir : Dir) (args : CreateArgs) : Except StoreError (List Device) := do
  let contacts ← contacts dir
  let recipients ← args.names.mapM (devicesOf contacts args.hybridMode)
  pure recipients.flatten

/-- What `create_drop` has prepared: the devices, and the content key sealed to each of them. -/
structure Prepares (prim : Primitives) (args : CreateArgs) (draws : Draws) (dir : Dir)
    (prepared : Prepared) (devices : List Device) (wrapped : List WrappedKey) : Prop where
  /-- There is a recipient. -/
  names : args.names ≠ []
  /-- The suite exists. -/
  suite : eqIgnoreAsciiCase args.suite "classical" || args.hybridMode
  /-- The suite selects the mode. -/
  mode : prepared.hybridMode = args.hybridMode
  /-- The author is the identity of the directory. -/
  author : identity dir = .ok prepared.identity
  /-- The names stand for these devices. -/
  resolved : resolve dir args = .ok devices
  /-- The content is encrypted under the content key. -/
  encrypted : streamEncrypt prim draws.contentKey args.plaintext draws.noncePrefix =
    .ok (prepared.framing, prepared.chunks)
  /-- One entry a device. -/
  sealed : List.Forall₂ (fun (e : Device × Nat) w =>
    wrapKey prim draws args.hybridMode e.2 e.1 = .ok w) devices.zipIdx wrapped
  /-- The entries are padded and shuffled. -/
  entries : prepared.wrappedKeys = shuffled draws (padded draws wrapped)

/-- **What `create_drop` prepares.** -/
theorem prepareDrop_ok_iff {args : CreateArgs} {draws : Draws} {dir : Dir} {prepared : Prepared} :
    prepareDrop prim args draws dir = .ok prepared ↔
      ∃ devices wrapped, Prepares prim args draws dir prepared devices wrapped := by
  unfold prepareDrop
  simp only [bind_ok_iff, mapError_ok_iff, check_ok_iff, pure_ok_iff, mapM_ok_iff, Prod.exists]
  constructor
  · rintro ⟨_, hnames, _, hsuite, author, hauthor, list, hlist, recipients, hrecipients, framing,
      chunks, hencrypted, wrapped, hwrapped, rfl⟩
    have hresolved : resolve dir args = .ok recipients.flatten :=
      bind_ok_iff.mpr ⟨list, hlist, bind_ok_iff.mpr ⟨recipients, mapM_ok_iff.mpr hrecipients, rfl⟩⟩
    exact ⟨recipients.flatten, wrapped, by simpa using hnames, hsuite, rfl, hauthor, hresolved,
      hencrypted, hwrapped, rfl⟩
  · rintro ⟨devices, wrapped, h⟩
    obtain ⟨list, hlist, hresolved⟩ := bind_ok_iff.mp h.resolved
    obtain ⟨recipients, hrecipients, hflatten⟩ := bind_ok_iff.mp hresolved
    obtain rfl := pure_ok_iff.mp hflatten
    refine ⟨(), by simpa using h.names, (), h.suite, prepared.identity, h.author, list, hlist,
      recipients, mapM_ok_iff.mp hrecipients, prepared.framing, prepared.chunks, h.encrypted,
      wrapped, h.sealed, ?_⟩
    rw [← h.entries]
    show Prepared.mk _ args.hybridMode _ _ _ = prepared
    rw [← h.mode]

/-- What one call of `seal` makes of the content key, in either mode. -/
def SealedTo (prim : Primitives) (draws : Draws) (hybridMode : Bool) (position : Nat)
    (device : Device) : SealedContentKey → Prop
  | .classical sealed => hybridMode = false ∧ SealedKey.seal prim draws.contentKey device.1
      (draws.seals position).ephemeral (draws.seals position).nonce = .ok sealed
  | .hybrid sealed => hybridMode = true ∧ ∃ bytes pub, device.2 = some bytes ∧
      hybridPublicFromBytes bytes = .ok pub ∧
      hybridSeal prim draws.contentKey pub (draws.seals position).ephemeral
        (draws.seals position).kemRandom (draws.seals position).nonce = .ok sealed

theorem wrapKey_ok_iff {draws : Draws} {hybridMode : Bool} {position : Nat} {device : Device}
    {entry : WrappedKey} :
    wrapKey prim draws hybridMode position device = .ok entry ↔
      deriveTag prim device.1 draws.dropNonce = .ok entry.tag ∧
        SealedTo prim draws hybridMode position device entry.sealed := by
  obtain ⟨tag, sealed⟩ := entry
  unfold wrapKey
  cases hybridMode with
  | false =>
    simp only [Bool.false_eq_true, if_false, bind_ok_iff, mapError_ok_iff, pure_ok_iff,
      WrappedKey.mk.injEq]
    constructor
    · rintro ⟨sealed', hseal, _, rfl, _, htag, rfl, rfl⟩
      exact ⟨htag, rfl, hseal⟩
    · rintro ⟨htag, hsealed⟩
      cases sealed with
      | classical sealed => exact ⟨sealed, hsealed.2, _, rfl, tag, htag, rfl, rfl⟩
      | hybrid sealed => exact absurd hsealed.1 nofun
  | true =>
    cases hdevice : device.2 with
    | none =>
      simp only [if_true]
      refine iff_of_false nofun ?_
      rintro ⟨-, hsealed⟩
      cases sealed with
      | classical sealed => exact absurd hsealed.1 nofun
      | hybrid sealed =>
        obtain ⟨-, bytes, -, hbytes, -⟩ := hsealed
        exact absurd (hdevice.symm.trans hbytes) nofun
    | some bytes =>
      simp only [if_true, bind_ok_iff, mapError_ok_iff, pure_ok_iff, WrappedKey.mk.injEq]
      constructor
      · rintro ⟨_, rfl, pub, hpub, sealed', hseal, _, rfl, _, htag, rfl, rfl⟩
        exact ⟨htag, rfl, bytes, pub, hdevice, hpub, hseal⟩
      · rintro ⟨htag, hsealed⟩
        cases sealed with
        | classical sealed => exact absurd hsealed.1 nofun
        | hybrid sealed =>
          obtain ⟨-, bytes', pub, hbytes, hpub, hseal⟩ := hsealed
          obtain rfl := Option.some.inj (hdevice.symm.trans hbytes)
          exact ⟨bytes, rfl, pub, hpub, sealed, hseal, _, rfl, tag, htag, rfl, rfl⟩

theorem perm_shuffled (draws : Draws) (entries : List WrappedKey) :
    (shuffled draws entries).Perm entries := by
  have hperm := (draws.shuffle entries.length).ofFn_comp_perm entries.get
  rwa [List.ofFn_get] at hperm

section Entries

variable {args : CreateArgs} {draws : Draws} {dir : Dir} {prepared : Prepared}
  {devices : List Device} {wrapped : List WrappedKey}

/-- Each of the sealed entries belongs to a device. -/
theorem Prepares.exists_wrapKey (h : Prepares prim args draws dir prepared devices wrapped)
    {entry : WrappedKey} (hentry : entry ∈ wrapped) :
    ∃ device position, (device, position) ∈ devices.zipIdx ∧
      wrapKey prim draws args.hybridMode position device = .ok entry := by
  obtain ⟨k, hk, rfl⟩ := List.getElem_of_mem hentry
  have hk' : k < devices.zipIdx.length := h.sealed.length_eq ▸ hk
  have hwrap := (List.forall₂_iff_get.mp h.sealed).2 k hk' hk
  exact ⟨_, _, List.getElem_mem hk', hwrap⟩

/-- An entry of a drop is the content key sealed to a device, or a decoy. -/
theorem Prepares.mem_entries (h : Prepares prim args draws dir prepared devices wrapped)
    {entry : WrappedKey} (hentry : entry ∈ prepared.wrappedKeys) :
    (∃ device position, (device, position) ∈ devices.zipIdx ∧
      wrapKey prim draws args.hybridMode position device = .ok entry) ∨
    ∃ i, i < minTags - devices.length ∧ entry = (draws.decoys i).wrapped := by
  rw [h.entries, (perm_shuffled draws _).mem_iff, padded, List.mem_append] at hentry
  have hlen := h.sealed.length_eq
  rw [List.length_zipIdx] at hlen
  rcases hentry with hreal | hdecoy
  · exact Or.inl (h.exists_wrapKey hreal)
  · obtain ⟨i, hi, rfl⟩ := List.mem_map.mp hdecoy
    rw [List.mem_range, ← hlen] at hi
    exact Or.inr ⟨i, hi, rfl⟩

/-- Each device has an entry. -/
theorem Prepares.exists_entry (h : Prepares prim args draws dir prepared devices wrapped)
    {device : Device} (hdevice : device ∈ devices) :
    ∃ entry position, entry ∈ prepared.wrappedKeys ∧ (device, position) ∈ devices.zipIdx ∧
      wrapKey prim draws args.hybridMode position device = .ok entry := by
  obtain ⟨k, hk, rfl⟩ := List.getElem_of_mem hdevice
  have hk' : k < devices.zipIdx.length := by rwa [List.length_zipIdx]
  have hkw : k < wrapped.length := h.sealed.length_eq ▸ hk'
  have hwrap := (List.forall₂_iff_get.mp h.sealed).2 k hk' hkw
  have hget : devices.zipIdx[k] = (devices[k], k) := by rw [List.getElem_zipIdx, Nat.zero_add]
  simp only [List.get_eq_getElem, hget] at hwrap
  refine ⟨wrapped[k], k, ?_, hget ▸ List.getElem_mem hk', hwrap⟩
  rw [h.entries, (perm_shuffled draws _).mem_iff, padded, List.mem_append]
  exact Or.inl (List.getElem_mem hkw)

/-- There are as many chunks as the framing says. -/
theorem Prepares.length_chunks (h : Prepares prim args draws dir prepared devices wrapped) :
    prepared.chunks.length = prepared.framing.total.toNat := by
  obtain ⟨hcount, hframing, hlen, -⟩ := streamEncrypt_ok_iff.mp h.encrypted
  rw [hlen, hframing]
  exact (UInt32.toNat_ofNat_of_lt' hcount).symm

end Entries

/-! ## Storing -/

/-- A loop that returned has gone through its first turn. -/
theorem exec_forM_cons_eq_ok {ε σ α : Type} {f : α → Program ε σ PUnit} {a : α} {l : List α}
    {s s'' : σ} {u : PUnit} (h : (forM (a :: l) f).exec s = (.ok u, s'')) :
    ∃ s' u', (f a).exec s = (.ok u', s') ∧ (forM l f).exec s' = (.ok u, s'') := by
  rw [List.forM_cons] at h
  obtain ⟨u', s', hfirst, hrest⟩ := Program.exec_bind_eq_ok h
  exact ⟨s', u', hfirst, hrest⟩

/-- The chunk files written by a loop that returned. -/
theorem lookup_of_writeChunks {id : DropId} {chunks : List (List UInt8)} {start : Nat}
    {disk disk' : Disk} {u : PUnit}
    (h : (forM (chunks.zipIdx start) fun e : List UInt8 × Nat =>
      (write (.chunk id e.2) e.1).mapErr StoreError.io).exec disk = (.ok u, disk')) :
    ∀ index (hindex : index < chunks.length),
      disk'.dir.lookup (.chunk id (start + index)) = some chunks[index] := by
  induction chunks generalizing start disk with
  | nil => exact fun index hindex => absurd hindex (Nat.not_lt_zero index)
  | cons chunk chunks ih =>
    rw [List.zipIdx_cons] at h
    obtain ⟨middle, u', hfirst, hrest⟩ := exec_forM_cons_eq_ok h
    intro index hindex
    cases index with
    | succ index =>
      have hnext := ih hrest index (Nat.lt_of_succ_lt_succ hindex)
      rw [List.getElem_cons_succ, ← hnext]
      congr 2
      omega
    | zero =>
      -- the later turns write to later indices
      have hwritten := lookup_of_write (Program.exec_mapErr_eq_ok hfirst)
      have hother : ∀ e ∈ chunks.zipIdx (start + 1),
          Allows (fun disk => disk.dir.lookup (.chunk id start) = some chunk) (.chunk id e.2) := by
        intro e he
        refine (ignores_lookup (fun heq => ?_) _).always
        have hle := List.le_snd_of_mem_zipIdx he
        have hindex := (File.chunk.inj heq).2
        omega
      exact (keeps_writeChunks hother).after hwritten hrest

/-- The chunk files, before the envelope is written. -/
theorem exec_storeChunks {signed : SignedDrop} {chunks : List (List UInt8)} {disk disk' : Disk}
    (h : (storeChunks prim signed chunks).exec disk = (.ok (), disk')) :
    ∀ index (hindex : index < chunks.length),
      disk'.dir.lookup (.chunk (signed.id prim) index) = some chunks[index] := by
  obtain ⟨_, _, -, h⟩ := Program.exec_bind_eq_ok h
  obtain ⟨_, written, hchunks, h⟩ := Program.exec_bind_eq_ok h
  obtain ⟨_, ready, hready, h⟩ := Program.exec_bind_eq_ok h
  obtain ⟨-, rfl⟩ := Program.exec_pure_eq_ok h
  intro index hindex
  have hwritten := lookup_of_writeChunks hchunks index hindex
  rw [Nat.zero_add] at hwritten
  have hmade : Allows (fun disk => disk.dir.lookup (.chunk (signed.id prim) index) =
      some chunks[index]) .logEntries := (ignores_lookup (by nofun) _).always
  exact hmade.createDirAll.ok.after hwritten hready

/-- **The files of a drop whose storing returned.** The log entry bounds the envelope. -/
theorem exec_storeDrop {signed : SignedDrop} {chunks : List (List UInt8)} {disk disk' : Disk}
    (h : (storeDrop prim signed chunks).exec disk = (.ok (), disk')) :
    signed.raw.length < 2 ^ 32 ∧
    disk'.dir.lookup (.drop (signed.id prim)) = some signed.raw ∧
      ∀ index (hindex : index < chunks.length),
        disk'.dir.lookup (.chunk (signed.id prim) index) = some chunks[index] := by
  rw [storeDrop_eq] at h
  obtain ⟨⟨⟩, ready, hchunks, h⟩ := Program.exec_bind_eq_ok h
  obtain ⟨_, stored, hdrop, hlog⟩ := Program.exec_bind_eq_ok h
  refine ⟨fits_of_exec_appendLogEntry hlog, ?_, ?_⟩
  · have hwritten := lookup_of_write (Program.exec_mapErr_eq_ok hdrop)
    exact (keeps_appendLogEntry (ignores_lookup (by nofun) _).always _).after hwritten hlog
  · intro index hindex
    -- neither the envelope nor the log entry touches a chunk
    let there (disk : Disk) : Prop :=
      disk.dir.lookup (.chunk (signed.id prim) index) = some chunks[index]
    have hlogged : Allows there .logEntries := (ignores_lookup (by nofun) _).always
    have henvelope : Allows there (.drop (signed.id prim)) := (ignores_lookup (by nofun) _).always
    have hstored : there stored :=
      ((henvelope.write _).mapErr _).after (exec_storeChunks hchunks index hindex) hdrop
    exact (keeps_appendLogEntry hlogged _).after hstored hlog

/-! ## Creating -/

/-- The files of a drop made from what was prepared, with the envelope and its body. -/
structure Created (prim : Primitives) (draws : Draws) (prepared : Prepared) (created : CreatedDrop)
    (dir : Dir) (signed : SignedDrop) (body : DropBody) : Prop where
  /-- The entries are the prepared ones. -/
  wrappedKeys : body.wrappedKeys = prepared.wrappedKeys
  /-- The framing is that of the encryption. -/
  framing : framingOf body = prepared.framing
  /-- The tags were derived from this nonce. -/
  dropNonce : body.dropNonce = draws.dropNonce
  /-- The envelope is the encoding of its fields. -/
  encoded : signed.raw = signed.encode
  /-- It is small. -/
  small : signed.raw.length < 2 ^ 32
  /-- Its payload is the body. -/
  payload : signed.payload = body.toCanonical
  /-- Its signature is valid. -/
  verified : SignatureLaws prim → signed.verify prim = .ok ()
  /-- The proof of work is valid. -/
  pow : body.powOk prim signed.signer = true
  /-- The id returned is that of the envelope. -/
  id : created.id = signed.id prim
  /-- The number of chunks returned. -/
  count : created.chunks = prepared.framing.total
  /-- The envelope is stored. -/
  envelope : dir.lookup (.drop created.id) = some signed.raw
  /-- The chunks are stored. -/
  chunks : ∀ index (h : index < prepared.chunks.length),
    dir.lookup (.chunk created.id index) = some prepared.chunks[index]

/-- What `create_drop` signs is the encoding of its fields, carries the body and verifies. -/
theorem exec_signBody {draws : Draws} {prepared : Prepared} {body : DropBody}
    {signed : SignedDrop} {disk disk' : Disk}
    (h : (signBody prim draws prepared body).exec disk = (.ok signed, disk')) :
    signed.raw = signed.encode ∧ signed.payload = body.toCanonical ∧
      signed.signer = prepared.identity.signingPublic prim ∧
      (SignatureLaws prim → signed.verify prim = .ok ()) := by
  unfold signBody at h
  split at h
  case isTrue =>
    obtain ⟨mlDsa, _, -, hsign⟩ := Program.exec_bind_eq_ok h
    have hsigned := mapError_ok_iff.mp (Program.exec_ofExcept_eq_ok hsign).1
    have hverify := fun laws : SignatureLaws prim => signHybrid_verify laws hsigned
    obtain ⟨_, -, rfl⟩ := signHybrid_ok_iff.mp hsigned
    exact ⟨rfl, rfl, rfl, hverify⟩
  case isFalse =>
    obtain ⟨rfl, -⟩ := Program.exec_pure_eq_ok h
    exact ⟨rfl, rfl, rfl, fun laws => sign_verify laws prepared.identity body⟩

/-- The fields of the body that opening it depends on. -/
theorem bodyOf_ok {args : CreateArgs} {draws : Draws} {prepared : Prepared} {powNonce now : UInt64}
    {cell : String} {body : DropBody}
    (h : bodyOf prim args draws prepared powNonce cell now = .ok body) :
    body.wrappedKeys = prepared.wrappedKeys ∧ framingOf body = prepared.framing ∧
      body.dropNonce = draws.dropNonce ∧ body.contentRoot = contentRoot prim prepared.chunks ∧
      body.powNonce = powNonce := by
  obtain ⟨_, -, hfields⟩ := bind_ok_iff.mp h
  obtain rfl := pure_ok_iff.mp hfields
  exact ⟨rfl, rfl, rfl, rfl, rfl⟩

/-- The fields that say where it is. -/
theorem bodyOf_place {args : CreateArgs} {draws : Draws} {prepared : Prepared}
    {powNonce now : UInt64} {cell : String} {body : DropBody}
    (h : bodyOf prim args draws prepared powNonce cell now = .ok body) :
    body.cell = cell ∧ body.ring = args.ring := by
  obtain ⟨_, -, hfields⟩ := bind_ok_iff.mp h
  obtain rfl := pure_ok_iff.mp hfields
  exact ⟨rfl, rfl⟩

/-- What `create_drop` leaves when it returns, with the cell and the body it made. -/
theorem exec_createDrop_bodyOf {cellAt : Float → Float → UInt8 → Except CoreError String}
    {now : UInt64} {args : CreateArgs} {draws : Draws} {disk disk' : Disk} {created : CreatedDrop}
    (h : (createDrop prim cellAt now args draws).exec disk = (.ok created, disk')) :
    ∃ prepared powNonce cell signed body, prepareDrop prim args draws disk.dir = .ok prepared ∧
      cellAt args.lat args.lng args.res = .ok cell ∧
      bodyOf prim args draws prepared powNonce cell now = .ok body ∧
      Created prim draws prepared created disk'.dir signed body := by
  obtain ⟨prepared, _, hprepared, h⟩ := Program.exec_bind_eq_ok h
  obtain ⟨powNonce, _, hnonce, h⟩ := Program.exec_bind_eq_ok h
  obtain ⟨cell, _, hcell, h⟩ := Program.exec_bind_eq_ok h
  obtain ⟨body, _, hbody, h⟩ := Program.exec_bind_eq_ok h
  obtain ⟨signed, _, hsigned, h⟩ := Program.exec_bind_eq_ok h
  obtain ⟨⟨⟩, _, hstored, h⟩ := Program.exec_bind_eq_ok h
  obtain ⟨rfl, rfl⟩ := Program.exec_pure_eq_ok h
  obtain ⟨hencoded, hpayload, hsigner, hverify⟩ :=
    exec_signBody (Program.exec_mapErr_eq_ok hsigned)
  obtain ⟨hsmall, henvelope, hchunks⟩ := exec_storeDrop (Program.exec_mapErr_eq_ok hstored)
  have hmined : mine prim (prepared.identity.signingPublic prim)
      (contentRoot prim prepared.chunks) draws.dropNonce = some powNonce := by
    have hmatch := (Program.exec_ofExcept_eq_ok hnonce).1
    split at hmatch
    case h_1 nonce hmine => rw [hmine, Except.ok.inj hmatch]
    case h_2 => exact absurd hmatch nofun
  have hmade := mapError_ok_iff.mp (Program.exec_ofExcept_eq_ok hbody).1
  obtain ⟨hkeys, hframing, hdropNonce, hroot, hpow⟩ := bodyOf_ok hmade
  have hworked : body.powOk prim signed.signer = true := by
    unfold DropBody.powOk
    rw [hsigner, hroot, hdropNonce, hpow]
    exact mine_valid hmined
  exact ⟨prepared, powNonce, cell, signed, body,
    mapError_ok_iff.mp (Program.exec_reads_eq_ok hprepared).1,
    mapError_ok_iff.mp (Program.exec_ofExcept_eq_ok hcell).1, hmade, hkeys, hframing, hdropNonce,
    hencoded, hsmall, hpayload, hverify, hworked, rfl, rfl, henvelope, hchunks⟩

/-- **What `create_drop` leaves when it returns.** -/
theorem exec_createDrop {cellAt : Float → Float → UInt8 → Except CoreError String}
    {now : UInt64} {args : CreateArgs} {draws : Draws} {disk disk' : Disk} {created : CreatedDrop}
    (h : (createDrop prim cellAt now args draws).exec disk = (.ok created, disk')) :
    ∃ prepared signed body, prepareDrop prim args draws disk.dir = .ok prepared ∧
      Created prim draws prepared created disk'.dir signed body := by
  obtain ⟨prepared, _, _, signed, body, hprepared, -, -, hcreated⟩ := exec_createDrop_bodyOf h
  exact ⟨prepared, signed, body, hprepared, hcreated⟩

/-- When the envelope is to be written, all chunks of its body are there. -/
theorem exec_untilEnvelope {cellAt : Float → Float → UInt8 → Except CoreError String}
    {now : UInt64} {args : CreateArgs} {draws : Draws} {disk disk' : Disk} {signed : SignedDrop}
    {created : CreatedDrop}
    (h : (untilEnvelope prim cellAt now args draws).exec disk = (.ok (signed, created), disk')) :
    signed.raw = signed.encode ∧ ∃ body : DropBody, signed.payload = body.toCanonical ∧
      ∀ index < body.chunkCount.toNat,
        ∃ chunk, disk'.dir.lookup (.chunk (signed.id prim) index) = some chunk := by
  obtain ⟨prepared, _, hprepared, h⟩ := Program.exec_bind_eq_ok h
  obtain ⟨powNonce, _, -, h⟩ := Program.exec_bind_eq_ok h
  obtain ⟨cell, _, -, h⟩ := Program.exec_bind_eq_ok h
  obtain ⟨body, _, hbody, h⟩ := Program.exec_bind_eq_ok h
  obtain ⟨signed', _, hsigned, h⟩ := Program.exec_bind_eq_ok h
  obtain ⟨⟨⟩, _, hstored, h⟩ := Program.exec_bind_eq_ok h
  obtain ⟨hpair, rfl⟩ := Program.exec_pure_eq_ok h
  obtain ⟨rfl, -⟩ := Prod.mk.inj hpair
  obtain ⟨hencoded, hpayload, -, -⟩ := exec_signBody (Program.exec_mapErr_eq_ok hsigned)
  obtain ⟨-, hframing, -⟩ := bodyOf_ok (mapError_ok_iff.mp (Program.exec_ofExcept_eq_ok hbody).1)
  obtain ⟨devices, wrapped, hprepares⟩ :=
    prepareDrop_ok_iff.mp (mapError_ok_iff.mp (Program.exec_reads_eq_ok hprepared).1)
  have hcount : body.chunkCount.toNat = prepared.chunks.length := by
    rw [hprepares.length_chunks, ← hframing]
    rfl
  refine ⟨hencoded, body, hpayload, fun index hindex => ?_⟩
  exact ⟨_, exec_storeChunks (Program.exec_mapErr_eq_ok hstored) index (hcount ▸ hindex)⟩

theorem id_of_untilEnvelope {cellAt : Float → Float → UInt8 → Except CoreError String}
    {now : UInt64} {args : CreateArgs} {draws : Draws} {disk disk' : Disk} {signed : SignedDrop}
    {created : CreatedDrop}
    (h : (untilEnvelope prim cellAt now args draws).exec disk = (.ok (signed, created), disk')) :
    created.id = signed.id prim := by
  obtain ⟨_, _, -, h⟩ := Program.exec_bind_eq_ok h
  obtain ⟨_, _, -, h⟩ := Program.exec_bind_eq_ok h
  obtain ⟨_, _, -, h⟩ := Program.exec_bind_eq_ok h
  obtain ⟨_, _, -, h⟩ := Program.exec_bind_eq_ok h
  obtain ⟨_, _, -, h⟩ := Program.exec_bind_eq_ok h
  obtain ⟨_, _, -, h⟩ := Program.exec_bind_eq_ok h
  obtain ⟨hpair, -⟩ := Program.exec_pure_eq_ok h
  obtain ⟨rfl, rfl⟩ := Prod.mk.inj hpair
  rfl

/-- `create_drop` leaves the envelopes of all drops but one. -/
theorem exec_createDrop_others (prim : Primitives)
    (cellAt : Float → Float → UInt8 → Except CoreError String) (now : UInt64) (args : CreateArgs)
    (draws : Draws) (disk : Disk) :
    ∃ id, (∀ created, ((createDrop prim cellAt now args draws).exec disk).1 = .ok created →
        created.id = id) ∧
      ∀ other, other ≠ id →
        ((createDrop prim cellAt now args draws).exec disk).2.dir.lookup (.drop other) =
          disk.dir.lookup (.drop other) := by
  have hchunk : ∀ other id index, Allows (fun disk' : Disk => disk'.dir.lookup (.drop other) =
      disk.dir.lookup (.drop other)) (.chunk id index) := fun _ _ _ =>
    (ignores_lookup (by nofun) _).always
  have huntil := fun other => keeps_untilEnvelope prim
    (keeps_mldsaOrCreate prim (ignores_lookup (by nofun) _).always draws.mlDsa)
    (hchunk other) cellAt now args disk rfl
  rw [createDrop_eq]
  cases hexec : (untilEnvelope prim cellAt now args draws).exec disk with
  | mk r disk' =>
    rw [hexec] at huntil
    cases r with
    | error e =>
      rw [Program.exec_bind_error hexec]
      exact ⟨⟨List.Vector.replicate 32 0⟩, nofun, fun other _ => (huntil other).1⟩
    | ok pair =>
      obtain ⟨signed, created⟩ := pair
      rw [Program.exec_bind_ok hexec]
      refine ⟨signed.id prim, fun created' hcreated => ?_, fun other hne => ?_⟩
      · obtain ⟨_, _, -, hpure⟩ := Program.exec_bind_eq_ok (Prod.ext hcreated rfl)
        obtain ⟨rfl, -⟩ := Program.exec_pure_eq_ok hpure
        exact id_of_untilEnvelope hexec
      · have hother : Allows (fun disk' : Disk => disk'.dir.lookup (.drop other) =
            disk.dir.lookup (.drop other)) (.drop (signed.id prim)) :=
          (ignores_lookup (fun heq => hne (File.drop.inj heq)) _).always
        have hstore := keeps_storeEnvelope prim (ignores_lookup (by nofun) _).always
          (hother.write signed.raw)
        exact (((hstore.mapErr Stop.error).bind fun _ _ =>
          Keeps.pure (Q := fun _ => True) trivial) disk' (huntil other).1).1

section Stored

variable {draws : Draws} {prepared : Prepared} {created : CreatedDrop} {dir : Dir}
  {signed : SignedDrop} {body : DropBody}

/-- The stored bytes decode to the envelope. -/
theorem Created.decode (h : Created prim draws prepared created dir signed body) :
    SignedDrop.decode signed.raw = .ok signed :=
  decode_raw h.encoded (h.small.trans (by decide))

/-- The envelope carries the body. -/
theorem Created.carries (h : Created prim draws prepared created dir signed body) :
    signed.body = .ok body :=
  body_of_payload h.payload (h.encoded ▸ h.small.trans (by decide))

/-- The stored envelope is read back with its body. -/
theorem Created.readDrop (h : Created prim draws prepared created dir signed body) :
    readDrop dir created.id = .ok (signed, body) :=
  readDrop_ok_iff.mpr ⟨signed.raw, h.envelope, h.decode, h.carries⟩

end Stored

/-- **Where the drop is that `create_drop` has stored**: in the cell it computed, with the ring it
was given. -/
theorem exec_createDrop_place {cellAt : Float → Float → UInt8 → Except CoreError String}
    {now : UInt64} {args : CreateArgs} {draws : Draws} {disk disk' : Disk} {created : CreatedDrop}
    (h : (createDrop prim cellAt now args draws).exec disk = (.ok created, disk')) :
    ∃ signed body, readDrop disk'.dir created.id = .ok (signed, body) ∧
      cellAt args.lat args.lng args.res = .ok body.cell ∧ body.ring = args.ring := by
  obtain ⟨_, _, cell, signed, body, -, hcell, hbody, hcreated⟩ := exec_createDrop_bodyOf h
  obtain ⟨rfl, hring⟩ := bodyOf_place hbody
  exact ⟨signed, body, hcreated.readDrop, hcell, hring⟩

/-! ## When creating returns -/

theorem returns_storeDrop {signed : SignedDrop} (hsmall : signed.raw.length < 2 ^ 32)
    (chunks : List (List UInt8)) : Returns Disk.Quiet (storeDrop prim signed chunks) := by
  refine ((returns_call _ _).mapErr _).bind fun _ => ?_
  refine (Returns.forM _ fun _ _ => (returns_call _ _).mapErr _).bind fun _ => ?_
  refine (returns_call _ _).ok.bind fun _ => ?_
  refine ((returns_call _ _).mapErr _).bind fun _ => ?_
  exact returns_appendLogEntry hsmall

/-- `create_drop` returns once the drop is prepared, mining ends, there is a cell, and the body is
signed, on a disk that then fails no call, in an envelope that is small enough for the log. -/
theorem exec_createDrop_of_signed {cellAt : Float → Float → UInt8 → Except CoreError String}
    {now powNonce : UInt64} {args : CreateArgs} {draws : Draws} {start disk : Disk}
    {prepared : Prepared} {cell : String} {body : DropBody} {signed : SignedDrop}
    (hprepared : prepareDrop prim args draws start.dir = .ok prepared)
    (hmined : mine prim (prepared.identity.signingPublic prim) (contentRoot prim prepared.chunks)
      draws.dropNonce = some powNonce)
    (hcell : cellAt args.lat args.lng args.res = .ok cell)
    (hbody : bodyOf prim args draws prepared powNonce cell now = .ok body)
    (hsigned : (signBody prim draws prepared body).exec start = (.ok signed, disk))
    (hquiet : disk.Quiet) (hsmall : signed.raw.length < 2 ^ 32) :
    ∃ created disk', (createDrop prim cellAt now args draws).exec start = (.ok created, disk') ∧
      disk'.Quiet := by
  obtain ⟨⟨⟩, disk', hstored, hquiet'⟩ :=
    @returns_storeDrop prim signed hsmall prepared.chunks disk hquiet
  have hreads : (Program.reads fun disk : Disk =>
      (prepareDrop prim args draws disk.dir).mapError Stop.error).exec start =
      (.ok prepared, start) := Prod.ext (mapError_ok_iff.mpr hprepared) rfl
  refine ⟨⟨signed.id prim, body.cell, prepared.framing.total, args.plaintext.length, body.suite,
    signed.sigKind⟩, disk', ?_, hquiet'⟩
  unfold createDrop
  rw [Program.exec_bind_ok hreads, Program.exec_ofExcept_bind (by rw [hmined]),
    Program.exec_ofExcept_bind (mapError_ok_iff.mpr hcell),
    Program.exec_ofExcept_bind (mapError_ok_iff.mpr hbody),
    Program.exec_bind_ok (Program.exec_mapErr_ok hsigned),
    Program.exec_bind_ok (Program.exec_mapErr_ok hstored)]
  rfl

/-- **`create_drop` returns** on a disk that fails no call, once the drop is prepared, mining ends,
there is a cell, and the signed envelope is small enough for the log. -/
theorem exists_exec_createDrop {cellAt : Float → Float → UInt8 → Except CoreError String}
    {now powNonce : UInt64} {args : CreateArgs} {draws : Draws} {dir : Dir} {prepared : Prepared}
    {cell : String} {body : DropBody} (hprepared : prepareDrop prim args draws dir = .ok prepared)
    (hmined : mine prim (prepared.identity.signingPublic prim) (contentRoot prim prepared.chunks)
      draws.dropNonce = some powNonce)
    (hcell : cellAt args.lat args.lng args.res = .ok cell)
    (hbody : bodyOf prim args draws prepared powNonce cell now = .ok body)
    (hsigned : ∃ signed disk, (signBody prim draws prepared body).exec ⟨dir, []⟩ =
      (.ok signed, disk) ∧ disk.Quiet ∧ signed.raw.length < 2 ^ 32) :
    ∃ created disk', (createDrop prim cellAt now args draws).exec ⟨dir, []⟩ =
      (.ok created, disk') := by
  obtain ⟨signed, disk, hsigned, hquiet, hsmall⟩ := hsigned
  obtain ⟨created, disk', hcreate, -⟩ :=
    exec_createDrop_of_signed hprepared hmined hcell hbody hsigned hquiet hsmall
  exact ⟨created, disk', hcreate⟩

end Keepstone.Store
