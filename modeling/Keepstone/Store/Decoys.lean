import Keepstone.Crypto.Stream
import Keepstone.Store.Creatable
import Mathlib.Data.List.Perm.Basic

/-!
# What the decoys hide (`crates/store/src/lib.rs:451-492`)

`create_drop` pads the entries to `MIN_TAGS` with decoys and shuffles them, so that the number of
recipients does not show. A decoy is always a classical entry, also in a hybrid drop.

Results:
* `Prepares.shapes`: the shapes of the entries, up to their order;
* **`counts_hidden_iff`**: two drops of one suite have entries of the same shapes exactly when the
  suite is classical or they have the same number of recipient devices.
-/

namespace Keepstone.Store

open Keepstone.Lib Keepstone.Crypto Keepstone.Core

variable {prim : Primitives}

/-! ## Shapes -/

/-- The lengths of what the algorithms return: XChaCha20-Poly1305 adds a tag of 16 bytes, an
ML-KEM-768 ciphertext has 1088 bytes. -/
structure LengthLaws (prim : Primitives) : Prop where
  aead : ∀ key nonce aad plaintext ciphertext,
    prim.aeadEncrypt key nonce aad plaintext = some ciphertext →
    ciphertext.length = plaintext.length + 16
  mlKem : ∀ key random ciphertext shared,
    prim.mlKemEncapsulate key random = some (ciphertext, shared) → ciphertext.length = 1088

/-- The shape of an entry that was sealed to a device. -/
def slotShape (hybridMode : Bool) : UInt8 × List Nat :=
  if hybridMode then (2, [8, 32, 1088, 24, 48]) else (1, [8, 32, 24, 48])

theorem length_of_aeadSeal (laws : LengthLaws prim) {key : Bytes 32} {nonce : Bytes 24}
    {aad : List UInt8} {contentKey : Bytes 32} {ciphertext : List UInt8}
    (h : aeadSeal prim key nonce aad contentKey.toList = .ok ciphertext) :
    ciphertext.length = 48 := by
  unfold aeadSeal at h
  split at h
  case h_1 ciphertext' hencrypt =>
    obtain rfl := Except.ok.inj h
    rw [laws.aead _ _ _ _ _ hencrypt, List.Vector.toList_length]
  case h_2 => exact absurd h nofun

theorem length_of_seal (laws : LengthLaws prim) {contentKey recipient ephemeral : Bytes 32}
    {nonce : Bytes 24} {sealed : SealedKey}
    (h : SealedKey.seal prim contentKey recipient ephemeral nonce = .ok sealed) :
    sealed.ciphertext.length = 48 := by
  obtain ⟨key, -, h⟩ := bind_ok_iff.mp h
  obtain ⟨ciphertext, hseal, h⟩ := bind_ok_iff.mp h
  obtain rfl := pure_ok_iff.mp h
  exact length_of_aeadSeal laws hseal

theorem length_of_hybridSeal (laws : LengthLaws prim) {contentKey ephemeral kemRandom : Bytes 32}
    {recipient : HybridPublic} {nonce : Bytes 24} {sealed : HybridSealed}
    (h : hybridSeal prim contentKey recipient ephemeral kemRandom nonce = .ok sealed) :
    sealed.kemCiphertext.length = 1088 ∧ sealed.ciphertext.length = 48 := by
  unfold hybridSeal at h
  cases hkem : prim.mlKemEncapsulate recipient.kem kemRandom with
  | none =>
    rw [hkem] at h
    exact absurd h nofun
  | some encapsulated =>
    obtain ⟨kemCiphertext, kemShared⟩ := encapsulated
    rw [hkem] at h
    obtain ⟨pair, hpair, h⟩ := bind_ok_iff.mp h
    obtain rfl := pure_ok_iff.mp hpair
    obtain ⟨key, -, h⟩ := bind_ok_iff.mp h
    obtain ⟨ciphertext, hseal, h⟩ := bind_ok_iff.mp h
    obtain rfl := pure_ok_iff.mp h
    exact ⟨laws.mlKem _ _ _ _ hkem, length_of_aeadSeal laws hseal⟩

/-- An entry for a device has the shape of its suite. -/
theorem shape_of_wrapKey (laws : LengthLaws prim) {draws : Draws} {hybridMode : Bool}
    {position : Nat} {device : Device} {entry : WrappedKey}
    (h : wrapKey prim draws hybridMode position device = .ok entry) :
    entry.shape = slotShape hybridMode := by
  obtain ⟨-, hsealed⟩ := wrapKey_ok_iff.mp h
  obtain ⟨tag, sealed⟩ := entry
  cases sealed with
  | classical sealed =>
    obtain ⟨rfl, hseal⟩ := hsealed
    simp only [WrappedKey.shape, WrappedKey.fieldLengths, SealedContentKey.suiteId,
      List.Vector.toList_length, length_of_seal laws hseal]
    rfl
  | hybrid sealed =>
    obtain ⟨rfl, _, _, -, -, hseal⟩ := hsealed
    obtain ⟨hkem, hciphertext⟩ := length_of_hybridSeal laws hseal
    simp only [WrappedKey.shape, WrappedKey.fieldLengths, SealedContentKey.suiteId,
      List.Vector.toList_length, hkem, hciphertext]
    rfl

/-- A decoy has the classical shape. -/
theorem shape_decoy (decoy : Decoy) : decoy.wrapped.shape = slotShape false := by
  simp only [Decoy.wrapped, WrappedKey.shape, WrappedKey.fieldLengths, SealedContentKey.suiteId,
    List.Vector.toList_length]
  rfl

/-- **The shapes of the entries of a drop**, up to their order: one of the suite for each device,
and classical ones for the decoys. -/
theorem Prepares.shapes (laws : LengthLaws prim) {args : CreateArgs} {draws : Draws} {dir : Dir}
    {prepared : Prepared} {devices : List Device} {wrapped : List WrappedKey}
    (h : Prepares prim args draws dir prepared devices wrapped) :
    (prepared.wrappedKeys.map WrappedKey.shape).Perm
      (List.replicate devices.length (slotShape args.hybridMode) ++
        List.replicate (minTags - devices.length) (slotShape false)) := by
  have hlen : wrapped.length = devices.length := by
    rw [← h.sealed.length_eq, List.length_zipIdx]
  have hreal : wrapped.map WrappedKey.shape =
      List.replicate devices.length (slotShape args.hybridMode) := by
    refine List.eq_replicate_iff.mpr ⟨by rw [List.length_map, hlen], fun shape hshape => ?_⟩
    obtain ⟨entry, hentry, rfl⟩ := List.mem_map.mp hshape
    obtain ⟨_, _, -, hwrap⟩ := h.exists_wrapKey hentry
    exact shape_of_wrapKey laws hwrap
  have hdecoys : ((List.range (minTags - wrapped.length)).map fun i =>
      (draws.decoys i).wrapped).map WrappedKey.shape =
      List.replicate (minTags - devices.length) (slotShape false) := by
    refine List.eq_replicate_iff.mpr ⟨?_, fun shape hshape => ?_⟩
    · rw [List.length_map, List.length_map, List.length_range, hlen]
    · obtain ⟨entry, hentry, rfl⟩ := List.mem_map.mp hshape
      obtain ⟨i, -, rfl⟩ := List.mem_map.mp hentry
      exact shape_decoy _
  have hperm := (perm_shuffled draws (padded draws wrapped)).map WrappedKey.shape
  rw [← h.entries] at hperm
  refine hperm.trans (List.Perm.of_eq ?_)
  rw [padded, List.map_append, hreal, hdecoys]

/-- No entry takes more than 2 KiB. -/
theorem length_entries_le {count : Nat} {hybridMode : Bool} {entries : List WrappedKey}
    (hshapes : (entries.map WrappedKey.shape).Perm
      (List.replicate count (slotShape hybridMode) ++
        List.replicate (minTags - count) (slotShape false))) :
    (entries.flatMap WrappedKey.toCanonical).length ≤ 2048 * (count + (minTags - count)) := by
  have hslot : encodedLength (slotShape hybridMode) ≤ 2048 := by
    cases hybridMode with
    | false => decide +kernel
    | true => decide +kernel
  have hdecoy : encodedLength (slotShape false) ≤ 2048 := by decide +kernel
  rw [length_wrappedKeys, (hshapes.map encodedLength).sum_eq, List.map_append, List.sum_append,
    List.map_replicate, List.map_replicate, List.sum_replicate, List.sum_replicate, smul_eq_mul,
    smul_eq_mul]
  have hslots := Nat.mul_le_mul_left count hslot
  have hdecoys := Nat.mul_le_mul_left (minTags - count) hdecoy
  omega

/-- **What can be created is**, for at most 2^20 devices. -/
theorem returns_createDrop (laws : ReturnLaws prim) (lengths : LengthLaws prim)
    {cellAt : Float → Float → UInt8 → Except CoreError String}
    (hcells : ∀ lat lng res cell, cellAt lat lng res = .ok cell → (utf8 cell).length ≤ 16)
    {args : CreateArgs} {draws : Draws} {disk : Disk} (now : UInt64)
    (h : Creatable prim cellAt args draws disk.dir) (hquiet : disk.Quiet)
    (hcount : ∀ devices, resolve disk.dir args = .ok devices → devices.length ≤ 2 ^ 20) :
    ∃ created disk', (createDrop prim cellAt now args draws).exec disk = (.ok created, disk') ∧
      disk'.Quiet := by
  refine exec_createDrop_of_creatable laws h hquiet fun cell prepared hcell hprepared => ?_
  obtain ⟨devices, wrapped, hprepares⟩ := prepareDrop_ok_iff.mp hprepared
  have hdevices := hcount devices hprepares.resolved
  have htext := hcells _ _ _ _ hcell
  have hentries := length_entries_le (hprepares.shapes lengths)
  have htags : minTags = 16 := rfl
  omega

/-- The same, of a stored drop. -/
theorem shapes_of_createDrop (laws : LengthLaws prim)
    {cellAt : Float → Float → UInt8 → Except CoreError String} {now : UInt64} {args : CreateArgs}
    {draws : Draws} {disk stored : Disk} {created : CreatedDrop} {devices : List Device}
    {signed : SignedDrop} {body : DropBody}
    (hcreate : (createDrop prim cellAt now args draws).exec disk = (.ok created, stored))
    (hdevices : resolve disk.dir args = .ok devices)
    (hread : readDrop stored.dir created.id = .ok (signed, body)) :
    (body.wrappedKeys.map WrappedKey.shape).Perm
      (List.replicate devices.length (slotShape args.hybridMode) ++
        List.replicate (minTags - devices.length) (slotShape false)) := by
  obtain ⟨prepared, signed', body', hprepared, hcreated⟩ := exec_createDrop hcreate
  obtain ⟨devices', wrapped, h⟩ := prepareDrop_ok_iff.mp hprepared
  obtain rfl := Except.ok.inj (hdevices.symm.trans h.resolved)
  obtain ⟨-, rfl⟩ := Prod.mk.inj (Except.ok.inj (hread.symm.trans hcreated.readDrop))
  rw [hcreated.wrappedKeys]
  exact h.shapes laws

/-! ## Two drops -/

/-- The entries of two bodies look the same: as many, of the same shapes up to their order, and
with encodings of the same length. -/
structure SameShape (body other : DropBody) : Prop where
  slots : body.wrappedKeys.length = other.wrappedKeys.length
  shapes : (body.wrappedKeys.map WrappedKey.shape).Perm (other.wrappedKeys.map WrappedKey.shape)
  encoded : (body.wrappedKeys.flatMap WrappedKey.toCanonical).length =
    (other.wrappedKeys.flatMap WrappedKey.toCanonical).length

theorem sameShape_iff {body other : DropBody} :
    SameShape body other ↔
      (body.wrappedKeys.map WrappedKey.shape).Perm (other.wrappedKeys.map WrappedKey.shape) := by
  constructor
  · exact SameShape.shapes
  · intro hshapes
    refine ⟨?_, hshapes, ?_⟩
    · have hlen := hshapes.length_eq
      rwa [List.length_map, List.length_map] at hlen
    · rw [length_wrappedKeys, length_wrappedKeys]
      exact (hshapes.map encodedLength).sum_eq

/-- Two lists padded with one value to one length are the same up to order exactly when what they
are padded to is that value, or they are equally long. -/
theorem perm_padded_iff {α : Type} [DecidableEq α] {a b : α} {m n total : Nat} (hm : m ≤ total)
    (hn : n ≤ total) :
    (List.replicate m a ++ List.replicate (total - m) b).Perm
      (List.replicate n a ++ List.replicate (total - n) b) ↔ a = b ∨ m = n := by
  constructor
  · intro h
    by_cases hab : a = b
    · exact Or.inl hab
    · have hcount := h.count_eq a
      simp only [List.count_append, List.count_replicate_self, List.count_replicate,
        beq_iff_eq, Ne.symm hab, if_false, Nat.add_zero] at hcount
      exact Or.inr hcount
  · rintro (rfl | rfl)
    · rw [List.replicate_append_replicate, List.replicate_append_replicate,
        Nat.add_sub_of_le hm, Nat.add_sub_of_le hn]
    · rfl

/-- **When the decoys hide the number of recipients.** Two calls of `create_drop` that returned,
with one suite and at most `MIN_TAGS` devices each, have stored entries that look the same exactly
when the suite is classical or the numbers are equal. In a hybrid drop the decoys are the entries
of the other kind. -/
theorem counts_hidden_iff (prim : Primitives) (laws : LengthLaws prim)
    (cellAt : Float → Float → UInt8 → Except CoreError String) (now now' : UInt64)
    (args args' : CreateArgs) (draws draws' : Draws) (disk disk' stored stored' : Disk)
    (created created' : CreatedDrop)
    (hcreate : (createDrop prim cellAt now args draws).exec disk = (.ok created, stored))
    (hcreate' : (createDrop prim cellAt now' args' draws').exec disk' = (.ok created', stored'))
    (hsuite : args'.hybridMode = args.hybridMode) (devices devices' : List Device)
    (hdevices : resolve disk.dir args = .ok devices)
    (hdevices' : resolve disk'.dir args' = .ok devices')
    (hcount : devices.length ≤ minTags) (hcount' : devices'.length ≤ minTags)
    (signed signed' : SignedDrop) (body body' : DropBody)
    (hread : readDrop stored.dir created.id = .ok (signed, body))
    (hread' : readDrop stored'.dir created'.id = .ok (signed', body')) :
    SameShape body body' ↔ args.hybridMode = false ∨ devices.length = devices'.length := by
  have hshapes := shapes_of_createDrop laws hcreate hdevices hread
  have hshapes' := shapes_of_createDrop laws hcreate' hdevices' hread'
  rw [hsuite] at hshapes'
  have hdecoy : slotShape args.hybridMode = slotShape false ↔ args.hybridMode = false := by
    cases args.hybridMode with
    | false => exact iff_of_true rfl rfl
    | true => exact iff_of_false (by decide) (by decide)
  rw [sameShape_iff, ← hdecoy, ← perm_padded_iff hcount hcount']
  constructor
  · intro h
    exact hshapes.symm.trans (h.trans hshapes')
  · intro h
    exact hshapes.trans (h.trans hshapes'.symm)

/-! ## A known author

The author of the known drop, with one contact device; the names may repeat it. -/

namespace KnownAuthor

open Keepstone.Core.KnownAnswers

/-- The recipient's hybrid keypair. -/
def keypair : HybridKeypair := ⟨recipient.ecdh, List.Vector.replicate 64 6⟩

/-- The bytes of its public key. -/
def hybridKey : List UInt8 :=
  (keypair.public sending).x25519.toList ++ (keypair.public sending).kem

/-- The recipient's device, as a contact. -/
def contact : Contact :=
  ⟨"bob", recipient.signingPublic sending, recipientPublic, some hybridKey⟩

/-- The same, as a recipient. -/
def device : Device := (contact.ecdh, contact.hybrid)

/-- The contacts file. -/
def contactsText : List Char :=
  "bob ".toList ++ hexEncode contact.signing.toList ++ ' ' ::
    (hexEncode contact.ecdh.toList ++ ' ' :: (hexEncode hybridKey ++ ['\n']))

/-- The author's directory. -/
def dir : Dir :=
  AList.insert .contacts (textBytes contactsText)
    (AList.insert .identity (textBytes (identityText author)) ∅)

/-- What is drawn for the known drop, and decoys that are all zero. -/
def draws : Draws where
  contentKey := contentKey
  noncePrefix := body.noncePrefix
  dropNonce := body.dropNonce
  seals _ := ⟨ephemeral, List.Vector.replicate 32 0, sealedKey.nonce⟩
  decoys _ := ⟨List.Vector.replicate 8 0, List.Vector.replicate 32 0, List.Vector.replicate 24 0,
    List.Vector.replicate 48 0⟩
  shuffle _ := Equiv.refl _
  mlDsa := mlDsa

/-- A drop of `hello` to that many devices. -/
def args (count : Nat) (hybridMode : Bool) : CreateArgs where
  names := List.replicate count "bob"
  lat := 0
  lng := 0
  res := 9
  ring := 2
  ttl := 0
  suite := if hybridMode then "hybrid" else "classical"
  plaintext := utf8 "hello"

/-- The cell of every position. -/
def cellAt (_ _ : Float) (_ : UInt8) : Except CoreError String := .ok body.cell

theorem lengthLaws : LengthLaws sending where
  aead := length_sending
  mlKem key random ciphertext shared h := by
    by_cases hlen : key.length = 1184
    · have hsome : sending.mlKemEncapsulate key random = some _ := if_pos hlen
      obtain ⟨rfl, -⟩ := Prod.mk.inj (Option.some.inj (hsome.symm.trans h))
      rw [List.length_append, List.Vector.toList_length, List.length_replicate]
    · have hnone : sending.mlKemEncapsulate key random = none := if_neg hlen
      exact absurd (hnone.symm.trans h) nofun

theorem hybridMode_args (count : Nat) (hybridMode : Bool) :
    (args count hybridMode).hybridMode = hybridMode := by
  have hclassical : eqIgnoreAsciiCase "classical" "hybrid" = false := by decide +kernel
  have hhybrid : eqIgnoreAsciiCase "hybrid" "hybrid" = true := by decide +kernel
  cases hybridMode with
  | false => exact hclassical
  | true => exact hhybrid

section Saved

variable {stored : Dir}

theorem contacts_saved (h : stored.lookup .contacts = some (textBytes contactsText)) :
    contacts stored = .ok [contact] := by
  have hread : readToString stored .contacts = some contactsText := by
    rw [readToString, h, Option.bind_some, readText_textBytes]
  have hparse : (lines contactsText).mapM parseContact = .ok [some contact] := by decide +kernel
  unfold contacts
  rw [hread]
  exact bind_ok_iff.mpr ⟨_, hparse, rfl⟩

theorem resolve_saved (h : stored.lookup .contacts = some (textBytes contactsText)) (count : Nat)
    (hybridMode : Bool) :
    resolve stored (args count hybridMode) = .ok (List.replicate count device) := by
  have hdevices : devicesOf [contact] (args count hybridMode).hybridMode "bob" = .ok [device] := by
    rw [hybridMode_args]
    cases hybridMode with
    | false => rfl
    | true => rfl
  have hnames : (List.replicate count "bob").mapM
      (devicesOf [contact] (args count hybridMode).hybridMode) =
      .ok (List.replicate count [device]) := by
    refine mapM_ok_iff.mpr (List.forall₂_iff_get.mpr ⟨?_, fun index _ _ => ?_⟩)
    · rw [List.length_replicate, List.length_replicate]
    · rw [List.get_eq_getElem, List.get_eq_getElem, List.getElem_replicate, List.getElem_replicate]
      exact hdevices
  refine bind_ok_iff.mpr ⟨_, contacts_saved h, bind_ok_iff.mpr ⟨_, hnames, ?_⟩⟩
  rw [pure_ok_iff, List.flatten_replicate_singleton]

end Saved

theorem resolve_dir (count : Nat) (hybridMode : Bool) :
    resolve dir (args count hybridMode) = .ok (List.replicate count device) :=
  resolve_saved (AList.lookup_insert _) count hybridMode

theorem length_hybridKey : hybridKey.length = 32 + 1184 := by
  have hkem : (keypair.public sending).kem =
      keypair.kem.toList ++ List.replicate 1120 0 := rfl
  rw [hybridKey, List.length_append, List.Vector.toList_length, hkem, List.length_append,
    List.Vector.toList_length, List.length_replicate]

theorem returnLaws : ReturnLaws sending where
  hkdf ikm salt info := Option.isSome_iff_exists.mpr (exists_hkdfExpand ikm salt info)
  aead key nonce aad plaintext _ :=
    Option.isSome_iff_exists.mpr (exists_sending key nonce aad plaintext)
  mlKem key random random' h := by
    by_cases hlen : key.length = 1184
    · have hsome : sending.mlKemEncapsulate key random' = some _ := if_pos hlen
      rw [hsome, Option.isSome_some]
    · have hnone : sending.mlKemEncapsulate key random = none := if_neg hlen
      rw [hnone] at h
      exact absurd h Bool.false_ne_true
  mlDsaSeed _ := rfl
  mlDsaSign seed message := ⟨_, rfl, length_mlDsaBy (mlDsaKey seed) message⟩
  mlDsaPublic := length_mlDsaKey

theorem sealable_device (hybridMode : Bool) : Sealable sending hybridMode device := by
  intro _
  obtain ⟨pub, hpub, hlen⟩ : ∃ pub, hybridPublicFromBytes hybridKey = .ok pub ∧
      pub.kem.length = 1184 := by
    refine ⟨_, dif_pos length_hybridKey, ?_⟩
    rw [List.length_drop, length_hybridKey]
  have hkem : sending.mlKemEncapsulate pub.kem (List.Vector.replicate 32 0) = some _ := if_pos hlen
  exact ⟨hybridKey, pub, List.Vector.replicate 32 0, rfl, hpub, by rw [hkem, Option.isSome_some]⟩

/-- The content is the known chunk. -/
theorem encrypt_draws : streamEncrypt sending draws.contentKey (utf8 "hello") draws.noncePrefix =
    .ok (⟨body.noncePrefix, 1⟩, [chunk]) := by decide +kernel

section Saved

variable {stored : Dir} {own : Identity} {drawn : Draws} {nonce : UInt64}
  {cellAt : Float → Float → UInt8 → Except CoreError String} {cell : String} {count : Nat}

/-- With the contact and an identity, under the known content key, a drop for these devices needs
no more than a position that has a cell and a proof of work. -/
theorem creatable_saved (hcontacts : stored.lookup .contacts = some (textBytes contactsText))
    (hidentity : identity stored = .ok own) (hmldsa : stored.lookup .mldsa = none)
    (hkey : drawn.contentKey = contentKey) (hnonces : drawn.noncePrefix = body.noncePrefix)
    (hpow : powIsValid sending (own.signingPublic sending) body.contentRoot drawn.dropNonce nonce =
      true) (hcount : count ≠ 0) (hybridMode : Bool) (lat lng : Float) (res : UInt8)
    (ring : UInt32) (hcell : cellAt lat lng res = .ok cell) :
    Creatable sending cellAt { args count hybridMode with lat, lng, res, ring } drawn stored where
  names := by
    intro hnames
    exact hcount (by simpa [args] using hnames)
  suite := by
    show (eqIgnoreAsciiCase _ "classical" || (args count hybridMode).hybridMode) = true
    rw [hybridMode_args]
    cases hybridMode with
    | false =>
      have hclassical : eqIgnoreAsciiCase "classical" "classical" = true := by decide +kernel
      exact Bool.or_eq_true_iff.mpr (Or.inl hclassical)
    | true => exact Bool.or_true _
  recipients := by
    refine ⟨_, resolve_saved hcontacts count hybridMode, fun other hother => ?_⟩
    rw [List.eq_of_mem_replicate hother]
    exact sealable_device _
  content := by
    have hcontent : chunkCount (utf8 "hello").length < 2 ^ 32 := by decide +kernel
    exact hcontent
  place := ⟨cell, hcell⟩
  author := by
    refine ⟨own, hidentity, fun framing chunks hchunks => ⟨nonce, ?_⟩⟩
    rw [hkey, hnonces] at hchunks
    obtain ⟨-, rfl⟩ := Prod.mk.inj (Except.ok.inj (encrypt_draws.symm.trans hchunks))
    have hroot : contentRoot sending [chunk] = body.contentRoot := by decide +kernel
    rw [hroot]
    exact hpow
  signature := fun _ => .inl hmldsa

/-- Up to `MIN_TAGS` devices can then be addressed, in either suite: `create_drop` returns. -/
theorem exists_created_saved (hcontacts : stored.lookup .contacts = some (textBytes contactsText))
    (hidentity : identity stored = .ok own) (hmldsa : stored.lookup .mldsa = none)
    (hkey : drawn.contentKey = contentKey) (hnonces : drawn.noncePrefix = body.noncePrefix)
    (hpow : powIsValid sending (own.signingPublic sending) body.contentRoot drawn.dropNonce nonce =
      true) (hcount : count ≠ 0) (hle : count ≤ minTags) (hybridMode : Bool) (lat lng : Float)
    (res : UInt8) (ring : UInt32) (hcell : cellAt lat lng res = .ok cell)
    (htext : (utf8 cell).length ≤ 15) :
    ∃ created disk, (createDrop sending cellAt 0 { args count hybridMode with lat, lng, res, ring }
      drawn).exec ⟨stored, []⟩ = (.ok created, disk) := by
  have hcreatable :=
    creatable_saved hcontacts hidentity hmldsa hkey hnonces hpow hcount hybridMode lat lng res ring
      hcell
  obtain ⟨created, disk, hcreate, -⟩ := @exec_createDrop_of_creatable sending cellAt 0 _ drawn
    returnLaws ⟨stored, []⟩ hcreatable (quiet_nil stored) fun cell' prepared hcell' hprepared => by
      obtain rfl := Except.ok.inj (hcell.symm.trans hcell')
      obtain ⟨devices, wrapped, hprepares⟩ := prepareDrop_ok_iff.mp hprepared
      obtain rfl : List.replicate count device = devices :=
        Except.ok.inj ((resolve_saved hcontacts count hybridMode).symm.trans hprepares.resolved)
      have hentries := length_entries_le (hprepares.shapes lengthLaws)
      rw [List.length_replicate] at hentries
      have htags : minTags = 16 := rfl
      omega
  exact ⟨created, disk, hcreate⟩

end Saved

theorem identity_dir : identity dir = .ok author := by
  refine identity_saved ?_
  unfold dir
  rw [AList.lookup_insert_ne (by simp), AList.lookup_insert]

theorem mldsa_dir : dir.lookup .mldsa = none := by
  unfold dir
  rw [AList.lookup_insert_ne (by simp), AList.lookup_insert_ne (by simp), AList.lookup_empty]

/-- The known body has a proof of work of the author. -/
theorem work_known : powIsValid sending (author.signingPublic sending) body.contentRoot
    draws.dropNonce body.powNonce = true := by decide +kernel

/-- In the author's directory a drop needs no more than a position that has a cell. -/
theorem creatable_args {count : Nat} (hcount : count ≠ 0) (hybridMode : Bool)
    {cellAt : Float → Float → UInt8 → Except CoreError String} {cell : String} (lat lng : Float)
    (res : UInt8) (ring : UInt32) (hcell : cellAt lat lng res = .ok cell) :
    Creatable sending cellAt { args count hybridMode with lat, lng, res, ring } draws dir :=
  creatable_saved (AList.lookup_insert _) identity_dir mldsa_dir rfl rfl work_known hcount
    hybridMode lat lng res ring hcell

/-- **The author can address up to `MIN_TAGS` devices** in either suite, at any position that has a
cell and with any ring: `create_drop` returns. -/
theorem exists_created_at {count : Nat} (hcount : count ≠ 0) (hle : count ≤ minTags)
    (hybridMode : Bool) {cellAt : Float → Float → UInt8 → Except CoreError String} {cell : String}
    (lat lng : Float) (res : UInt8) (ring : UInt32) (hcell : cellAt lat lng res = .ok cell)
    (htext : (utf8 cell).length ≤ 15) :
    ∃ created stored, (createDrop sending cellAt 0
      { args count hybridMode with lat, lng, res, ring } draws).exec ⟨dir, []⟩ =
      (.ok created, stored) :=
  exists_created_saved (AList.lookup_insert _) identity_dir mldsa_dir rfl rfl work_known hcount hle
    hybridMode lat lng res ring hcell htext

/-- In particular at the known position. -/
theorem exists_created {count : Nat} (hcount : count ≠ 0) (hle : count ≤ minTags)
    (hybridMode : Bool) :
    ∃ created stored, (createDrop sending cellAt 0 (args count hybridMode) draws).exec ⟨dir, []⟩ =
      (.ok created, stored) := by
  have htext : (utf8 body.cell).length ≤ 15 := by decide +kernel
  exact exists_created_at hcount hle hybridMode 0 0 9 2 rfl htext

/-- What is stored is read back. -/
theorem exists_read {count : Nat} (hcount : count ≠ 0) (hle : count ≤ minTags)
    (hybridMode : Bool) :
    ∃ created stored signed body,
      (createDrop sending cellAt 0 (args count hybridMode) draws).exec ⟨dir, []⟩ =
        (.ok created, stored) ∧ readDrop stored.dir created.id = .ok (signed, body) := by
  obtain ⟨created, stored, hcreate⟩ := exists_created hcount hle hybridMode
  obtain ⟨_, signed, body, -, hcreated⟩ := exec_createDrop hcreate
  exact ⟨created, stored, signed, body, hcreate, hcreated.readDrop⟩

end KnownAuthor

open KnownAuthor in
/-- Classical drops to one device and to two devices look the same. -/
theorem classical_counts_hidden :
    ∃ created created' stored stored' signed signed' body body',
      (createDrop KnownAnswers.sending cellAt 0 (args 1 false) draws).exec ⟨dir, []⟩ =
        (.ok created, stored) ∧
      (createDrop KnownAnswers.sending cellAt 0 (args 2 false) draws).exec ⟨dir, []⟩ =
        (.ok created', stored') ∧
      readDrop stored.dir created.id = .ok (signed, body) ∧
      readDrop stored'.dir created'.id = .ok (signed', body') ∧ SameShape body body' := by
  obtain ⟨created, stored, signed, body, hcreate, hread⟩ :=
    exists_read (by decide) (by decide : 1 ≤ minTags) false
  obtain ⟨created', stored', signed', body', hcreate', hread'⟩ :=
    exists_read (by decide) (by decide : 2 ≤ minTags) false
  have hiff := counts_hidden_iff KnownAnswers.sending lengthLaws cellAt 0 0 _ _ draws draws _ _
    stored stored' created created' hcreate hcreate' (by rw [hybridMode_args, hybridMode_args]) _ _
    (resolve_dir 1 false) (resolve_dir 2 false) (by decide) (by decide) signed signed' body body'
    hread hread'
  exact ⟨created, created', stored, stored', signed, signed', body, body', hcreate, hcreate', hread,
    hread', hiff.mpr (Or.inl (hybridMode_args 1 false))⟩

open KnownAuthor in
/-- Hybrid drops to one device and to two devices do not: the first has one hybrid entry, the
second two. -/
theorem hybrid_counts_visible :
    ∃ created created' stored stored' signed signed' body body',
      (createDrop KnownAnswers.sending cellAt 0 (args 1 true) draws).exec ⟨dir, []⟩ =
        (.ok created, stored) ∧
      (createDrop KnownAnswers.sending cellAt 0 (args 2 true) draws).exec ⟨dir, []⟩ =
        (.ok created', stored') ∧
      resolve dir (args 1 true) = .ok [device] ∧ resolve dir (args 2 true) = .ok [device, device] ∧
      readDrop stored.dir created.id = .ok (signed, body) ∧
      readDrop stored'.dir created'.id = .ok (signed', body') ∧ ¬ SameShape body body' := by
  obtain ⟨created, stored, signed, body, hcreate, hread⟩ :=
    exists_read (by decide) (by decide : 1 ≤ minTags) true
  obtain ⟨created', stored', signed', body', hcreate', hread'⟩ :=
    exists_read (by decide) (by decide : 2 ≤ minTags) true
  refine ⟨created, created', stored, stored', signed, signed', body, body', hcreate, hcreate',
    resolve_dir 1 true, resolve_dir 2 true, hread, hread', fun hsame => ?_⟩
  have hshapes := shapes_of_createDrop lengthLaws hcreate (resolve_dir 1 true) hread
  have hshapes' := shapes_of_createDrop lengthLaws hcreate' (resolve_dir 2 true) hread'
  rw [hybridMode_args] at hshapes hshapes'
  have hperm := hshapes.symm.trans (hsame.shapes.trans hshapes')
  exact absurd hperm (by decide +kernel)

end Keepstone.Store
