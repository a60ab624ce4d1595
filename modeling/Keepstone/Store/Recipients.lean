import Keepstone.Crypto.Agreement
import Keepstone.Store.Addressing

/-!
# Recipients, from what the algorithms document (`crates/store/src/lib.rs:404-603`)

`openDrop_iff_addressed` takes it that nothing opens that was not sealed to a device. Here the
algorithms only do what they document between the keys that meet. Then a recipient opens the drop,
or its loop over the entries has come upon one that was sealed to somebody else, or is a decoy, and
that has its tag and opens with its keys to another key. For that the AEAD must have been fooled.

Results:
* `Works.entryKey_own`: an entry that was sealed to a device gives it the content key;
* **`Created.openDrop_or_strays`**: a recipient opens the drop, or has come upon such an entry.
-/

namespace Keepstone.Store

open Keepstone.Lib Keepstone.Crypto Keepstone.Core

/-- The algorithms do what they document between the keys of a directory and what one call of
`create_drop` draws. -/
structure Works (prim : Primitives) (draws : Draws) (dir : Dir) : Prop where
  /-- The AEAD opens what it sealed. -/
  aead : AeadOpens prim
  /-- The X25519 secret agrees with the ephemeral ones. -/
  agree : ∀ own, identity dir = .ok own → ∀ position,
    Agree prim own.ecdh (draws.seals position).ephemeral
  /-- The shared secret is not zero. -/
  nonzero : ∀ own, identity dir = .ok own → ∀ position, (prim.x25519 own.ecdh
    (prim.x25519Public (draws.seals position).ephemeral)).toList.all (· = 0) = false
  /-- So does the X25519 secret of the hybrid keypair. -/
  agreeHybrid : ∀ keypair, hybrid prim dir = .ok keypair → ∀ position,
    Agree prim keypair.x25519 (draws.seals position).ephemeral
  /-- What is encapsulated to the keypair is decapsulated. -/
  decapsulates : ∀ keypair, hybrid prim dir = .ok keypair → ∀ position,
    Decapsulates prim keypair.kem (draws.seals position).kemRandom

/-- An entry has the tag of a device and opens with its keys, and not to this key. -/
def Strays (prim : Primitives) (dir : Dir) (contentKey : Bytes 32) (body : DropBody) : Prop :=
  ∃ own entry key, identity dir = .ok own ∧ entry ∈ body.wrappedKeys ∧
    deriveTag prim (own.ecdhPublic prim) body.dropNonce = .ok entry.tag ∧
    entryKey prim dir own.ecdh entry.sealed = .ok (some key) ∧ key ≠ contentKey

variable {prim : Primitives}

theorem Works.congr {draws : Draws} {dir dir' : Dir} (hidentity : identity dir' = identity dir)
    (hhybrid : hybrid prim dir' = hybrid prim dir) (h : Works prim draws dir) :
    Works prim draws dir' where
  aead := h.aead
  agree := hidentity ▸ h.agree
  nonzero := hidentity ▸ h.nonzero
  agreeHybrid := hhybrid ▸ h.agreeHybrid
  decapsulates := hhybrid ▸ h.decapsulates

theorem Strays.congr {dir dir' : Dir} (hidentity : identity dir' = identity dir)
    (hhybrid : hybrid prim dir' = hybrid prim dir) {contentKey : Bytes 32} {body : DropBody}
    (h : Strays prim dir' contentKey body) : Strays prim dir contentKey body := by
  have hentry : entryKey prim dir' = entryKey prim dir := by
    funext secret sealed
    cases sealed with
    | classical sealed => rfl
    | hybrid sealed => rw [entryKey, entryKey, hhybrid]
  rwa [Strays, hidentity, hentry] at h

section Opening

variable {args : CreateArgs} {draws : Draws} {author dir stored : Dir} {prepared : Prepared}
  {devices : List Device} {wrapped : List WrappedKey} {created : CreatedDrop}
  {signed : SignedDrop} {body : DropBody}

/-- **An entry that was sealed to a device gives it the content key.** -/
theorem Works.entryKey_own (works : Works prim draws dir) {own : Identity} {device : Device}
    {position : Nat} {sealed : SealedContentKey} (hown : identity dir = .ok own)
    (hecdh : device.1 = own.ecdhPublic prim)
    (hhybrid : args.hybridMode = true → ∃ keypair bytes, hybrid prim dir = .ok keypair ∧
      device.2 = some bytes ∧ hybridPublicFromBytes bytes = .ok (keypair.public prim))
    (hsealed : SealedTo prim draws args.hybridMode position device sealed) :
    entryKey prim dir own.ecdh sealed = .ok (some draws.contentKey) := by
  cases sealed with
  | classical sealed =>
    have hseal := hsealed.2
    rw [hecdh] at hseal
    exact entryKey_classical ((open_seal_iff works.aead (works.agree own hown position) hseal).mpr
      (works.nonzero own hown position))
  | hybrid sealed =>
    obtain ⟨hmode, bytes, pub, hbytes, hpub, hseal⟩ := hsealed
    obtain ⟨keypair, bytes', hload, hbytes', hpub'⟩ := hhybrid hmode
    obtain rfl := Option.some.inj (hbytes.symm.trans hbytes')
    obtain rfl := Except.ok.inj (hpub.symm.trans hpub')
    exact entryKey_hybrid hload (open_hybridSeal works.aead
      (works.agreeHybrid keypair hload position) (works.decapsulates keypair hload position) hseal)

/-- An entry of a drop gives an addressed device some key or none. -/
theorem entryKey_total (h : Prepares prim args draws author prepared devices wrapped)
    {secret : Bytes 32}
    (hkeypair : args.hybridMode = true → ∃ keypair, hybrid prim dir = .ok keypair)
    {entry : WrappedKey} (hentry : entry ∈ prepared.wrappedKeys) :
    ∃ found, entryKey prim dir secret entry.sealed = .ok found := by
  cases hcase : entry.sealed with
  | classical sealed => exact ⟨_, rfl⟩
  | hybrid sealed =>
    have hmode : args.hybridMode = true := by
      rcases h.mem_entries hentry with ⟨device, position, -, hwrap⟩ | ⟨i, -, rfl⟩
      · have hsealed := (wrapKey_ok_iff.mp hwrap).2
        rw [hcase] at hsealed
        exact hsealed.1
      · exact absurd hcase nofun
    obtain ⟨keypair, hload⟩ := hkeypair hmode
    exact ⟨_, entryKey_hybrid hload rfl⟩

/-- A device whose loop finds the content key opens the drop. -/
theorem Created.openDrop_of_found (laws : SignatureLaws prim) (haead : AeadOpens prim)
    (hcreated : Created prim draws prepared created dir signed body)
    (h : Prepares prim args draws author prepared devices wrapped) {own : Identity} {tag : Bytes 8}
    (hown : identity dir = .ok own)
    (htag : deriveTag prim (own.ecdhPublic prim) draws.dropNonce = .ok tag)
    (hfind : findContentKey prim dir tag own.ecdh none prepared.wrappedKeys =
      .ok (some draws.contentKey)) :
    openDrop prim dir created.id = .ok args.plaintext := by
  rw [← hcreated.dropNonce] at htag
  rw [← hcreated.wrappedKeys] at hfind
  have hread : readChunks dir created.id body.chunkCount = .ok prepared.chunks := by
    have hcount : body.chunkCount = prepared.framing.total :=
      congrArg Framing.total hcreated.framing
    exact readChunks_ok_iff.mpr ⟨by rw [hcount, h.length_chunks], hcreated.chunks⟩
  have hdecrypt : streamDecrypt prim draws.contentKey (framingOf body) prepared.chunks =
      .ok args.plaintext := by
    rw [hcreated.framing]
    exact (decrypts_of_opens h.encrypted fun _ _ _ hcall => haead.opens hcall).2
  exact openDrop_ok_iff.mpr ⟨signed, body, draws.contentKey, prepared.chunks,
    ⟨⟨signed.raw, hcreated.envelope, hcreated.decode⟩, hcreated.verified laws, hcreated.carries,
      hcreated.pow, ⟨own, tag, hown, htag, hfind⟩, hread⟩, hdecrypt⟩

/-- A recipient that holds the drop opens it, or has come upon a stray entry. -/
theorem Created.openDrop_or_strays (laws : SignatureLaws prim) (works : Works prim draws dir)
    (hcreated : Created prim draws prepared created dir signed body)
    (h : Prepares prim args draws author prepared devices wrapped)
    (haddressed : Addressed prim dir args.hybridMode devices) :
    openDrop prim dir created.id = .ok args.plaintext ∨ Strays prim dir draws.contentKey body := by
  obtain ⟨own, device, hown, hdevice, hecdh, hhybrid⟩ := haddressed
  obtain ⟨entry, position, hentry, -, hwrap⟩ := h.exists_entry hdevice
  obtain ⟨htag, hsealed⟩ := wrapKey_ok_iff.mp hwrap
  rw [hecdh] at htag
  have hkeypair : args.hybridMode = true → ∃ keypair, hybrid prim dir = .ok keypair := by
    intro hmode
    obtain ⟨keypair, -, hload, -⟩ := hhybrid hmode
    exact ⟨keypair, hload⟩
  refine or_iff_not_imp_right.mpr fun hstray => ?_
  refine hcreated.openDrop_of_found laws works.aead h hown htag (findContentKey_some ?_ ?_
    (loadedFrom_none dir))
  · intro other hother hsame
    obtain ⟨found, hfound⟩ := @entryKey_total prim args draws author dir prepared devices wrapped h
      own.ecdh hkeypair other hother
    cases found with
    | none => exact .inl hfound
    | some key =>
      by_cases hkey : key = draws.contentKey
      · exact .inr (hkey ▸ hfound)
      · refine absurd ⟨own, other, key, hown, ?_, ?_, hfound, hkey⟩ hstray
        · exact hcreated.wrappedKeys ▸ hother
        · rw [hcreated.dropNonce, hsame]
          exact htag
  · exact ⟨entry, hentry, rfl, works.entryKey_own hown hecdh hhybrid hsealed⟩

end Opening

end Keepstone.Store
