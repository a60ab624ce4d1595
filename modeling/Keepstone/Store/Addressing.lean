import Keepstone.Store.Decoys

/-!
# Who can open a drop (`crates/store/src/lib.rs:404-603`)

`create_drop` resolves the names to contact devices and seals the content key once to each of
them; `open_drop` looks for an entry with the tag of its own X25519 key and tries to open it.

The primitives are ideal for the calls made (`Ideal`): a slot opens with the secret it was sealed
to and with no other, a decoy opens with none, and the tags tell the devices apart.

Results:
* `findContentKey_some`, `exists_entry_of_findContentKey`: what the loop over the entries finds;
* **`openDrop_iff_addressed`**: exactly the addressed devices open a drop.
-/

namespace Keepstone.Store

open Keepstone.Lib Keepstone.Crypto Keepstone.Core

variable {prim : Primitives}

/-! ## The loop over the entries -/

/-- What `open_drop` gets from an entry with its tag. -/
def entryKey (prim : Primitives) (dir : Dir) (ecdhSecret : Bytes 32) :
    SealedContentKey → Except StoreError (Option (Bytes 32))
  | .classical sealed => .ok (sealed.open prim ecdhSecret).toOption
  | .hybrid sealed => do
    let keypair ← hybrid prim dir
    pure (keypair.open prim sealed).toOption

theorem entryKey_classical {dir : Dir} {secret : Bytes 32} {sealed : SealedKey}
    {opened : Except CryptoError (Bytes 32)} (h : sealed.open prim secret = opened) :
    entryKey prim dir secret (.classical sealed) = .ok opened.toOption := by
  rw [entryKey, h]

theorem entryKey_hybrid {dir : Dir} {secret : Bytes 32} {sealed : HybridSealed}
    {keypair : HybridKeypair} {opened : Except CryptoError (Bytes 32)}
    (hload : hybrid prim dir = .ok keypair) (h : keypair.open prim sealed = opened) :
    entryKey prim dir secret (.hybrid sealed) = .ok opened.toOption := by
  rw [entryKey, hload, ← h]
  rfl

/-- The keypair that was loaded is the one of the directory. -/
def LoadedFrom (prim : Primitives) (dir : Dir) (loaded : Option HybridKeypair) : Prop :=
  ∀ keypair, loaded = some keypair → hybrid prim dir = .ok keypair

theorem loadedFrom_none (dir : Dir) : LoadedFrom prim dir none := fun _ h => absurd h nofun

/-- What was loaded is what loading gives now, or nothing. -/
theorem LoadedFrom.cases {dir : Dir} {loaded : Option HybridKeypair}
    (h : LoadedFrom prim dir loaded) :
    loaded = none ∨ ∃ keypair, loaded = some keypair ∧ hybrid prim dir = .ok keypair := by
  cases hcase : loaded with
  | none => exact Or.inl rfl
  | some keypair => exact Or.inr ⟨keypair, rfl, h keypair hcase⟩

section Loop

variable {dir : Dir} {tag : Bytes 8} {secret : Bytes 32} {loaded : Option HybridKeypair}

/-- One turn of the loop, at an entry with our tag: the rest is searched if it gives nothing. -/
theorem findContentKey_own (hloaded : LoadedFrom prim dir loaded) (sealed : SealedContentKey)
    (rest : List WrappedKey) :
    ∃ loaded', LoadedFrom prim dir loaded' ∧
      findContentKey prim dir tag secret loaded (⟨tag, sealed⟩ :: rest) =
        entryKey prim dir secret sealed >>= fun
          | some key => .ok (some key)
          | none => findContentKey prim dir tag secret loaded' rest := by
  cases sealed with
  | classical sealed =>
    refine ⟨loaded, hloaded, ?_⟩
    rw [findContentKey, if_neg (not_not.mpr rfl)]
    cases hopen : sealed.open prim secret with
    | error e =>
      simp only [hopen, entryKey_classical hopen]
      rfl
    | ok key =>
      simp only [hopen, entryKey_classical hopen]
      rfl
  | hybrid sealed =>
    cases hload : hybrid prim dir with
    | error e =>
      -- nothing was loaded, so this entry asks for the file
      have hnone : loaded = none := by
        rcases hloaded.cases with hnone | ⟨keypair, -, hkeypair⟩
        · exact hnone
        · cases hload.symm.trans hkeypair
      refine ⟨loaded, hloaded, ?_⟩
      rw [findContentKey, if_neg (not_not.mpr rfl), hnone]
      simp only [entryKey, hload, bind, Except.bind]
    | ok keypair =>
      have hloads : loaded = none ∨ loaded = some keypair := by
        rcases hloaded.cases with hnone | ⟨keypair', hsome, hkeypair⟩
        · exact Or.inl hnone
        · exact Or.inr (Except.ok.inj (hload.symm.trans hkeypair) ▸ hsome)
      refine ⟨some keypair, fun _ h => Option.some.inj h ▸ hload, ?_⟩
      rw [findContentKey, if_neg (not_not.mpr rfl)]
      cases hopen : keypair.open prim sealed with
      | error e =>
        rw [entryKey_hybrid hload hopen]
        rcases hloads with rfl | rfl <;>
          simp only [hload, hopen, bind, Except.bind, pure, Except.pure, Except.toOption]
      | ok key =>
        rw [entryKey_hybrid hload hopen]
        rcases hloads with rfl | rfl <;>
          simp only [hload, hopen, bind, Except.bind, pure, Except.pure, Except.toOption]

/-- One turn of the loop, at an entry with another tag. -/
theorem findContentKey_skip {entry : WrappedKey} (htag : entry.tag ≠ tag)
    (rest : List WrappedKey) :
    findContentKey prim dir tag secret loaded (entry :: rest) =
      findContentKey prim dir tag secret loaded rest := by
  rw [findContentKey, if_pos htag]

/-- **The loop finds the content key** when one entry with our tag gives it and the others with
our tag do not stop it. -/
theorem findContentKey_some {key : Bytes 32} {entries : List WrappedKey}
    (hall : ∀ entry ∈ entries, entry.tag = tag → entryKey prim dir secret entry.sealed = .ok none ∨
      entryKey prim dir secret entry.sealed = .ok (some key))
    (hexists : ∃ entry ∈ entries, entry.tag = tag ∧
      entryKey prim dir secret entry.sealed = .ok (some key))
    (hloaded : LoadedFrom prim dir loaded) :
    findContentKey prim dir tag secret loaded entries = .ok (some key) := by
  induction entries generalizing loaded with
  | nil =>
    obtain ⟨entry, hentry, -⟩ := hexists
    exact absurd hentry List.not_mem_nil
  | cons entry rest ih =>
    obtain ⟨hentry, hrest⟩ := List.forall_mem_cons.mp hall
    rw [List.exists_mem_cons_iff] at hexists
    obtain ⟨entryTag, sealed⟩ := entry
    by_cases htag : entryTag = tag
    · subst htag
      obtain ⟨loaded', hloaded', hturn⟩ := findContentKey_own hloaded sealed rest
      rw [hturn]
      rcases hentry rfl with hnone | hsome
      · rw [hnone]
        refine ih hrest (hexists.resolve_left ?_) hloaded'
        rintro ⟨-, hsome⟩
        exact absurd (hnone.symm.trans hsome) nofun
      · rw [hsome]
        rfl
    · rw [findContentKey_skip htag]
      exact ih hrest (hexists.resolve_left fun h => htag h.1) hloaded

/-- What the loop finds, an entry with our tag gave. -/
theorem exists_entry_of_findContentKey {key : Bytes 32} {entries : List WrappedKey}
    (hloaded : LoadedFrom prim dir loaded)
    (h : findContentKey prim dir tag secret loaded entries = .ok (some key)) :
    ∃ entry ∈ entries, entry.tag = tag ∧
      entryKey prim dir secret entry.sealed = .ok (some key) := by
  induction entries generalizing loaded with
  | nil => exact absurd h nofun
  | cons entry rest ih =>
    rw [List.exists_mem_cons_iff]
    obtain ⟨entryTag, sealed⟩ := entry
    by_cases htag : entryTag = tag
    · subst htag
      obtain ⟨loaded', hloaded', hturn⟩ := findContentKey_own hloaded sealed rest
      rw [hturn] at h
      obtain ⟨found, hfound, h⟩ := bind_ok_iff.mp h
      cases found with
      | none => exact Or.inr (ih hloaded' h)
      | some key' =>
        obtain rfl := Option.some.inj (Except.ok.inj h)
        exact Or.inl ⟨rfl, hfound⟩
    · rw [findContentKey_skip htag] at h
      exact Or.inr (ih hloaded h)

end Loop

/-! ## Who opens it -/

/-- The drop is addressed to the device with this directory: one of `devices` has its X25519 key
and, in hybrid mode, its hybrid public key. -/
def Addressed (prim : Primitives) (dir : Dir) (hybridMode : Bool) (devices : List Device) : Prop :=
  ∃ own device, identity dir = .ok own ∧ device ∈ devices ∧ device.1 = own.ecdhPublic prim ∧
    (hybridMode = true → ∃ keypair bytes, hybrid prim dir = .ok keypair ∧ device.2 = some bytes ∧
      hybridPublicFromBytes bytes = .ok (keypair.public prim))

/-- The primitives are ideal for the calls of one `create_drop`, and for the secrets of the
directory `dir`. -/
structure Ideal (prim : Primitives) (args : CreateArgs) (draws : Draws) (devices : List Device)
    (dir : Dir) : Prop where
  /-- A classical slot opens with the secret it was sealed to. -/
  classicalSlot : ∀ own device position sealed, identity dir = .ok own →
    (device, position) ∈ devices.zipIdx → SealedKey.seal prim draws.contentKey device.1
      (draws.seals position).ephemeral (draws.seals position).nonce = .ok sealed →
    device.1 = own.ecdhPublic prim → sealed.open prim own.ecdh = .ok draws.contentKey
  /-- And with no other. -/
  classicalOther : ∀ own device position sealed, identity dir = .ok own →
    (device, position) ∈ devices.zipIdx → SealedKey.seal prim draws.contentKey device.1
      (draws.seals position).ephemeral (draws.seals position).nonce = .ok sealed →
    device.1 ≠ own.ecdhPublic prim → ∃ e, sealed.open prim own.ecdh = .error e
  /-- A hybrid slot opens with the keypair it was sealed to. -/
  hybridSlot : ∀ keypair device position bytes pub sealed, hybrid prim dir = .ok keypair →
    (device, position) ∈ devices.zipIdx → device.2 = some bytes →
    hybridPublicFromBytes bytes = .ok pub → hybridSeal prim draws.contentKey pub
      (draws.seals position).ephemeral (draws.seals position).kemRandom
      (draws.seals position).nonce = .ok sealed →
    pub = keypair.public prim → keypair.open prim sealed = .ok draws.contentKey
  /-- And with no other. -/
  hybridOther : ∀ keypair device position bytes pub sealed, hybrid prim dir = .ok keypair →
    (device, position) ∈ devices.zipIdx → device.2 = some bytes →
    hybridPublicFromBytes bytes = .ok pub → hybridSeal prim draws.contentKey pub
      (draws.seals position).ephemeral (draws.seals position).kemRandom
      (draws.seals position).nonce = .ok sealed →
    pub ≠ keypair.public prim → ∃ e, keypair.open prim sealed = .error e
  /-- A decoy does not open. -/
  decoy : ∀ own i, identity dir = .ok own → i < minTags - devices.length →
    ∃ e, SealedKey.open prim ⟨(draws.decoys i).ephemeralPublic, (draws.decoys i).nonce,
      (draws.decoys i).ciphertext.toList⟩ own.ecdh = .error e
  /-- The tags of different keys are different. -/
  tag : ∀ own device tag, identity dir = .ok own → device ∈ devices →
    deriveTag prim device.1 draws.dropNonce = .ok tag →
    deriveTag prim (own.ecdhPublic prim) draws.dropNonce = .ok tag →
    device.1 = own.ecdhPublic prim
  /-- The chunks open. -/
  chunk : ∀ index call, index < chunkCount args.plaintext.length →
    ChunkCall prim draws.contentKey args.plaintext
      ⟨draws.noncePrefix, UInt32.ofNat (chunkCount args.plaintext.length)⟩ index call →
    call.Opens prim

section Opening

variable {args : CreateArgs} {draws : Draws} {author dir : Dir} {prepared : Prepared}
  {devices : List Device} {wrapped : List WrappedKey}

/-- A slot gives the content key to a device it was sealed to. -/
theorem Ideal.entryKey_own (ideal : Ideal prim args draws devices dir) {own : Identity}
    {device : Device} {position : Nat} {sealed : SealedContentKey} (hown : identity dir = .ok own)
    (hdevice : (device, position) ∈ devices.zipIdx) (hecdh : device.1 = own.ecdhPublic prim)
    (hhybrid : args.hybridMode = true → ∃ keypair bytes, hybrid prim dir = .ok keypair ∧
      device.2 = some bytes ∧ hybridPublicFromBytes bytes = .ok (keypair.public prim))
    (hsealed : SealedTo prim draws args.hybridMode position device sealed) :
    entryKey prim dir own.ecdh sealed = .ok (some draws.contentKey) := by
  cases sealed with
  | classical sealed =>
    exact entryKey_classical
      (ideal.classicalSlot own device position sealed hown hdevice hsealed.2 hecdh)
  | hybrid sealed =>
    obtain ⟨hmode, bytes, pub, hbytes, hpub, hseal⟩ := hsealed
    obtain ⟨keypair, bytes', hload, hbytes', hpub'⟩ := hhybrid hmode
    obtain rfl := Option.some.inj (hbytes.symm.trans hbytes')
    have hopen := ideal.hybridSlot keypair device position bytes pub sealed hload hdevice hbytes
      hpub hseal (Except.ok.inj (hpub.symm.trans hpub'))
    exact entryKey_hybrid hload hopen

/-- A hybrid slot gives the content key to no other device. -/
theorem Ideal.hybrid_of_entryKey (ideal : Ideal prim args draws devices dir) {own : Identity}
    {device : Device} {position : Nat} {sealed : SealedContentKey} {key : Bytes 32}
    (hdevice : (device, position) ∈ devices.zipIdx)
    (hsealed : SealedTo prim draws args.hybridMode position device sealed)
    (hkey : entryKey prim dir own.ecdh sealed = .ok (some key)) (hmode : args.hybridMode = true) :
    ∃ keypair bytes, hybrid prim dir = .ok keypair ∧ device.2 = some bytes ∧
      hybridPublicFromBytes bytes = .ok (keypair.public prim) := by
  cases sealed with
  | classical sealed => exact absurd (hsealed.1.symm.trans hmode) nofun
  | hybrid sealed =>
    obtain ⟨-, bytes, pub, hbytes, hpub, hseal⟩ := hsealed
    obtain ⟨keypair, hload, -⟩ := bind_ok_iff.mp hkey
    refine ⟨keypair, bytes, hload, hbytes, ?_⟩
    by_contra hother
    have hne : pub ≠ keypair.public prim := fun heq => hother (heq ▸ hpub)
    obtain ⟨e, hopen⟩ := ideal.hybridOther keypair device position bytes pub sealed hload hdevice
      hbytes hpub hseal hne
    exact absurd ((entryKey_hybrid hload hopen).symm.trans hkey) nofun

/-- An entry gives an addressed device the content key or nothing. -/
theorem Ideal.entryKey_cases (ideal : Ideal prim args draws devices dir)
    (h : Prepares prim args draws author prepared devices wrapped) {own : Identity}
    (hown : identity dir = .ok own)
    (hkeypair : args.hybridMode = true → ∃ keypair, hybrid prim dir = .ok keypair)
    {entry : WrappedKey} (hentry : entry ∈ prepared.wrappedKeys) :
    entryKey prim dir own.ecdh entry.sealed = .ok none ∨
      entryKey prim dir own.ecdh entry.sealed = .ok (some draws.contentKey) := by
  rcases h.mem_entries hentry with ⟨device, position, hdevice, hwrap⟩ | ⟨i, hi, rfl⟩
  · have hsealed := (wrapKey_ok_iff.mp hwrap).2
    cases hcase : entry.sealed with
    | classical sealed =>
      rw [hcase] at hsealed
      by_cases hecdh : device.1 = own.ecdhPublic prim
      · have hopen := ideal.classicalSlot own device position sealed hown hdevice hsealed.2 hecdh
        exact Or.inr (entryKey_classical hopen)
      · obtain ⟨e, hopen⟩ :=
          ideal.classicalOther own device position sealed hown hdevice hsealed.2 hecdh
        exact Or.inl (entryKey_classical hopen)
    | hybrid sealed =>
      rw [hcase] at hsealed
      obtain ⟨hmode, bytes, pub, hbytes, hpub, hseal⟩ := hsealed
      obtain ⟨keypair, hload⟩ := hkeypair hmode
      by_cases hsame : pub = keypair.public prim
      · have hopen := ideal.hybridSlot keypair device position bytes pub sealed hload hdevice hbytes
          hpub hseal hsame
        exact Or.inr (entryKey_hybrid hload hopen)
      · obtain ⟨e, hopen⟩ := ideal.hybridOther keypair device position bytes pub sealed hload
          hdevice hbytes hpub hseal hsame
        exact Or.inl (entryKey_hybrid hload hopen)
  · obtain ⟨e, hopen⟩ := ideal.decoy own i hown hi
    exact Or.inl (entryKey_classical hopen)

/-- The loop of an addressed device finds the content key. -/
theorem Ideal.findContentKey_of_addressed (ideal : Ideal prim args draws devices dir)
    (h : Prepares prim args draws author prepared devices wrapped) {own : Identity}
    {device : Device} (hown : identity dir = .ok own) (hdevice : device ∈ devices)
    (hecdh : device.1 = own.ecdhPublic prim)
    (hhybrid : args.hybridMode = true → ∃ keypair bytes, hybrid prim dir = .ok keypair ∧
      device.2 = some bytes ∧ hybridPublicFromBytes bytes = .ok (keypair.public prim)) :
    ∃ tag, deriveTag prim (own.ecdhPublic prim) draws.dropNonce = .ok tag ∧
      findContentKey prim dir tag own.ecdh none prepared.wrappedKeys =
        .ok (some draws.contentKey) := by
  obtain ⟨entry, position, hentry, hposition, hwrap⟩ := h.exists_entry hdevice
  obtain ⟨htag, hsealed⟩ := wrapKey_ok_iff.mp hwrap
  have hkeypair : args.hybridMode = true → ∃ keypair, hybrid prim dir = .ok keypair := by
    intro hmode
    obtain ⟨keypair, -, hload, -⟩ := hhybrid hmode
    exact ⟨keypair, hload⟩
  refine ⟨entry.tag, hecdh ▸ htag, findContentKey_some ?_ ?_ (loadedFrom_none dir)⟩
  · intro other hother _
    exact ideal.entryKey_cases h hown hkeypair hother
  · exact ⟨entry, hentry, rfl, ideal.entryKey_own hown hposition hecdh hhybrid hsealed⟩

/-- A device whose loop finds a key is addressed. -/
theorem Ideal.addressed_of_findContentKey (ideal : Ideal prim args draws devices dir)
    (h : Prepares prim args draws author prepared devices wrapped) {own : Identity} {tag : Bytes 8}
    {key : Bytes 32} (hown : identity dir = .ok own)
    (htag : deriveTag prim (own.ecdhPublic prim) draws.dropNonce = .ok tag)
    (hfind : findContentKey prim dir tag own.ecdh none prepared.wrappedKeys = .ok (some key)) :
    Addressed prim dir args.hybridMode devices := by
  obtain ⟨entry, hentry, hsame, hkey⟩ := exists_entry_of_findContentKey (loadedFrom_none dir) hfind
  rcases h.mem_entries hentry with ⟨device, position, hdevice, hwrap⟩ | ⟨i, hi, rfl⟩
  · obtain ⟨htag', hsealed⟩ := wrapKey_ok_iff.mp hwrap
    have hmem : device ∈ devices := (List.mem_zipIdx' hdevice).2 ▸ List.getElem_mem _
    have hecdh := ideal.tag own device tag hown hmem (hsame ▸ htag') htag
    exact ⟨own, device, hown, hmem, hecdh,
      ideal.hybrid_of_entryKey hdevice hsealed hkey⟩
  · obtain ⟨e, hopen⟩ := ideal.decoy own i hown hi
    exact absurd ((entryKey_classical hopen).symm.trans hkey) nofun

end Opening

section Holder

variable {args : CreateArgs} {draws : Draws} {author stored dir : Dir} {prepared : Prepared}
  {devices : List Device} {wrapped : List WrappedKey} {created : CreatedDrop}
  {signed : SignedDrop} {body : DropBody}

/-- A directory with the same envelope and the same chunks holds the drop as well. -/
theorem Created.of_lookup (h : Prepares prim args draws author prepared devices wrapped)
    (hcreated : Created prim draws prepared created stored signed body)
    (hdrop : dir.lookup (.drop created.id) = stored.lookup (.drop created.id))
    (hchunks : ∀ index < created.chunks.toNat,
      dir.lookup (.chunk created.id index) = stored.lookup (.chunk created.id index)) :
    Created prim draws prepared created dir signed body :=
  { hcreated with
    envelope := hdrop.trans hcreated.envelope
    chunks := by
      intro index hindex
      rw [hchunks index (by rw [hcreated.count, ← h.length_chunks]; exact hindex)]
      exact hcreated.chunks index hindex }

/-- Whatever a holder opens was addressed to it: the stored body is the only one there is, and its
key came from one of the entries. -/
theorem Created.addressed_of_openDrop
    (hcreated : Created prim draws prepared created dir signed body)
    (h : Prepares prim args draws author prepared devices wrapped)
    (ideal : Ideal prim args draws devices dir) {plaintext : List UInt8}
    (hopen : openDrop prim dir created.id = .ok plaintext) :
    Addressed prim dir args.hybridMode devices := by
  obtain ⟨signed', body', key, chunks, hunlocks, -⟩ := openDrop_ok_iff.mp hopen
  obtain ⟨raw, hraw, hdec⟩ := hunlocks.envelope
  obtain rfl := Option.some.inj (hcreated.envelope.symm.trans hraw)
  obtain rfl := Except.ok.inj (hcreated.decode.symm.trans hdec)
  obtain rfl := Except.ok.inj (hcreated.carries.symm.trans hunlocks.decoded)
  obtain ⟨own, tag, hown, htag, hfind⟩ := hunlocks.unsealed
  rw [hcreated.dropNonce] at htag
  rw [hcreated.wrappedKeys] at hfind
  exact ideal.addressed_of_findContentKey h hown htag hfind

/-- A holder the drop is addressed to opens it to the content. -/
theorem Created.openDrop_of_addressed (laws : SignatureLaws prim)
    (hcreated : Created prim draws prepared created dir signed body)
    (h : Prepares prim args draws author prepared devices wrapped)
    (ideal : Ideal prim args draws devices dir)
    (haddressed : Addressed prim dir args.hybridMode devices) :
    openDrop prim dir created.id = .ok args.plaintext := by
  obtain ⟨own, device, hown, hdevice, hecdh, hhybrid⟩ := haddressed
  obtain ⟨tag, htag, hfind⟩ := ideal.findContentKey_of_addressed h hown hdevice hecdh hhybrid
  rw [← hcreated.dropNonce] at htag
  rw [← hcreated.wrappedKeys] at hfind
  have hread : readChunks dir created.id body.chunkCount = .ok prepared.chunks := by
    have hcount : body.chunkCount = prepared.framing.total :=
      congrArg Framing.total hcreated.framing
    exact readChunks_ok_iff.mpr ⟨by rw [hcount, h.length_chunks], hcreated.chunks⟩
  have hdecrypt : streamDecrypt prim draws.contentKey (framingOf body) prepared.chunks =
      .ok args.plaintext := by
    obtain ⟨-, hframing, hlen, -⟩ := streamEncrypt_ok_iff.mp h.encrypted
    rw [hcreated.framing]
    exact (decrypts_of_opens h.encrypted fun index call hindex hcall =>
      ideal.chunk index call (hlen ▸ hindex) (hframing ▸ hcall)).2
  exact openDrop_ok_iff.mpr ⟨signed, body, draws.contentKey, prepared.chunks,
    ⟨⟨signed.raw, hcreated.envelope, hcreated.decode⟩, hcreated.verified laws, hcreated.carries,
      hcreated.pow, ⟨own, tag, hown, htag, hfind⟩, hread⟩, hdecrypt⟩

end Holder

/-- **Exactly the addressed devices open a drop.** A call of `create_drop` that returned has sealed
the content key to the devices its names stand for. A device that holds the envelope and the
chunks opens them to the content if it is one of these, and gets an error if it is not. -/
theorem openDrop_iff_addressed (prim : Primitives) (laws : SignatureLaws prim)
    (cellAt : Float → Float → UInt8 → Except CoreError String) (now : UInt64) (args : CreateArgs)
    (draws : Draws) (disk disk' : Disk) (created : CreatedDrop)
    (hcreate : (createDrop prim cellAt now args draws).exec disk = (.ok created, disk'))
    (devices : List Device) (hdevices : resolve disk.dir args = .ok devices) (dir : Dir)
    (hdrop : dir.lookup (.drop created.id) = disk'.dir.lookup (.drop created.id))
    (hchunks : ∀ index < created.chunks.toNat,
      dir.lookup (.chunk created.id index) = disk'.dir.lookup (.chunk created.id index))
    (ideal : Ideal prim args draws devices dir) :
    (openDrop prim dir created.id = .ok args.plaintext ↔
      Addressed prim dir args.hybridMode devices) ∧
    (¬ Addressed prim dir args.hybridMode devices →
      ∃ e, openDrop prim dir created.id = .error e) := by
  obtain ⟨prepared, signed, body, hprepared, hcreated⟩ := exec_createDrop hcreate
  obtain ⟨devices', wrapped, h⟩ := prepareDrop_ok_iff.mp hprepared
  obtain rfl := Except.ok.inj (hdevices.symm.trans h.resolved)
  have hholds := hcreated.of_lookup h hdrop hchunks
  refine ⟨⟨hholds.addressed_of_openDrop h ideal, hholds.openDrop_of_addressed laws h ideal⟩,
    fun hnot => ?_⟩
  cases hresult : openDrop prim dir created.id with
  | error e => exact ⟨e, rfl⟩
  | ok plaintext => exact absurd (hholds.addressed_of_openDrop h ideal hresult) hnot

section KnownDevices

open KnownAuthor Keepstone.Core.KnownAnswers

/-- The directory of a device that holds a drop of one chunk. -/
def holderDir (own : Identity) (id : DropId) (raw : List UInt8) : Dir :=
  AList.insert (.chunk id 0) chunk (AList.insert (.drop id) raw
    (AList.insert .identity (textBytes (identityText own)) ∅))

theorem identity_holderDir (own : Identity) (id : DropId) (raw : List UInt8) :
    identity (holderDir own id raw) = .ok own := by
  refine identity_saved ?_
  unfold holderDir
  rw [AList.lookup_insert_ne (by nofun), AList.lookup_insert_ne (by nofun), AList.lookup_insert]

theorem hybrid_holderDir (own : Identity) (id : DropId) (raw : List UInt8) :
    hybrid sending (holderDir own id raw) = .error .noHybrid := by
  have hnone : readToString (holderDir own id raw) .hybrid = none := by
    unfold readToString holderDir
    rw [AList.lookup_insert_ne (by nofun), AList.lookup_insert_ne (by nofun),
      AList.lookup_insert_ne (by nofun), AList.lookup_empty]
    rfl
  unfold hybrid
  rw [hnone]

/-- The chunk of the known drop opens. -/
theorem known_chunk_opens {index : Nat} {call : SealCall}
    (hindex : index < chunkCount (utf8 "hello").length)
    (h : ChunkCall sending contentKey (utf8 "hello")
      ⟨body.noncePrefix, UInt32.ofNat (chunkCount (utf8 "hello").length)⟩ index call) :
    call.Opens sending := by
  rw [known_chunkCount] at hindex h
  obtain rfl : index = 0 := by omega
  obtain ⟨key, nonce, aad, data, ciphertext⟩ := call
  obtain ⟨hkey, hnonce, haad, hdata, hsealed⟩ := h
  dsimp only at hkey hnonce haad hdata hsealed
  subst hnonce haad hdata
  obtain rfl := Except.ok.inj (knownChunkKey_derived.symm.trans hkey)
  have hchunk : aeadSeal sending knownChunkKey (chunkNonce body.noncePrefix 0) (chunkAad 0 1)
      (chunkData (utf8 "hello") 0) = .ok chunk := by decide +kernel
  obtain rfl := Except.ok.inj (hchunk.symm.trans hsealed)
  have hopens : aeadOpen sending knownChunkKey (chunkNonce body.noncePrefix 0) (chunkAad 0 1) chunk =
      .ok (chunkData (utf8 "hello") 0) := by decide +kernel
  exact hopens

/-- The primitives are ideal for the drop to one device and for a holder, if they are for the
holder's secret. -/
theorem known_ideal {own : Identity} (id : DropId) (raw : List UInt8)
    (hslot : device.1 = own.ecdhPublic sending → sealedKey.open sending own.ecdh = .ok contentKey)
    (hother : device.1 ≠ own.ecdhPublic sending →
      ∃ e, sealedKey.open sending own.ecdh = .error e)
    (hdecoy : ∃ e, SealedKey.open sending ⟨List.Vector.replicate 32 0, List.Vector.replicate 24 0,
      (List.Vector.replicate 48 0).toList⟩ own.ecdh = .error e)
    (htag : ∀ tag, deriveTag sending device.1 draws.dropNonce = .ok tag →
      deriveTag sending (own.ecdhPublic sending) draws.dropNonce = .ok tag →
      device.1 = own.ecdhPublic sending) :
    Ideal sending (args 1 false) draws [device] (holderDir own id raw) := by
  have hseal : SealedKey.seal sending contentKey device.1 ephemeral sealedKey.nonce =
      .ok sealedKey := by decide +kernel
  have hown : ∀ own', identity (holderDir own id raw) = .ok own' → own' = own := fun own' h =>
    Except.ok.inj (h.symm.trans (identity_holderDir own id raw))
  have hdevice : ∀ other position, (other, position) ∈ [device].zipIdx → other = device := by
    intro other position h
    exact (Prod.mk.inj (List.mem_singleton.mp h)).1
  have hnone : ∀ keypair, hybrid sending (holderDir own id raw) ≠ .ok keypair := by
    intro keypair h
    exact absurd ((hybrid_holderDir own id raw).symm.trans h) nofun
  constructor
  · intro own' other position sealed hown' hmem hsealed hecdh
    obtain rfl := hown own' hown'
    obtain rfl := hdevice other position hmem
    obtain rfl := Except.ok.inj (hseal.symm.trans hsealed)
    exact hslot hecdh
  · intro own' other position sealed hown' hmem hsealed hecdh
    obtain rfl := hown own' hown'
    obtain rfl := hdevice other position hmem
    obtain rfl := Except.ok.inj (hseal.symm.trans hsealed)
    exact hother hecdh
  · intro keypair _ _ _ _ _ hload
    exact absurd hload (hnone keypair)
  · intro keypair _ _ _ _ _ hload
    exact absurd hload (hnone keypair)
  · intro own' i hown' _
    obtain rfl := hown own' hown'
    exact hdecoy
  · intro own' other tag hown' hmem
    obtain rfl := hown own' hown'
    obtain rfl := List.mem_singleton.mp hmem
    exact htag tag
  · intro index call hindex hcall
    exact known_chunk_opens hindex hcall

/-- The recipient of the known drop opens it; the author, who is no recipient, gets an error. -/
theorem known_recipient_opens :
    ∃ created stored raw,
      (createDrop sending cellAt 0 (args 1 false) draws).exec ⟨dir, []⟩ = (.ok created, stored) ∧
      stored.dir.lookup (.drop created.id) = some raw ∧
      openDrop sending (holderDir recipient created.id raw) created.id = .ok (utf8 "hello") ∧
      ∃ e, openDrop sending (holderDir author created.id raw) created.id = .error e := by
  obtain ⟨created, stored, hcreate⟩ := exists_created (by decide) (by decide : 1 ≤ minTags) false
  obtain ⟨prepared, signed, made, hprepared, hcreated⟩ := exec_createDrop hcreate
  obtain ⟨_, _, h⟩ := prepareDrop_ok_iff.mp hprepared
  obtain ⟨hframing, hchunks⟩ :=
    Prod.mk.inj (Except.ok.inj (encrypt_draws.symm.trans h.encrypted))
  have hchunk : stored.dir.lookup (.chunk created.id 0) = some chunk := by
    have hstored := hcreated.chunks 0 (by rw [← hchunks]; decide)
    simpa only [← hchunks, List.getElem_cons_zero] using hstored
  have hone : created.chunks.toNat = 1 := by
    rw [hcreated.count, ← hframing]
    rfl
  have hholder := fun own (ideal : Ideal sending (args 1 false) draws [device]
      (holderDir own created.id signed.raw)) =>
    openDrop_iff_addressed sending sendingLaws cellAt 0 (args 1 false) draws ⟨dir, []⟩ stored created
      hcreate [device] (resolve_dir 1 false) (holderDir own created.id signed.raw)
      (by unfold holderDir
          rw [AList.lookup_insert_ne (by nofun), AList.lookup_insert, hcreated.envelope])
      (fun index hindex => by
        obtain rfl : index = 0 := by omega
        unfold holderDir
        rw [AList.lookup_insert, hchunk])
      ideal
  refine ⟨created, stored, signed.raw, hcreate, hcreated.envelope, ?_, ?_⟩
  · have hrecipient : device.1 = recipient.ecdhPublic sending := by decide +kernel
    have hideal := @known_ideal recipient created.id signed.raw
      (fun _ => by decide +kernel) (fun hne => absurd hrecipient hne)
      ⟨.invalidPublicKey, by decide +kernel⟩ fun _ _ _ => hrecipient
    refine (hholder recipient hideal).1.mpr ⟨recipient, device, identity_holderDir _ _ _,
      List.mem_singleton_self device, hrecipient, fun hmode => ?_⟩
    exact absurd ((hybridMode_args 1 false).symm.trans hmode) nofun
  · have hauthor : device.1 ≠ author.ecdhPublic sending := by decide +kernel
    have htags : deriveTag sending device.1 draws.dropNonce ≠
        deriveTag sending (author.ecdhPublic sending) draws.dropNonce := by decide +kernel
    have hideal := @known_ideal author created.id signed.raw
      (fun heq => absurd heq hauthor) (fun _ => ⟨.invalidPublicKey, by decide +kernel⟩)
      ⟨.invalidPublicKey, by decide +kernel⟩
      fun _ htag htag' => absurd (htag.trans htag'.symm) htags
    refine (hholder author hideal).2 ?_
    rintro ⟨own, other, hown, hother, hecdh, -⟩
    obtain rfl := Except.ok.inj ((identity_holderDir _ _ _).symm.trans hown)
    obtain rfl := List.mem_singleton.mp hother
    exact hauthor hecdh

end KnownDevices

end Keepstone.Store
