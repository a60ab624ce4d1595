import Keepstone.Cli.Delivery
import Keepstone.Store.AddressBook
import Keepstone.Store.Recipients

/-!
# From one device's keys to a message for it
(`crates/cli/src/main.rs:335-371`, `xtask/src/main.rs:52-104`)

A device prints its public keys with `id`. Somebody picks them out of what it printed, as the
demonstration does, adds them as a contact, and creates a drop for that name. Of the algorithms only
what they document is relied on, between the keys that meet.

The contacts may be added to by anybody in between, before and after, and calls may fail.

Results:
* `field_printed`: the keys are picked out as they were printed;
* **`introduced`**: a drop for the name is addressed to the device that printed the keys;
* **`introduced_delivered`**: and it is delivered to the device, or a digest or the AEAD is broken.
-/

namespace Keepstone.Cli

open Keepstone.Lib Keepstone.Crypto Keepstone.Core Keepstone.Store Keepstone.Node

variable {prim : Primitives}

/-! ## What a device prints -/

/-- The lines that `print_id` prints. -/
def idLines (signing ecdh : Bytes 32) (hybridKey : List UInt8) : List (List Char) :=
  ["signing: ".toList ++ hexEncode signing.toList, "ecdh:    ".toList ++ hexEncode ecdh.toList,
    "hybrid:  ".toList ++ hexEncode hybridKey]

variable (prim) in
/-- `print_id`, with the hybrid keypair it generates if there is none: what it prints if it
returns. -/
def printId (generated : HybridKeypair) : Program CliError Disk (List Char) := do
  createDirAll.mapErr fun e => .store (.io e)
  let own ← (Program.reads fun disk : Disk => identity disk.dir).mapErr .store
  let hybridKey ← (hybridPublicBytes prim generated).mapErr .store
  pure (unlines (idLines (own.signingPublic prim) (own.ecdhPublic prim) hybridKey))

/-- `field`. -/
def field (output : List Char) (label : String) : Option String :=
  ((lines output).findSome? fun line => stripPrefix (String.ofList (trim line)) label).map
    fun value => String.ofList (trim value.toList)

/-- What a label leaves of a line that begins with it. -/
theorem stripPrefix_append (label : String) (rest : List Char) :
    stripPrefix (String.ofList (label.toList ++ rest)) label = some (String.ofList rest) := by
  rw [stripPrefix_eq_some_iff, String.toList_ofList, String.toList_ofList]

/-- A label and a key have white space at neither end. -/
theorem trim_append_hexEncode {first : Char} (hfirst : isWhitespace first = false)
    (label : List Char) {bytes : List UInt8} (hbytes : bytes ≠ []) :
    trim (first :: (label ++ hexEncode bytes)) = first :: (label ++ hexEncode bytes) := by
  have hne := (isWord_hexEncode hbytes).1
  have hlast : (first :: (label ++ hexEncode bytes)).getLast (List.cons_ne_nil _ _) =
      (hexEncode bytes).getLast hne := by
    rw [List.getLast_cons (by simp [hne]), List.getLast_append_of_ne_nil _ hne]
  rw [trim_eq_self_iff hfirst, hlast]
  exact not_isWhitespace_of_mem_hexEncode (List.getLast_mem hne)

/-- No line of what is printed has a line ending in it. -/
theorem lines_idLines (signing ecdh : Bytes 32) (hybridKey : List UInt8) :
    lines (unlines (idLines signing ecdh hybridKey)) = idLines signing ecdh hybridKey := by
  have hline : ∀ (label : String) (key : List UInt8), '\n' ∉ label.toList → '\r' ∉ label.toList →
      OneLine (label.toList ++ hexEncode key) := by
    intro label key hn hr
    have hkey : ∀ c, isWhitespace c = true → c ∉ hexEncode key := by
      intro c hc hmem
      exact absurd (not_isWhitespace_of_mem_hexEncode hmem) (by simp [hc])
    constructor
    · simp only [List.mem_append, not_or]
      exact ⟨hn, hkey _ (by decide)⟩
    · simp only [List.mem_append, not_or]
      exact ⟨hr, hkey _ (by decide)⟩
  have hread := @lines_unlines_append (idLines signing ecdh hybridKey) ?_ []
  · rwa [List.append_nil, show lines [] = [] from rfl, List.append_nil] at hread
  · simp only [idLines, List.forall_mem_cons, List.not_mem_nil, false_implies, implies_true,
      and_true]
    exact ⟨hline _ _ (by decide) (by decide), hline _ _ (by decide) (by decide),
      hline _ _ (by decide) (by decide)⟩

/-- The first line with a label is the one that is picked out. -/
theorem field_eq {label : String} {value : List Char} {before after : List (List Char)}
    {line : List Char} {output : List Char} (hlines : lines output = before ++ line :: after)
    (hbefore : ∀ other ∈ before, ¬ label.toList <+: trim other)
    (hline : trim line = label.toList ++ value) :
    field output label = some (String.ofList (trim value)) := by
  have hnone : before.findSome?
      (fun other => stripPrefix (String.ofList (trim other)) label) = none := by
    rw [List.findSome?_eq_none_iff]
    intro other hother
    cases hstrip : stripPrefix (String.ofList (trim other)) label with
    | none => rfl
    | some rest =>
      rw [stripPrefix_eq_some_iff, String.toList_ofList] at hstrip
      exact absurd ⟨_, hstrip.symm⟩ (hbefore other hother)
  unfold field
  rw [hlines, List.findSome?_append, hnone, Option.none_or, List.findSome?_cons, hline,
    stripPrefix_append]
  simp

/-- **The keys are picked out as they were printed.** -/
theorem field_printed (signing ecdh : Bytes 32) {hybridKey : List UInt8} (hne : hybridKey ≠ []) :
    let printed := unlines (idLines signing ecdh hybridKey)
    field printed "signing:" = some (String.ofList (hexEncode signing.toList)) ∧
      field printed "ecdh:" = some (String.ofList (hexEncode ecdh.toList)) ∧
      field printed "hybrid:" = some (String.ofList (hexEncode hybridKey)) := by
  have hbytes : ∀ key : Bytes 32, key.toList ≠ [] := fun key h =>
    absurd (congrArg List.length h) (by rw [key.toList_length]; decide)
  have hsigning := @trim_append_hexEncode 's' (by decide) "igning: ".toList _ (hbytes signing)
  have hecdh := @trim_append_hexEncode 'e' (by decide) "cdh:    ".toList _ (hbytes ecdh)
  have hhybrid := @trim_append_hexEncode 'h' (by decide) "ybrid:  ".toList _ hne
  have hlines := lines_idLines signing ecdh hybridKey
  -- a label begins with another letter than the lines before its own
  have hfirst : ∀ (a b : Char) (label line : List Char), a ≠ b → trim line = b :: line.tail →
      ¬ a :: label <+: trim line := by
    intro a b label line hab hline hstart
    rw [hline, List.cons_prefix_cons] at hstart
    exact hab hstart.1
  intro printed
  refine ⟨?_, ?_, ?_⟩
  · rw [@field_eq "signing:" (' ' :: hexEncode signing.toList) [] _ _ printed hlines nofun hsigning,
      trim_space, trim_hexEncode]
  · rw [@field_eq "ecdh:" ("    ".toList ++ hexEncode ecdh.toList) [_] _ _ printed hlines ?_ hecdh]
    · exact congrArg (some ∘ String.ofList) (trim_hexEncode ecdh.toList)
    · intro other hother
      rw [List.mem_singleton.mp hother]
      exact hfirst 'e' 's' _ _ (by decide) hsigning
  · rw [@field_eq "hybrid:" ("  ".toList ++ hexEncode hybridKey) [_, _] _ _ printed hlines ?_
      hhybrid]
    · exact congrArg (some ∘ String.ofList) (trim_hexEncode hybridKey)
    · intro other hother
      rcases List.mem_pair.mp hother with rfl | rfl
      · exact hfirst 'h' 's' _ _ (by decide) hsigning
      · exact hfirst 'h' 'e' _ _ (by decide) hecdh

/-! ## The keys of a device -/

/-- The keypair that was saved is the one that is loaded, if its seed is one that is accepted. -/
theorem hybrid_saved {dir : Dir} {saved : HybridKeypair}
    (h : dir.lookup .hybrid = some (textBytes (hexEncode saved.toSecretBytes.toList)))
    (hseed : prim.mlKemSeedOk saved.kem = true) : hybrid prim dir = .ok saved := by
  have hload : HybridKeypair.fromSecretBytes prim saved.toSecretBytes = .ok saved := by
    have hbytes : saved.toSecretBytes.toList = saved.x25519.toList ++ saved.kem.toList :=
      toList_bytesOf _ _
    have hkem : bytesOf (saved.toSecretBytes.toList.drop 32)
        (by rw [List.length_drop, saved.toSecretBytes.toList_length]) = saved.kem := by
      apply List.Vector.toList_injective
      rw [toList_bytesOf, hbytes, List.drop_left' saved.x25519.toList_length]
    have hx25519 : takeBytes 32 saved.toSecretBytes (by decide) = saved.x25519 := by
      apply List.Vector.toList_injective
      rw [takeBytes, toList_bytesOf, hbytes, List.take_left' saved.x25519.toList_length]
    unfold HybridKeypair.fromSecretBytes
    simp only [hkem, hx25519, hseed, if_true]
  unfold hybrid readToString
  simp only [h, Option.bind_some, readText_textBytes, trim_hexEncode, hexDecode_hexEncode,
    tryBytes_eq_some_iff.mpr rfl, hload]
  rfl

/-- What `hybrid_or_create` returns is what is loaded afterwards. -/
theorem hybrid_of_orCreate {generated keypair : HybridKeypair}
    (hseed : prim.mlKemSeedOk generated.kem = true) {disk disk' : Disk}
    (h : (hybridOrCreate prim generated).exec disk = (.ok keypair, disk')) :
    hybrid prim disk'.dir = .ok keypair := by
  unfold hybridOrCreate at h
  obtain ⟨present, _, hpresent, h⟩ := Program.exec_bind_eq_ok h
  obtain ⟨-, rfl⟩ := Program.exec_reads_eq_ok hpresent
  cases present with
  | true =>
    obtain ⟨hload, rfl⟩ := Program.exec_reads_eq_ok h
    exact hload
  | false =>
    obtain ⟨⟨⟩, _, hsaved, h⟩ := Program.exec_bind_eq_ok h
    obtain ⟨rfl, rfl⟩ := Program.exec_pure_eq_ok h
    exact hybrid_saved (lookup_of_write (Program.exec_mapErr_eq_ok hsaved)) hseed

/-- The keys that a device has when it has printed them. -/
theorem exec_printId {generated : HybridKeypair} (hseed : prim.mlKemSeedOk generated.kem = true)
    {disk disk' : Disk} {printed : List Char}
    (h : (printId prim generated).exec disk = (.ok printed, disk')) :
    ∃ own keypair, identity disk'.dir = .ok own ∧ hybrid prim disk'.dir = .ok keypair ∧
      printed = unlines (idLines (own.signingPublic prim) (own.ecdhPublic prim)
        ((keypair.public prim).x25519.toList ++ (keypair.public prim).kem)) := by
  unfold printId at h
  obtain ⟨⟨⟩, middle, -, h⟩ := Program.exec_bind_eq_ok h
  obtain ⟨own, _, hread, h⟩ := Program.exec_bind_eq_ok h
  obtain ⟨hown, rfl⟩ := Program.exec_reads_eq_ok (Program.exec_mapErr_eq_ok hread)
  obtain ⟨hybridKey, last, hkey, h⟩ := Program.exec_bind_eq_ok h
  obtain ⟨rfl, rfl⟩ := Program.exec_pure_eq_ok h
  replace hkey := Program.exec_mapErr_eq_ok hkey
  have hsame : last.dir.lookup .identity = middle.dir.lookup .identity :=
    (keeps_hybridPublicBytes prim (ignores_lookup (by nofun) _).always generated).after rfl hkey
  unfold hybridPublicBytes at hkey
  obtain ⟨keypair, _, hkeypair, hkey⟩ := Program.exec_bind_eq_ok hkey
  obtain ⟨rfl, rfl⟩ := Program.exec_pure_eq_ok hkey
  exact ⟨own, keypair, (identity_congr hsame).trans hown, hybrid_of_orCreate hseed hkeypair, rfl⟩

/-- A device with an identity and no hybrid keypair prints the one it generates, and keeps it. -/
theorem exec_printId_first {dir : Dir} {own : Identity} (hown : identity dir = .ok own)
    (hnone : dir.lookup .hybrid = none) (generated : HybridKeypair) :
    (printId prim generated).exec ⟨dir, []⟩ =
      (.ok (unlines (idLines (own.signingPublic prim) (own.ecdhPublic prim)
        ((generated.public prim).x25519.toList ++ (generated.public prim).kem))),
        ⟨dir.insert .hybrid (textBytes (hexEncode generated.toSecretBytes.toList)), []⟩) := by
  have hopen : createDirAll.exec ⟨dir, []⟩ = (.ok (), ⟨dir, []⟩) := rfl
  have hkeypair : (hybridOrCreate prim generated).exec ⟨dir, []⟩ = (.ok generated,
      ⟨dir.insert .hybrid (textBytes (hexEncode generated.toSecretBytes.toList)), []⟩) := by
    refine (Program.exec_bind_ok (Program.exec_reads_ok rfl) _).trans ?_
    rw [hnone]
    rfl
  have hread : (Program.reads fun disk : Disk => identity disk.dir).exec ⟨dir, []⟩ =
      (.ok own, ⟨dir, []⟩) := Program.exec_reads_ok hown
  refine (Program.exec_bind_ok (Program.exec_mapErr_ok hopen) _).trans ?_
  refine (Program.exec_bind_ok (Program.exec_mapErr_ok hread) _).trans ?_
  exact Program.exec_bind_ok (Program.exec_mapErr_ok (Program.exec_bind_ok hkeypair _)) _

/-! ## From the contacts to the devices -/

/-- What a call of `contact-add` that returned has written. -/
theorem lookup_of_add {args : ContactArgs} {contact : Contact} (hargs : args.check = .ok contact)
    {disk disk' : Disk} (h : args.add.exec disk = (.ok (), disk')) :
    disk'.dir.lookup .contacts =
      some (textBytes (contactsText disk.dir ++ contactLine contact ++ ['\n'])) := by
  rw [ContactArgs.add, addContact_eq, finishAdd, Program.exec_ofExcept_bind hargs] at h
  obtain ⟨_, _, hfresh, h⟩ := Program.exec_bind_eq_ok h
  obtain ⟨-, rfl⟩ := Program.exec_ofExcept_eq_ok hfresh
  exact lookup_of_write (Program.exec_mapErr_eq_ok h)

/-- The devices of a name are those of all its contacts. -/
theorem mem_devicesOf {list : List Contact} {hybridMode : Bool} {name : String}
    {devices : List Device} (h : devicesOf list hybridMode name = .ok devices) {contact : Contact}
    (hcontact : contact ∈ list) (hname : contact.name = name) :
    (contact.ecdh, contact.hybrid) ∈ devices := by
  unfold devicesOf at h
  obtain ⟨-, -, h⟩ := bind_ok_iff.mp h
  have hmem : contact ∈ list.filter fun contact => contact.name = name :=
    List.mem_filter.mpr ⟨hcontact, decide_eq_true hname⟩
  obtain ⟨device, hdevice, hmade⟩ := exists_mem_of_forall₂ (mapM_ok_iff.mp h) hmem
  obtain ⟨-, -, hpair⟩ := bind_ok_iff.mp hmade
  obtain rfl := pure_ok_iff.mp hpair
  exact hdevice

/-- A contact whose name is given is among the devices. -/
theorem mem_resolve {dir : Dir} {args : CreateArgs} {devices : List Device} {list : List Contact}
    (hresolve : resolve dir args = .ok devices) (hlist : contacts dir = .ok list)
    {contact : Contact} (hcontact : contact ∈ list) (hname : contact.name ∈ args.names) :
    (contact.ecdh, contact.hybrid) ∈ devices := by
  obtain ⟨list', hlist', hresolve⟩ := bind_ok_iff.mp hresolve
  obtain rfl := Except.ok.inj (hlist.symm.trans hlist')
  obtain ⟨recipients, hrecipients, hflatten⟩ := bind_ok_iff.mp hresolve
  obtain rfl := pure_ok_iff.mp hflatten
  obtain ⟨own, hown, hdevices⟩ := exists_mem_of_forall₂ (mapM_ok_iff.mp hrecipients) hname
  exact List.mem_flatten.mpr ⟨own, hown, mem_devicesOf hdevices hcontact rfl⟩

/-- A hybrid public key is read back from its bytes, if the ML-KEM key has its length. -/
theorem hybridPublicFromBytes_append {pub : HybridPublic} (hkem : pub.kem.length = 1184) :
    hybridPublicFromBytes (pub.x25519.toList ++ pub.kem) = .ok pub := by
  have hlen : (pub.x25519.toList ++ pub.kem).length = 32 + 1184 := by
    rw [List.length_append, pub.x25519.toList_length, hkem]
  have hx25519 : bytesOf ((pub.x25519.toList ++ pub.kem).take 32)
      (by rw [List.length_take, hlen]; rfl) = pub.x25519 := by
    apply List.Vector.toList_injective
    rw [toList_bytesOf, List.take_left' pub.x25519.toList_length]
  rw [hybridPublicFromBytes, dif_pos hlen, hx25519, List.drop_left' pub.x25519.toList_length]

/-! ## Introducing a device -/

/-- The keys a call of `contact-add` is given are those that were printed. -/
structure Reads (printed : List Char) (args : ContactArgs) : Prop where
  signing : field printed "signing:" = some args.signing
  ecdh : field printed "ecdh:" = some args.ecdh
  hybrid : field printed "hybrid:" = args.hybrid

/-- The contacts of a directory were added by calls of `contact-add` to none, and one of those that
returned had these arguments. -/
def Added (dir : Dir) (args : ContactArgs) : Prop :=
  ∃ calls first, first.dir.lookup .contacts = none ∧ first.Intact ∧
    args ∈ (addAll calls first).1 ∧
    dir.lookup .contacts = (addAll calls first).2.dir.lookup .contacts

/-- The contact that such a call has left. -/
theorem Added.exists_contact {dir : Dir} {args : ContactArgs} (h : Added dir args) :
    ∃ contact list, args.check = .ok contact ∧ contacts dir = .ok list ∧
      contact.recorded ∈ list := by
  obtain ⟨calls, first, hempty, hintact, hargs, hsame⟩ := h
  obtain ⟨added, hbook, hcalls, -⟩ := (Book.of_none hempty).addAll calls hintact
  rw [List.nil_append] at hbook
  obtain ⟨contact, hcontact, hcheck⟩ := exists_mem_of_forall₂ hcalls hargs
  exact ⟨contact, _, hcheck, contacts_of_written (hbook.congr hsame).written,
    List.mem_map_of_mem hcontact⟩

/-- The keys of that contact are the ones that were printed. -/
theorem Reads.contact {signing ecdh : Bytes 32} {hybridKey : List UInt8} (hne : hybridKey ≠ [])
    {args : ContactArgs} (h : Reads (unlines (idLines signing ecdh hybridKey)) args)
    {contact : Contact} (hcheck : args.check = .ok contact) :
    contact.recorded.name = args.name ∧ contact.recorded.ecdh = ecdh ∧
      contact.recorded.hybrid = some hybridKey := by
  obtain ⟨-, hecdh, hhybrid⟩ := field_printed signing ecdh hne
  obtain ⟨-, hnames, hparsed⟩ := check_eq_ok_iff.mp hcheck
  refine ⟨hnames.name, ?_, ?_⟩
  · have hread := hnames.ecdh
    rw [← Option.some.inj (hecdh.symm.trans h.ecdh), String.toList_ofList,
      Store.hex32_hexEncode] at hread
    exact (Except.ok.inj hread).symm
  · rw [← hhybrid.symm.trans h.hybrid] at hparsed
    have hkey : contact.hybrid = some hybridKey := by
      simpa [parseHybrid, hexDecode_hexEncode] using hparsed.symm
    simp [Contact.recorded, hkey, hne]

/-- The call with the keys as they were printed. -/
def printedArgs (name : String) (signing ecdh : Bytes 32) (hybridKey : List UInt8) :
    ContactArgs where
  name := name
  signing := String.ofList (hexEncode signing.toList)
  ecdh := String.ofList (hexEncode ecdh.toList)
  hybrid := some (String.ofList (hexEncode hybridKey))

theorem reads_printedArgs (name : String) (signing ecdh : Bytes 32) {hybridKey : List UInt8}
    (hne : hybridKey ≠ []) : Reads (unlines (idLines signing ecdh hybridKey))
      (printedArgs name signing ecdh hybridKey) := by
  obtain ⟨hsigning, hecdh, hhybrid⟩ := field_printed signing ecdh hne
  exact ⟨hsigning, hecdh, hhybrid⟩

theorem check_printedArgs {name : String} (hname : IsWord name.toList) (signing ecdh : Bytes 32)
    (hybridKey : List UInt8) : (printedArgs name signing ecdh hybridKey).check =
      .ok ⟨name, signing, ecdh, some hybridKey⟩ := by
  refine check_eq_ok_iff.mpr ⟨hname, ⟨rfl, ?_, ?_⟩, ?_⟩
  · rw [printedArgs, String.toList_ofList, Store.hex32_hexEncode]
  · rw [printedArgs, String.toList_ofList, Store.hex32_hexEncode]
  · simp [printedArgs, parseHybrid, hexDecode_hexEncode]

/-- **A drop for a name is addressed to the device whose printed keys were added under it.** -/
theorem introduced (hkem : ∀ seed, (prim.mlKemPublic seed).length = 1184)
    {generated : HybridKeypair} (hseed : prim.mlKemSeedOk generated.kem = true) {own own' : Disk}
    {printed : List Char} (hprint : (printId prim generated).exec own = (.ok printed, own'))
    {args : ContactArgs} (hreads : Reads printed args) {dir : Dir} (hadded : Added dir args)
    {create : CreateArgs} (hname : args.name ∈ create.names) {devices : List Device}
    (hdevices : resolve dir create = .ok devices) :
    Addressed prim own'.dir create.hybridMode devices := by
  obtain ⟨self, keypair, hself, hkeypair, rfl⟩ := exec_printId hseed hprint
  have hpub := @hybridPublicFromBytes_append (keypair.public prim) (hkem keypair.kem)
  have hne : (keypair.public prim).x25519.toList ++ (keypair.public prim).kem ≠ [] := by
    intro h
    rw [h] at hpub
    cases hpub
  obtain ⟨contact, list, hcheck, hlist, hcontact⟩ := hadded.exists_contact
  obtain ⟨hsame, hecdh, hhybrid⟩ := hreads.contact hne hcheck
  have hmem := mem_resolve hdevices hlist hcontact (hsame ▸ hname)
  exact ⟨self, _, hself, hmem, hecdh, fun _ => ⟨keypair, _, hkeypair, hhybrid, hpub⟩⟩

/-! ## The whole way -/

/-- **From a device's keys to a message for it.** A device prints its keys; they are added as a
contact, among any others; a drop is created for that name, pushed to a relay and fetched from there
by the device, whose keys are the same. Then it opens the drop to the message, and verifies it; or it
has come upon an entry that opens with its keys to another key, or two envelopes have one SHA-256
digest. -/
theorem introduced_delivered (prim : Primitives) (laws : SignatureLaws prim)
    (lengths : LengthLaws prim) (hkem : ∀ seed, (prim.mlKemPublic seed).length = 1184)
    {generated : HybridKeypair} (hseed : prim.mlKemSeedOk generated.kem = true) {own own' : Disk}
    {printed : List Char} (hprint : (printId prim generated).exec own = (.ok printed, own'))
    {contact : ContactArgs} (hreads : Reads printed contact) {disk disk' : Disk}
    (hadded : Added disk.dir contact)
    {cellAt : Float → Float → UInt8 → Except CoreError String} {now : UInt64} {args : CreateArgs}
    (hname : contact.name ∈ args.names) {draws : Draws} {created : CreatedDrop}
    (hcreate : (createDrop prim cellAt now args draws).exec disk = (.ok created, disk'))
    {raw : List UInt8} (hraw : disk'.dir.lookup (.drop created.id) = some raw)
    (hfits : raw.length + 27 ≤ maxFrame) (relay : Relay) (dirText : String) :
    ∃ store, (push prim disk'.dir dirText created.id.toHex).exec relay.store = (.ok (), store) ∧
      ∀ later : List Event,
        (∀ index < created.chunks.toNat, ∀ other ∈ offeredChunks prim created.id
          (UInt32.ofNat index) { relay with store } later,
          disk'.dir.lookup (.chunk created.id index) = some other) →
        (∃ raw', (Relay.run prim { relay with store } later).store.getDrop created.id = some raw' ∧
          Collides prim.sha256 [raw] [raw']) ∨
        ∀ dir, identity dir = identity own'.dir → hybrid prim dir = hybrid prim own'.dir →
          Works prim draws dir → WholeLog dir → KeyUsable dir → ∀ peerText, ∃ dir',
            (fetch prim (relayPeer prim (Relay.run prim { relay with store } later).store) peerText
              created.id.toHex).exec ⟨dir, []⟩ = (.ok (), ⟨dir', []⟩) ∧
            (openDrop prim dir' created.id = .ok args.plaintext ∨
              ∃ signed body, readDrop disk'.dir created.id = .ok (signed, body) ∧
                Strays prim dir draws.contentKey body) ∧
            ∀ generated now, ∃ v disk,
              (verify prim generated now created.id).exec ⟨dir', []⟩ = (.ok v, disk) ∧
              v.signature = true ∧ v.inclusion = true := by
  obtain ⟨prepared, signed, body, hprepared, hcreated⟩ := exec_createDrop hcreate
  obtain ⟨devices, wrapped, hprepares⟩ := prepareDrop_ok_iff.mp hprepared
  have haddressed := introduced hkem hseed hprint hreads hadded hname hprepares.resolved
  obtain ⟨store, hpush, hlater⟩ := drop_arrives laws lengths hcreate hraw hfits relay dirText
  refine ⟨store, hpush, fun later hoffered => (hlater later hoffered).imp_right ?_⟩
  intro harrives dir hidentity hhybrid works hlog hkey peerText
  obtain ⟨dir', hfetch, harrived⟩ := harrives dir hlog hkey peerText
  have hholds := hcreated.of_lookup hprepares harrived.drop harrived.chunk
  refine ⟨dir', hfetch, ?_, harrived.verified⟩
  rw [← Addressed.congr (harrived.identity.trans hidentity) (harrived.hybrid.trans hhybrid)]
    at haddressed
  have hopens := hholds.openDrop_or_strays laws
    (works.congr harrived.identity harrived.hybrid) hprepares haddressed
  exact hopens.imp_right fun hstrays =>
    ⟨signed, body, hcreated.readDrop, hstrays.congr harrived.identity harrived.hybrid⟩

/-! ### The known introduction -/

namespace KnownIntroduction

open Keepstone.Core.KnownAnswers
open KnownAuthor (args draws keypair hybridKey lengthLaws)

/-- What the recipient prints, who has an identity and generates its hybrid keypair. -/
def printed : List Char :=
  unlines (idLines (recipient.signingPublic sending) (recipient.ecdhPublic sending) hybridKey)

/-- The directory it has then. -/
def dir : Dir :=
  AList.insert .hybrid (textBytes (hexEncode keypair.toSecretBytes.toList)) KnownMessage.dir

theorem exec_print : (printId sending keypair).exec ⟨KnownMessage.dir, []⟩ =
    (.ok printed, ⟨dir, []⟩) :=
  exec_printId_first KnownMessage.identity_dir (KnownMessage.lookup_dir (by simp)) keypair

/-- The call of `contact-add` with what it printed. -/
def contact : ContactArgs :=
  printedArgs "bob" (recipient.signingPublic sending) (recipient.ecdhPublic sending) hybridKey

theorem length_mlKemPublic (seed : Bytes 64) : (sending.mlKemPublic seed).length = 1184 := by
  have hkey : sending.mlKemPublic seed = seed.toList ++ List.replicate 1120 0 := rfl
  rw [hkey, List.length_append, List.Vector.toList_length, List.length_replicate]

theorem hybridKey_ne_nil : hybridKey ≠ [] := by
  intro h
  have hlen := KnownAuthor.length_hybridKey
  rw [h, List.length_nil] at hlen
  omega

theorem check_contact : contact.check = .ok KnownAuthor.contact := by
  have hecdh : recipientPublic = recipient.ecdhPublic sending := KnownMessage.device_recipient
  have hword : IsWord "bob".toList := by simp [IsWord, isWhitespace]
  rw [contact, check_printedArgs hword, ← hecdh]
  rfl

/-- The known author has this contact and no other. -/
theorem added : Added KnownAuthor.dir contact := by
  obtain ⟨dir, hexec, -⟩ := add_first check_contact
  have hwritten := lookup_of_add check_contact hexec
  refine ⟨[contact], ⟨∅, []⟩, AList.lookup_empty _, intact_nil ∅, ?_, ?_⟩
  · rw [addAll_returned hexec]
    exact List.mem_cons_self
  · have hline : contactLine KnownAuthor.contact ++ ['\n'] = KnownAuthor.contactsText := by
      simp [contactLine, contactDevice, spaced, hybridText, KnownAuthor.contactsText,
        KnownAuthor.contact]
    rw [addAll_returned hexec, KnownAuthor.dir, AList.lookup_insert]
    refine Eq.trans ?_ hwritten.symm
    rw [written_empty.text, List.append_assoc, hline]
    rfl

theorem identity_dir : identity dir = .ok recipient :=
  (identity_congr (AList.lookup_insert_ne (by simp))).trans KnownMessage.identity_dir

theorem hybrid_dir : hybrid sending dir = .ok keypair :=
  hybrid_saved (AList.lookup_insert _) rfl

theorem agree : Agree sending recipient.ecdh ephemeral := by
  unfold Agree
  decide +kernel

/-- The ML-KEM stand-in decapsulates what it encapsulated. -/
theorem decapsulates (seed : Bytes 64) (random : Bytes 32) : Decapsulates sending seed random := by
  intro ciphertext shared h
  have hkey : (sending.mlKemPublic seed).length = 1184 := length_mlKemPublic seed
  have hsome : sending.mlKemEncapsulate (sending.mlKemPublic seed) random = some _ := if_pos hkey
  obtain ⟨rfl, rfl⟩ := Prod.mk.inj (Option.some.inj (hsome.symm.trans h))
  have hlen : (random.toList ++ List.replicate 1056 (0 : UInt8)).length = 1088 := by
    rw [List.length_append, List.Vector.toList_length, List.length_replicate]
  refine (if_pos hlen).trans ?_
  rw [← List.append_assoc]
  rfl

theorem works : Works sending draws dir where
  aead _ _ _ _ _ h := sending_opens h
  agree own hown position := by
    obtain rfl := Except.ok.inj (identity_dir.symm.trans hown)
    exact agree
  nonzero own hown position := by
    obtain rfl := Except.ok.inj (identity_dir.symm.trans hown)
    exact (by decide +kernel : (sending.x25519 recipient.ecdh
      (sending.x25519Public ephemeral)).toList.all (· = 0) = false)
  agreeHybrid own hown position := by
    obtain rfl := Except.ok.inj (hybrid_dir.symm.trans hown)
    exact agree
  decapsulates own hown position := by
    obtain rfl := Except.ok.inj (hybrid_dir.symm.trans hown)
    exact decapsulates _ _

/-- No entry of the known drop is a stray one: one is the recipient's, and the decoys have a tag of
zeros. -/
theorem not_strays {prepared : Prepared} {devices : List Device} {wrapped : List WrappedKey}
    (h : Prepares sending (args 1 false) draws KnownAuthor.dir prepared devices wrapped)
    {body : DropBody} (hkeys : body.wrappedKeys = prepared.wrappedKeys)
    (hnonce : body.dropNonce = draws.dropNonce) : ¬ Strays sending dir draws.contentKey body := by
  rintro ⟨own, entry, key, hown, hentry, htag, hkey, hne⟩
  obtain rfl := Except.ok.inj (identity_dir.symm.trans hown)
  rw [hkeys] at hentry
  rcases h.mem_entries hentry with ⟨device, position, hdevice, hwrap⟩ | ⟨i, -, rfl⟩
  · have hdevices : devices = [KnownAuthor.device] :=
      Except.ok.inj (h.resolved.symm.trans (KnownAuthor.resolve_dir 1 false))
    have hmem : device ∈ devices := List.fst_mem_of_mem_zipIdx hdevice
    rw [hdevices, List.mem_singleton] at hmem
    have hclassical : (args 1 false).hybridMode ≠ true := fun hmode =>
      Bool.false_ne_true ((KnownAuthor.hybridMode_args 1 false).symm.trans hmode)
    have hopens := works.entryKey_own identity_dir (hmem ▸ KnownMessage.device_recipient)
      (absurd · hclassical) (wrapKey_ok_iff.mp hwrap).2
    exact hne (Option.some.inj (Except.ok.inj (hkey.symm.trans hopens)))
  · have hzero : deriveTag sending (recipient.ecdhPublic sending) draws.dropNonce ≠
        .ok (List.Vector.replicate 8 0) := by decide +kernel
    rw [hnonce] at htag
    exact hzero htag

/-- The recipient prints its keys, the author adds them and creates a drop for that name. -/
theorem known_device_introduced : ∃ created stored store dir',
    (printId sending keypair).exec ⟨KnownMessage.dir, []⟩ = (.ok printed, ⟨dir, []⟩) ∧
    Reads printed contact ∧ Added KnownAuthor.dir contact ∧
    (createDrop sending KnownAuthor.cellAt 0 (args 1 false) draws).exec ⟨KnownAuthor.dir, []⟩ =
      (.ok created, stored) ∧
    (push sending stored.dir "alice" created.id.toHex).exec .new = (.ok (), store) ∧
    (fetch sending (relayPeer sending store) "relay" created.id.toHex).exec ⟨dir, []⟩ =
      (.ok (), ⟨dir', []⟩) ∧
    openDrop sending dir' created.id = .ok (utf8 "hello") := by
  obtain ⟨created, stored, hcreate⟩ :=
    KnownAuthor.exists_created Nat.one_ne_zero (by decide : 1 ≤ minTags) false
  obtain ⟨prepared, signed, body', hprepared, hcreated⟩ := exec_createDrop hcreate
  obtain ⟨devices, wrapped, hprepares⟩ := prepareDrop_ok_iff.mp hprepared
  have hlen := KnownMessage.length_raw (by decide : 1 ≤ minTags) hcreate hcreated.envelope
  have hfits : signed.raw.length + 27 ≤ maxFrame := by
    unfold maxFrame
    omega
  have hreads : Reads printed contact := reads_printedArgs _ _ _ hybridKey_ne_nil
  have hname : contact.name ∈ (args 1 false).names := List.mem_cons_self
  obtain ⟨store, hpush, hlater⟩ := introduced_delivered sending sendingLaws lengthLaws
    length_mlKemPublic rfl exec_print hreads added hname hcreate hcreated.envelope hfits .start
    "alice"
  rcases hlater [] (fun _ _ _ hother => absurd hother List.not_mem_nil) with
    ⟨raw', hheld, a, ha, b, hb, hne, -⟩ | hreceives
  · -- the relay holds what was pushed
    have hdrop := held_of_push
      (sendable_of_created sendingLaws lengthLaws hprepares hcreated hfits) hpush
    obtain rfl := Option.some.inj (hdrop.symm.trans hheld)
    exact absurd ((List.mem_singleton.mp ha).trans (List.mem_singleton.mp hb).symm) hne
  · have hnone : ∀ file, file ≠ .hybrid → file ≠ .identity → dir.lookup file = none := by
      intro file hhybrid hidentity
      rw [dir, AList.lookup_insert_ne hhybrid, KnownMessage.lookup_dir hidentity]
    have hlog : WholeLog dir := by
      rw [WholeLog, logBytes, logEntries, hnone _ (by simp) (by simp)]
      rfl
    obtain ⟨dir', hfetch, hopens, -⟩ :=
      hreceives dir rfl rfl works hlog (.inl (hnone _ (by simp) (by simp))) "relay"
    refine ⟨created, stored, store, dir', exec_print, hreads, added, hcreate, hpush, hfetch, ?_⟩
    refine hopens.resolve_right ?_
    rintro ⟨signed', body, hread, hstrays⟩
    obtain ⟨rfl, rfl⟩ := Prod.mk.inj (Except.ok.inj (hcreated.readDrop.symm.trans hread))
    exact not_strays hprepares hcreated.wrappedKeys hcreated.dropNonce hstrays

end KnownIntroduction

end Keepstone.Cli
