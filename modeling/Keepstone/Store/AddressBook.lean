import Keepstone.Store.Contacts

/-!
# The address book over calls (`crates/store/src/lib.rs:330-395`)

`add_contact` finds a device that is already there by the first words of a line, and `contacts` reads
the words of a line. The two agree on the lines that `add_contact` writes: names without white space,
keys in lower-case hexadecimal, single spaces.

Calls may fail, also because the system refuses a write; a write that is cut short is the subject of
`Store/Directory.lean`.

Results:
* `Book.add`, `Book.failed`: what a call that returns and one that fails do to the book;
* **`addAll_exact`**: over any calls, one record a call that returned, in order, and no device twice;
* **`addAll_hybrid_iff`**: which calls have their hybrid key read back as it was given.
-/

namespace Keepstone.Store

open Keepstone.Lib Keepstone.Crypto

/-! ## Calls -/

/-- `add_contact` with these arguments. -/
def ContactArgs.add (args : ContactArgs) : Program StoreError Disk Unit :=
  addContact args.name args.signing args.ecdh args.hybrid

/-- Calls one after the other: those that returned, and the disk after the last. -/
def addAll : List ContactArgs → Disk → List ContactArgs × Disk
  | [], disk => ([], disk)
  | args :: calls, disk =>
    match args.add.exec disk with
    | (.ok (), next) => (args :: (addAll calls next).1, (addAll calls next).2)
    | (.error _, next) => addAll calls next

theorem addAll_returned {args : ContactArgs} {disk next : Disk}
    (h : args.add.exec disk = (.ok (), next)) (calls : List ContactArgs) :
    addAll (args :: calls) disk = (args :: (addAll calls next).1, (addAll calls next).2) := by
  rw [addAll, h]

theorem addAll_failed {args : ContactArgs} {disk next : Disk} {e : StoreError}
    (h : args.add.exec disk = (.error e, next)) (calls : List ContactArgs) :
    addAll (args :: calls) disk = addAll calls next := by
  rw [addAll, h]

/-- The device of a contact under its name. -/
def Contact.device (contact : Contact) : String × Bytes 32 × Bytes 32 :=
  (contact.name, contact.signing, contact.ecdh)

theorem hexEncode_injective : Function.Injective hexEncode := by
  intro a b h
  have hdecode := congrArg hexDecode h
  rw [hexDecode_hexEncode, hexDecode_hexEncode] at hdecode
  exact Option.some.inj hdecode

theorem contactDevice_inj {a b : Contact} :
    contactDevice a = contactDevice b ↔ a.device = b.device := by
  simp only [contactDevice, Contact.device, List.cons.injEq, and_true, Prod.mk.injEq,
    String.toList_inj, hexEncode_injective.eq_iff, List.Vector.toList_injective.eq_iff]

/-- The call gives the contact's name and keys. -/
structure ContactArgs.Names (args : ContactArgs) (contact : Contact) : Prop where
  name : contact.name = args.name
  signing : hex32 args.signing.toList = .ok contact.signing
  ecdh : hex32 args.ecdh.toList = .ok contact.ecdh

/-- What the checks make of the arguments. -/
theorem check_eq_ok_iff {args : ContactArgs} {contact : Contact} :
    args.check = .ok contact ↔
      contact.Named ∧ args.Names contact ∧ parseHybrid args.hybrid = .ok contact.hybrid := by
  obtain ⟨name, signing, ecdh, hybrid⟩ := contact
  have hname : (!args.name.toList.isEmpty && !args.name.toList.any isWhitespace) = true ↔
      IsWord args.name.toList := by
    simp [IsWord]
  unfold ContactArgs.check
  simp only [bind_ok_iff, pure_ok_iff, check_ok_iff, hname, Contact.mk.injEq, exists_const]
  constructor
  · rintro ⟨hword, _, hsigning, _, hecdh, _, hhybrid, rfl, rfl, rfl, rfl⟩
    exact ⟨hword, ⟨rfl, hsigning, hecdh⟩, hhybrid⟩
  · rintro ⟨hword, ⟨hsame, hsigning, hecdh⟩, hhybrid⟩
    obtain rfl : name = args.name := hsame
    exact ⟨hword, _, hsigning, _, hecdh, _, hhybrid, rfl, rfl, rfl, rfl⟩

/-! ## The book -/

/-- The file is what `add_contact` writes for `entries`, which are different devices. -/
structure Book (dir : Dir) (entries : List Contact) : Prop where
  written : Written dir entries
  distinct : entries.Pairwise fun a b => a.device ≠ b.device

theorem Book.of_none {dir : Dir} (h : dir.lookup .contacts = none) : Book dir [] :=
  ⟨Written.of_none h, List.Pairwise.nil⟩

theorem Book.congr {dir dir' : Dir} {entries : List Contact} (h : Book dir entries)
    (hsame : dir'.lookup .contacts = dir.lookup .contacts) : Book dir' entries := by
  refine ⟨⟨h.written.named, ?_⟩, h.distinct⟩
  rw [← h.written.text]
  unfold contactsText readToString
  rw [hsame]

/-- A line begins with a device when it is that device's. -/
theorem spaced_prefix_contactLine_iff {contact entry : Contact} (hcontact : contact.Named)
    (hentry : entry.Named) :
    spaced (contactDevice contact) <+: contactLine entry ↔ contact.device = entry.device := by
  rw [← contactDevice_inj]
  constructor
  · rintro ⟨rest, hrest⟩
    have hwords := congrArg splitWhitespace hrest
    unfold contactLine at hwords
    rw [splitWhitespace_spaced_append (isWord_contactDevice hcontact),
      splitWhitespace_spaced_append (isWord_contactDevice hentry)] at hwords
    exact (List.append_inj hwords rfl).1
  · intro h
    rw [contactLine, h]
    exact List.prefix_append _ _

/-- A call that returns adds a device that was not there. -/
theorem Book.add {args : ContactArgs} {entries : List Contact} {disk disk' : Disk}
    (hbook : Book disk.dir entries) (h : args.add.exec disk = (.ok (), disk')) :
    ∃ contact, args.check = .ok contact ∧ Book disk'.dir (entries ++ [contact]) := by
  rw [ContactArgs.add, addContact_eq] at h
  obtain ⟨contact, hargs⟩ := exists_check_of_finishAdd h
  refine ⟨contact, hargs, (hbook.written.finishAdd hargs h).1, ?_⟩
  have hfresh := (exec_finishAdd hargs h).1
  rw [hbook.written.text, lines_writtenText hbook.written.named] at hfresh
  rw [List.pairwise_append]
  refine ⟨hbook.distinct, List.pairwise_singleton _ _, fun entry hentry other hother heq => ?_⟩
  obtain rfl := List.mem_singleton.mp hother
  refine hfresh _ (List.mem_map_of_mem hentry) ?_
  rw [spaced_prefix_contactLine_iff (named_of_check hargs) (hbook.written.named entry hentry)]
  exact heq.symm

/-- A call that fails on a disk that tears no write leaves the files as they were. -/
theorem ContactArgs.dir_of_failed {args : ContactArgs} {disk disk' : Disk} {e : StoreError}
    (hintact : disk.Intact) (h : args.add.exec disk = (.error e, disk')) :
    disk'.dir = disk.dir := by
  rw [ContactArgs.add, addContact_eq] at h
  unfold finishAdd at h
  rcases Program.exec_bind_eq_error h with hfailed | ⟨contact, middle, hargs, h⟩
  · rw [(Prod.mk.inj hfailed).2]
  obtain ⟨-, rfl⟩ := Program.exec_ofExcept_eq_ok hargs
  rcases Program.exec_bind_eq_error h with hfailed | ⟨_, middle, hfresh, h⟩
  · rw [(Prod.mk.inj hfailed).2]
  obtain ⟨-, rfl⟩ := Program.exec_ofExcept_eq_ok hfresh
  obtain ⟨_, hwrite⟩ := Program.exec_mapErr_eq_error h
  exact exec_call_eq_error hintact hwrite

theorem ContactArgs.intact_add {args : ContactArgs} {disk : Disk} (hintact : disk.Intact) :
    (args.add.exec disk).2.Intact := by
  have hallows : Allows (Safely fun _ => True) .contacts :=
    Ignores.safely fun _ _ _ => trivial
  exact (keeps_addContact hallows _ _ _ _ disk ⟨trivial, hintact⟩).1.2

/-- **Calls keep the book**, and each that returns adds its contact at the end. -/
theorem Book.addAll {entries : List Contact} (calls : List ContactArgs) {disk : Disk}
    (hbook : Book disk.dir entries) (hintact : disk.Intact) :
    ∃ added, Book (addAll calls disk).2.dir (entries ++ added) ∧
      List.Forall₂ (fun args contact => args.check = .ok contact) (addAll calls disk).1 added ∧
      (addAll calls disk).2.Intact := by
  induction calls generalizing entries disk with
  | nil => exact ⟨[], (List.append_nil entries).symm ▸ hbook, List.Forall₂.nil, hintact⟩
  | cons args calls ih =>
    have hnext := args.intact_add hintact
    cases hexec : args.add.exec disk with
    | mk result next =>
      rw [hexec] at hnext
      cases result with
      | error e =>
        have hsame := args.dir_of_failed hintact hexec
        rw [addAll_failed hexec]
        exact ih (hsame ▸ hbook) hnext
      | ok u =>
        obtain ⟨contact, hargs, hadded⟩ := hbook.add hexec
        obtain ⟨added, hlast, hcalls, hintact'⟩ := ih hadded hnext
        rw [addAll_returned hexec]
        refine ⟨contact :: added, ?_, List.Forall₂.cons hargs hcalls, hintact'⟩
        rwa [List.append_assoc, List.singleton_append] at hlast

/-- A call for a device that is in the book fails before it writes. -/
theorem Book.refuses {entries : List Contact} {disk : Disk} (hbook : Book disk.dir entries)
    {args : ContactArgs} {entry : Contact} (hentry : entry ∈ entries) (hnames : args.Names entry) :
    ∃ e, args.add.exec disk = (.error e, disk) := by
  rw [ContactArgs.add, addContact_eq]
  unfold finishAdd
  cases hargs : args.check with
  | error e => exact ⟨e, Program.exec_bind_error rfl _⟩
  | ok contact =>
    obtain ⟨hnamed, hown, -⟩ := check_eq_ok_iff.mp hargs
    have hdevice : contact.device = entry.device := by
      have hsigning := Except.ok.inj (hown.signing.symm.trans hnames.signing)
      have hecdh := Except.ok.inj (hown.ecdh.symm.trans hnames.ecdh)
      rw [Contact.device, Contact.device, hown.name, hnames.name, hsigning, hecdh]
    have hline : (lines (contactsText disk.dir)).any (fun line =>
        (spaced (contactDevice contact)).isPrefixOf line) = true := by
      rw [hbook.written.text, lines_writtenText hbook.written.named, List.any_eq_true]
      refine ⟨contactLine entry, List.mem_map_of_mem hentry, List.isPrefixOf_iff_prefix.mpr ?_⟩
      exact (spaced_prefix_contactLine_iff hnamed (hbook.written.named entry hentry)).mpr hdevice
    rw [Program.exec_ofExcept_bind rfl]
    unfold recordContact
    rw [hline]
    exact ⟨_, Program.exec_bind_error rfl _⟩

/-- **Devices are never duplicated in the address book.** After any calls from an empty directory,
`contacts` returns one record a call that returned, in order, with its name and keys; no two are of
one device, and a call for one of the devices fails and changes nothing. -/
theorem addAll_exact (calls : List ContactArgs) {disk : Disk}
    (hempty : disk.dir.lookup .contacts = none) (hintact : disk.Intact) :
    let last := (addAll calls disk).2
    ∃ records, contacts last.dir = .ok records ∧
      List.Forall₂ ContactArgs.Names (addAll calls disk).1 records ∧
      records.Pairwise (fun a b => (a.name, a.signing, a.ecdh) ≠ (b.name, b.signing, b.ecdh)) ∧
      ∀ args : ContactArgs, ∀ record ∈ records, args.Names record →
        ∃ e, args.add.exec last = (.error e, last) := by
  intro last
  obtain ⟨added, hbook, hcalls, -⟩ := (Book.of_none hempty).addAll calls hintact
  rw [List.nil_append] at hbook
  refine ⟨_, contacts_of_written hbook.written, ?_, ?_, ?_⟩
  · rw [List.forall₂_map_right_iff]
    refine hcalls.imp fun args contact hargs => ?_
    obtain ⟨hname, hsigning, hecdh⟩ := (check_eq_ok_iff.mp hargs).2.1
    exact ⟨hname, hsigning, hecdh⟩
  · rw [List.pairwise_map]
    exact hbook.distinct
  · intro args record hrecord hnames
    obtain ⟨entry, hentry, rfl⟩ := List.mem_map.mp hrecord
    exact hbook.refuses hentry ⟨hnames.name, hnames.signing, hnames.ecdh⟩

/-- The first call is answered, on a disk that fails no call. -/
theorem add_first {args : ContactArgs} {contact : Contact} (hargs : args.check = .ok contact) :
    ∃ dir, args.add.exec ⟨∅, []⟩ = (.ok (), ⟨dir, []⟩) ∧ Book dir [contact] := by
  have hfresh : ∀ line ∈ lines (contactsText ∅), ¬ spaced (contactDevice contact) <+: line := by
    rw [written_empty.text]
    exact fun line hline => absurd hline List.not_mem_nil
  obtain ⟨dir, hexec⟩ := finishAdd_returns hargs hfresh ∅
  refine ⟨dir, (addContact_eq args _).trans hexec, ?_, List.pairwise_singleton _ _⟩
  exact (written_empty.finishAdd hargs hexec).1

theorem intact_nil (dir : Dir) : Disk.Intact ⟨dir, []⟩ := fun _ h => absurd h List.not_mem_nil

/-- The same call twice: the second fails, and there is one record. -/
theorem known_call_repeated :
    (addAll [knownArgs 0, knownArgs 0] ⟨∅, []⟩).1 = [knownArgs 0] ∧
    ∃ records, contacts (addAll [knownArgs 0, knownArgs 0] ⟨∅, []⟩).2.dir = .ok records ∧
      List.Forall₂ ContactArgs.Names (addAll [knownArgs 0, knownArgs 0] ⟨∅, []⟩).1 records := by
  obtain ⟨dir, hexec, hbook⟩ := add_first (check_known 0)
  obtain ⟨e, hagain⟩ := @Book.refuses _ ⟨dir, []⟩ hbook (knownArgs 0) _ List.mem_cons_self
    (check_eq_ok_iff.mp (check_known 0)).2.1
  obtain ⟨records, hcontacts, hnames, -⟩ := addAll_exact [knownArgs 0, knownArgs 0]
    (AList.lookup_empty _) (intact_nil ∅)
  refine ⟨?_, records, hcontacts, hnames⟩
  have hfirst : (knownArgs 0).add.exec ⟨∅, []⟩ = (.ok (), ⟨dir, []⟩) := hexec
  rw [addAll_returned hfirst, addAll_failed hagain]
  rfl

/-! ## Hybrid keys -/

/-- The hybrid key of a record is the one the call was given. -/
def ContactArgs.KeepsHybrid (args : ContactArgs) (record : Contact) : Prop :=
  (record.hybrid = none ↔ args.hybrid = none) ∧
    ∀ bytes, record.hybrid = some bytes ↔
      ∃ text, args.hybrid = some text ∧ hexDecode text.toList = some bytes

/-- One call: a key of no bytes is written as nothing, and everything else is read back. -/
theorem keepsHybrid_iff {args : ContactArgs} {contact : Contact}
    (h : parseHybrid args.hybrid = .ok contact.hybrid) :
    args.KeepsHybrid contact.recorded ↔ args.hybrid ≠ some "" := by
  obtain ⟨name, signing, ecdh, hybrid⟩ := contact
  obtain ⟨name', signing', ecdh', given⟩ := args
  cases given with
  | none =>
    obtain rfl : none = hybrid := Except.ok.inj h
    simp [ContactArgs.KeepsHybrid, Contact.recorded]
  | some text =>
    unfold parseHybrid at h
    cases hdecode : hexDecode text.toList with
    | none => simp [hdecode] at h
    | some bytes =>
      obtain rfl : some bytes = hybrid := by simpa [hdecode] using h
      cases bytes with
      | nil =>
        have htext : text = "" := by
          have hlen := length_of_hexDecode hdecode
          exact String.toList_inj.mp (List.length_eq_zero_iff.mp hlen)
        simp [ContactArgs.KeepsHybrid, Contact.recorded, htext]
      | cons b bytes =>
        have htext : text ≠ "" := by
          rintro rfl
          exact absurd hdecode nofun
        simp [ContactArgs.KeepsHybrid, Contact.recorded, hdecode, htext]

/-- **Which hybrid keys are read back as they were given**: in every run, those of the calls that
did not give the empty text. -/
theorem addAll_hybrid_iff (calls : List ContactArgs) {disk : Disk}
    (hempty : disk.dir.lookup .contacts = none) (hintact : disk.Intact) :
    ∃ records, contacts (addAll calls disk).2.dir = .ok records ∧
      List.Forall₂ (fun args record => args.KeepsHybrid record ↔ args.hybrid ≠ some "")
        (addAll calls disk).1 records := by
  obtain ⟨added, hbook, hcalls, -⟩ := (Book.of_none hempty).addAll calls hintact
  rw [List.nil_append] at hbook
  refine ⟨_, contacts_of_written hbook.written, ?_⟩
  rw [List.forall₂_map_right_iff]
  exact hcalls.imp fun args contact hargs => keepsHybrid_iff (check_eq_ok_iff.mp hargs).2.2

/-- The first known device with the empty text for a hybrid key. -/
def emptyKeyArgs : ContactArgs := { knownArgs 0 with hybrid := some "" }

theorem check_emptyKeyArgs :
    emptyKeyArgs.check = .ok { knownContact 0 with hybrid := some [] } := by
  obtain ⟨hnamed, hnames, -⟩ := check_eq_ok_iff.mp (check_known 0)
  exact check_eq_ok_iff.mpr ⟨hnamed, ⟨hnames.name, hnames.signing, hnames.ecdh⟩, rfl⟩

/-- It is read back as no key, although the call gave one. -/
theorem known_key_lost :
    ∃ last record, addAll [emptyKeyArgs] ⟨∅, []⟩ = ([emptyKeyArgs], last) ∧
      contacts last.dir = .ok [record] ∧ record.hybrid = none ∧
      ¬ emptyKeyArgs.KeepsHybrid record := by
  obtain ⟨dir, hexec, hbook⟩ := add_first check_emptyKeyArgs
  refine ⟨⟨dir, []⟩, _, ?_, contacts_of_written hbook.written, rfl, ?_⟩
  · rw [addAll_returned hexec]
    rfl
  · intro hkeeps
    exact absurd rfl ((keepsHybrid_iff (check_eq_ok_iff.mp check_emptyKeyArgs).2.2).mp hkeeps)

/-- The first known device with a key of one byte. -/
def shortKeyArgs : ContactArgs := { knownArgs 0 with hybrid := some "ab" }

theorem check_shortKeyArgs :
    shortKeyArgs.check = .ok { knownContact 0 with hybrid := some [0xAB] } := by
  obtain ⟨hnamed, hnames, -⟩ := check_eq_ok_iff.mp (check_known 0)
  exact check_eq_ok_iff.mpr ⟨hnamed, ⟨hnames.name, hnames.signing, hnames.ecdh⟩, rfl⟩

/-- It is read back as it was given. -/
theorem known_key_kept :
    ∃ record, contacts (addAll [shortKeyArgs] ⟨∅, []⟩).2.dir = .ok [record] ∧
      shortKeyArgs.KeepsHybrid record ∧ record.hybrid = some [0xAB] := by
  obtain ⟨records, hcontacts, hkeeps⟩ :=
    addAll_hybrid_iff [shortKeyArgs] (AList.lookup_empty _) (intact_nil ∅)
  obtain ⟨dir, hexec, -⟩ := add_first check_shortKeyArgs
  have hcalls : (addAll [shortKeyArgs] ⟨∅, []⟩).1 = [shortKeyArgs] := by
    rw [addAll_returned hexec]
    rfl
  rw [hcalls] at hkeeps
  obtain ⟨record, _, hfirst, hnone, rfl⟩ := List.forall₂_cons_left_iff.mp hkeeps
  obtain rfl := List.forall₂_nil_left_iff.mp hnone
  have hgiven : shortKeyArgs.hybrid ≠ some "" := by decide
  have hkept := hfirst.mpr hgiven
  exact ⟨record, hcontacts, hkept, (hkept.2 [0xAB]).mpr ⟨"ab", rfl, rfl⟩⟩

end Keepstone.Store
