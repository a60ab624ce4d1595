import Keepstone.Store.AddressBook

/-!
# Adding to any contacts file (`crates/store/src/lib.rs:330-395`)

The file of contacts may have been edited by hand. `add_contact` reads it as text, takes a file that
is not UTF-8 for an empty one, and writes the text again with a line after it. It does not ask
whether the last line of the text has its ending, so the new line may go on with a line that was
there.

Results:
* `parseContact_ok_none_iff`, `parseContact_ok_some_iff`: what a line is read as, by its words;
* `completes_iff`: when a line that goes on with another one is read as the new contact only;
* **`add_kept_iff`**: for which files a call that returns keeps what was there.
-/

namespace Keepstone.Store

open Keepstone.Lib Keepstone.Crypto

/-! ## One line -/

/-- The hybrid key, read from the words after the others. -/
def readHybrid : List (List Char) → Except StoreError (Option (List UInt8))
  | [] => .ok none
  | value :: _ =>
    if value = ['-'] then .ok none
    else match hexDecode value with
      | none => .error (.invalid "contact hybrid")
      | some bytes => .ok (some bytes)

/-- The line of a contact, by its words. -/
theorem parseContact_eq {line name signing ecdh : List Char} {rest : List (List Char)}
    (hwords : splitWhitespace line = name :: signing :: ecdh :: rest) :
    parseContact line = (do
      let hybrid ← readHybrid rest
      let signing ← hex32 signing
      let ecdh ← hex32 ecdh
      pure (some ⟨String.ofList name, signing, ecdh, hybrid⟩)) := by
  unfold parseContact readHybrid
  simp only [hwords]
  cases rest with
  | nil => rfl
  | cons value rest =>
    by_cases hdash : value = ['-']
    · simp only [if_pos hdash]
      rfl
    · simp only [if_neg hdash]
      cases hexDecode value <;> rfl

/-- A line of fewer than three words is skipped, and no other. -/
theorem parseContact_ok_none_iff {line : List Char} :
    parseContact line = .ok none ↔ (splitWhitespace line).length < 3 := by
  match hwords : splitWhitespace line with
  | name :: signing :: ecdh :: rest =>
    refine iff_of_false ?_ (by simp)
    rw [parseContact_eq hwords]
    simp only [bind_ok_iff, pure_ok_iff, reduceCtorEq, and_false, exists_false, not_false_eq_true]
  | [] | [_] | [_, _] =>
    refine iff_of_true ?_ (by simp)
    unfold parseContact
    rw [hwords]
    rfl

/-- A line of more words is read word by word. -/
theorem parseContact_ok_some_iff {line name signing ecdh : List Char} {rest : List (List Char)}
    (hwords : splitWhitespace line = name :: signing :: ecdh :: rest) {contact : Contact} :
    parseContact line = .ok (some contact) ↔
      name = contact.name.toList ∧ hex32 signing = .ok contact.signing ∧
        hex32 ecdh = .ok contact.ecdh ∧ readHybrid rest = .ok contact.hybrid := by
  obtain ⟨own, ownSigning, ownEcdh, hybrid⟩ := contact
  have hname : String.ofList name = own ↔ name = own.toList := by
    rw [← String.toList_inj, String.toList_ofList]
  rw [parseContact_eq hwords]
  simp only [bind_ok_iff, pure_ok_iff, Option.some.injEq, Contact.mk.injEq, hname]
  constructor
  · rintro ⟨_, hhybrid, _, hsigning, _, hecdh, hsame, rfl, rfl, rfl⟩
    exact ⟨hsame, hsigning, hecdh, hhybrid⟩
  · rintro ⟨hsame, hsigning, hecdh, hhybrid⟩
    exact ⟨_, hhybrid, _, hsigning, _, hecdh, hsame, rfl, rfl, rfl⟩

theorem readHybrid_hexEncode (bytes : List UInt8) (rest : List (List Char)) :
    readHybrid (hexEncode bytes :: rest) = .ok (some bytes) := by
  simp [readHybrid, hexEncode_ne_dash, hexDecode_hexEncode]

theorem readHybrid_hybridText {hybrid : Option (List UInt8)} :
    readHybrid (splitWhitespace (hybridText hybrid)) = .ok hybrid ↔ hybrid ≠ some [] := by
  rcases hybrid with _ | _ | ⟨b, bytes⟩
  · have hlast : splitWhitespace (hybridText none) = [['-']] := by decide
    simp [hlast, readHybrid]
  · have hlast : splitWhitespace (hybridText (some [])) = [] := rfl
    simp [hlast, readHybrid]
  · have hlast : splitWhitespace (hybridText (some (b :: bytes))) = [hexEncode (b :: bytes)] :=
      splitWhitespace_of_isWord (isWord_hexEncode (List.cons_ne_nil b bytes))
    simp [hlast, readHybrid_hexEncode]

/-! ## A line that goes on with another -/

/-- The line of `contact` after `last`, on the same line, is read as `contact`, and `last` alone was
skipped: `last` is blank, or its one or two words and the first of the new line's happen to be the
contact's own name and keys. -/
def Completes (contact : Contact) (last : List Char) : Prop :=
  match closedWords last, openWord last with
  | [], [] => contact.hybrid ≠ some []
  | [name], word =>
    name = contact.name.toList ∧ hex32 (word ++ contact.name.toList) = .ok contact.signing ∧
      contact.signing = contact.ecdh ∧ some contact.ecdh.toList = contact.hybrid
  | [name, signing], [] =>
    name = contact.name.toList ∧ hex32 signing = .ok contact.signing ∧
      hex32 contact.name.toList = .ok contact.ecdh ∧ some contact.signing.toList = contact.hybrid
  | _, _ => False

theorem completes_nil {contact : Contact} : Completes contact [] ↔ contact.hybrid ≠ some [] :=
  Iff.rfl

/-- The words of a line that goes on with a contact's. -/
theorem splitWhitespace_append_contactLine {contact : Contact} (h : contact.Named)
    (last : List Char) :
    splitWhitespace (last ++ contactLine contact) =
      closedWords last ++ (openWord last ++ contact.name.toList) ::
        hexEncode contact.signing.toList :: hexEncode contact.ecdh.toList ::
        splitWhitespace (hybridText contact.hybrid) := by
  have hkeys : ∀ w ∈ [hexEncode contact.signing.toList, hexEncode contact.ecdh.toList],
      IsWord w := fun w hw => isWord_contactDevice h w (List.mem_cons_of_mem _ hw)
  unfold contactLine contactDevice
  rw [spaced_cons, splitWhitespace_append_word last h, splitWhitespace_spaced_append hkeys]
  rfl

/-- **When a line that goes on with another is read as the new contact only.** -/
theorem completes_iff {contact : Contact} (h : contact.Named) (last : List Char) :
    parseContact last = .ok none ∧
      parseContact (last ++ contactLine contact) = .ok (some contact) ↔
      Completes contact last := by
  have hwords := splitWhitespace_append_contactLine h last
  have hlast := splitWhitespace_eq_closedWords last
  rw [parseContact_ok_none_iff, hlast, Completes]
  generalize openWord last = word at hwords
  match closedWords last, hwords with
  | [], hwords =>
    rw [parseContact_ok_some_iff hwords]
    cases word with
    | nil => simp [hex32_hexEncode, readHybrid_hybridText]
    | cons c word =>
      refine iff_of_false ?_ not_false
      rintro ⟨-, hname, -⟩
      have hlen := congrArg List.length hname
      simp only [List.length_append, List.length_cons] at hlen
      omega
  | [name], hwords =>
    have hshort : ([name] ++ if word = [] then [] else [word]).length < 3 := by
      split <;> simp
    rw [parseContact_ok_some_iff hwords, hex32_hexEncode, readHybrid_hexEncode,
      and_iff_right hshort, Except.ok.injEq, Except.ok.injEq]
  | [name, signing], hwords =>
    rw [parseContact_ok_some_iff hwords]
    cases word with
    | nil => simp [readHybrid_hexEncode]
    | cons c word => simp
  | name :: signing :: ecdh :: rest, hwords =>
    cases word with
    | nil => simp
    | cons c word => simp

/-! ## The whole file -/

/-- A text of one line without its ending. -/
theorem parseLines_lastLine {last : List Char} (hn : '\n' ∉ last) {records : List Contact} :
    parseLines parseContact last = .ok records ↔
      ∃ found, parseContact last = .ok found ∧ records = found.toList := by
  by_cases hnil : last = []
  · subst hnil
    have hskip : parseContact [] = .ok none := rfl
    have hread : parseLines parseContact [] = .ok [] := rfl
    simp [hskip, hread, eq_comm]
  · exact parseLines_of_lines (lines_of_not_mem hn hnil)

/-- The line of a contact, on the same line as `last`. -/
theorem parseLines_last_append {contact : Contact} (h : contact.Named) {last : List Char}
    (hn : '\n' ∉ last) {records : List Contact} :
    parseLines parseContact (last ++ contactLine contact ++ ['\n']) = .ok records ↔
      ∃ found, parseContact (last ++ contactLine contact) = .ok found ∧
        records = found.toList := by
  have hline := oneLine_contactLine h
  refine parseLines_of_lines (lines_concat ?_ ?_)
  · exact fun hmem => (List.mem_append.mp hmem).elim hn hline.1
  · intro hr
    have hne : contactLine contact ≠ [] :=
      List.append_ne_nil_of_left_ne_nil (List.append_ne_nil_of_left_ne_nil
        (List.append_ne_nil_of_right_ne_nil _ (List.cons_ne_nil _ _)) _) _
    rw [List.getLast?_append_of_ne_nil _ hne] at hr
    exact hline.2 (List.mem_of_getLast? hr)

/-- **The line of a contact after a text**: the last line of the text decides. -/
theorem parseLines_append_contactLine {contact : Contact} (h : contact.Named) {text : List Char}
    {old : List Contact} (hold : parseLines parseContact text = .ok old) :
    parseLines parseContact (text ++ contactLine contact ++ ['\n']) = .ok (old ++ [contact]) ↔
      Completes contact (lastLine text) := by
  have hn := not_mem_lastLine text
  rw [← completes_iff h]
  rw [← endedLines_append_lastLine text, parseLines_endedLines_append] at hold
  obtain ⟨before, _, hbefore, hlast, rfl⟩ := hold
  obtain ⟨found, hfound, rfl⟩ := (parseLines_lastLine hn).mp hlast
  have hsplit : text ++ contactLine contact ++ ['\n'] =
      endedLines text ++ (lastLine text ++ contactLine contact ++ ['\n']) := by
    rw [← List.append_assoc, ← List.append_assoc, endedLines_append_lastLine]
  rw [hsplit, parseLines_endedLines_append, hfound]
  constructor
  · rintro ⟨first, second, hfirst, hsecond, heq⟩
    obtain rfl := Except.ok.inj (hfirst.symm.trans hbefore)
    obtain ⟨joined, hjoined, rfl⟩ := (parseLines_last_append h hn).mp hsecond
    rw [List.append_assoc, List.append_cancel_left_eq] at heq
    rw [hjoined]
    -- the joined line gives one record at most, and that is the new contact
    cases found with
    | none =>
      cases joined with
      | none => simp at heq
      | some other => simp_all
    | some there =>
      cases joined with
      | none => simp at heq
      | some other => simp at heq
  · rintro ⟨hnone, hjoined⟩
    obtain rfl := Except.ok.inj hnone
    refine ⟨before, [contact], hbefore, ?_, by simp⟩
    exact (parseLines_last_append h hn).mpr ⟨some contact, hjoined, rfl⟩

/-- The new file begins with the old one, and the contacts are the old ones, if they could be read,
and then the new one. -/
def Extends (dir dir' : Dir) (contact : Contact) : Prop :=
  (∀ bytes, dir.lookup .contacts = some bytes →
    ∃ bytes', dir'.lookup .contacts = some bytes' ∧ bytes <+: bytes') ∧
  ∀ old, contacts dir = .ok old → contacts dir' = .ok (old ++ [contact])

/-- A file to which the line of `contact` can be added. One that is not UTF-8 is taken for empty, so
it has to be cut out of the line itself; of a text whose lines are read, the last must be one that
the new line can go on with. -/
def Extendable (contact : Contact) (bytes : List UInt8) : Prop :=
  match readText bytes with
  | none => bytes <+: textBytes (contactLine contact ++ ['\n']) ∧ contact.hybrid ≠ some []
  | some text => (∃ e, parseLines parseContact text = .error e) ∨ Completes contact (lastLine text)

/-- What a call that returned wrote. -/
theorem lookup_of_add {args : ContactArgs} {contact : Contact} {disk disk' : Disk}
    (hargs : args.check = .ok contact) (h : args.add.exec disk = (.ok (), disk')) :
    disk'.dir.lookup .contacts =
      some (textBytes (contactsText disk.dir ++ contactLine contact ++ ['\n'])) := by
  rw [ContactArgs.add, addContact_eq, finishAdd, Program.exec_ofExcept_bind hargs] at h
  obtain ⟨_, _, hfresh, h⟩ := Program.exec_bind_eq_ok h
  obtain ⟨-, rfl⟩ := Program.exec_ofExcept_eq_ok hfresh
  exact lookup_of_write (Program.exec_mapErr_eq_ok h)

theorem contactsText_of_lookup {dir : Dir} {bytes : List UInt8}
    (h : dir.lookup .contacts = some bytes) : contactsText dir = (readText bytes).getD [] := by
  unfold contactsText readToString
  rw [h, Option.bind_some]

theorem contacts_of_lookup {dir : Dir} {text : List Char}
    (h : dir.lookup .contacts = some (textBytes text)) :
    contacts dir = parseLines parseContact text := by
  change parseLines parseContact (contactsText dir) = _
  rw [contactsText_of_lookup h, readText_textBytes, Option.getD_some]

/-- **For which files a call that returns keeps what was there.** -/
theorem add_kept_iff {args : ContactArgs} {contact : Contact} {disk disk' : Disk}
    {bytes : List UInt8} (hfile : disk.dir.lookup .contacts = some bytes)
    (hargs : args.check = .ok contact) (h : args.add.exec disk = (.ok (), disk')) :
    Extends disk.dir disk'.dir contact ↔ Extendable contact bytes := by
  have hnamed := named_of_check hargs
  have hnew := lookup_of_add hargs h
  have hafter := contacts_of_lookup hnew
  unfold Extends Extendable
  rw [hafter]
  simp only [hfile, hnew, Option.some.injEq, forall_eq', exists_eq_left']
  cases hread : readText bytes with
  | none =>
    have hempty : contactsText disk.dir = [] := by
      rw [contactsText_of_lookup hfile, hread, Option.getD_none]
    have hbefore : contacts disk.dir = .ok [] := by
      change parseLines parseContact (contactsText disk.dir) = _
      rw [hempty]
      rfl
    have hline : parseLines parseContact (contactLine contact ++ ['\n']) = .ok [contact] ↔
        contact.hybrid ≠ some [] :=
      (@parseLines_append_contactLine contact hnamed [] [] rfl).trans completes_nil
    rw [hempty, hbefore]
    simp only [Except.ok.injEq, forall_eq', List.nil_append, hline]
  | some text =>
    obtain rfl := readText_eq_some_iff.mp hread
    have hbefore := contacts_of_lookup hfile
    have htext : contactsText disk.dir = text := by
      rw [contactsText_of_lookup hfile, hread, Option.getD_some]
    have hstarts : textBytes text <+: textBytes (text ++ contactLine contact ++ ['\n']) := by
      rw [List.append_assoc, textBytes_append]
      exact List.prefix_append _ _
    rw [htext, hbefore, and_iff_right hstarts]
    cases hold : parseLines parseContact text with
    | error e => exact iff_of_true (fun _ hok => absurd hok nofun) (Or.inl ⟨e, hold⟩)
    | ok old =>
      have hnone : ¬∃ e, parseLines parseContact text = .error e := by simp [hold]
      simp only [Except.ok.injEq, forall_eq', parseLines_append_contactLine hnamed hold, hnone,
        false_or]

/-! ## Concrete files -/

/-- A directory with a file of contacts only. -/
def fileOf (bytes : List UInt8) : Disk := ⟨AList.insert .contacts bytes ∅, []⟩

theorem lookup_fileOf (bytes : List UInt8) : (fileOf bytes).dir.lookup .contacts = some bytes :=
  AList.lookup_insert _

/-- A device that no line of the file begins with is added. -/
theorem add_to_file {args : ContactArgs} {contact : Contact} (hargs : args.check = .ok contact)
    {bytes : List UInt8}
    (hfresh : ∀ line ∈ lines ((readText bytes).getD []),
      ¬ spaced (contactDevice contact) <+: line) :
    ∃ disk', args.add.exec (fileOf bytes) = (.ok (), disk') := by
  rw [← contactsText_of_lookup (lookup_fileOf bytes)] at hfresh
  obtain ⟨dir', hexec⟩ := finishAdd_returns hargs hfresh (fileOf bytes).dir
  exact ⟨_, (addContact_eq args _).trans hexec⟩

/-- The file of one contact, whose line ends with `ending`. -/
def oneLineFile (ending : List Char) : List UInt8 :=
  textBytes (contactLine (knownContact 1) ++ ending)

/-- With its ending, the next contact is added after it. -/
theorem known_line_appended :
    ∃ disk', (knownArgs 0).add.exec (fileOf (oneLineFile ['\n'])) = (.ok (), disk') ∧
      Extends (fileOf (oneLineFile ['\n'])).dir disk'.dir (knownContact 0) := by
  have hread : readText (oneLineFile ['\n']) = some (contactLine (knownContact 1) ++ ['\n']) :=
    readText_textBytes _
  have hlines : lines (contactLine (knownContact 1) ++ ['\n']) = [contactLine (knownContact 1)] :=
    lines_append (oneLine_contactLine (named_of_check (check_known 1))).1
      (oneLine_contactLine (named_of_check (check_known 1))).2 []
  obtain ⟨disk', hexec⟩ := @add_to_file _ _ (check_known 0) (oneLineFile ['\n']) (by
    rw [hread, Option.getD_some, hlines]
    decide)
  refine ⟨disk', hexec, (add_kept_iff (lookup_fileOf _) (check_known 0) hexec).mpr ?_⟩
  have hlast : lastLine (contactLine (knownContact 1) ++ ['\n']) = [] :=
    List.rtakeWhile_concat_neg _ _ _ (by simp)
  unfold Extendable
  simp only [hread, hlast]
  exact Or.inr (completes_nil.mpr nofun)

/-- Without it, the two lines become one, and what was there is lost. -/
theorem known_file_joined :
    ∃ disk', (knownArgs 0).add.exec (fileOf (oneLineFile [])) = (.ok (), disk') ∧
      contacts (fileOf (oneLineFile [])).dir = .ok [knownContact 1] ∧
      ¬ Extends (fileOf (oneLineFile [])).dir disk'.dir (knownContact 0) := by
  have hnamed := named_of_check (check_known 1)
  have hline := oneLine_contactLine hnamed
  have hfile : oneLineFile [] = textBytes (contactLine (knownContact 1)) :=
    congrArg textBytes (List.append_nil _)
  have hparse : parseContact (contactLine (knownContact 1)) = .ok (some (knownContact 1)) :=
    parseContact_contactLine hnamed
  have hbefore : parseLines parseContact (contactLine (knownContact 1)) = .ok [knownContact 1] :=
    (parseLines_lastLine hline.1).mpr ⟨_, hparse, rfl⟩
  have hcontacts := contacts_of_lookup ((lookup_fileOf _).trans (congrArg some hfile))
  obtain ⟨disk', hexec⟩ := @add_to_file _ _ (check_known 0) (oneLineFile []) (by
    rw [hfile, readText_textBytes, Option.getD_some, lines_of_not_mem hline.1 (by decide)]
    decide)
  refine ⟨disk', hexec, hcontacts.trans hbefore, fun hext => ?_⟩
  have hafter := hext.2 _ (hcontacts.trans hbefore)
  rw [contacts_of_lookup (lookup_of_add (check_known 0) hexec)] at hafter
  rw [contactsText_of_lookup (lookup_fileOf _), hfile, readText_textBytes, Option.getD_some,
    parseLines_append_contactLine (named_of_check (check_known 0)) hbefore,
    ← completes_iff (named_of_check (check_known 0))] at hafter
  have hwhole : lastLine (contactLine (knownContact 1)) = contactLine (knownContact 1) :=
    List.rtakeWhile_eq_self_iff.mpr fun c hc =>
      decide_eq_true fun heq : c = '\n' => hline.1 (heq ▸ hc)
  rw [hwhole, hparse] at hafter
  exact absurd hafter.1 nofun

end Keepstone.Store
