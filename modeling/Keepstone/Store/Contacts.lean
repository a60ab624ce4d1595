import Keepstone.Lib.Interleaving
import Keepstone.Store.Keys

/-!
# Contacts that are added at the same time (`crates/store/src/lib.rs:330-395`)

`add_contact` reads the whole file of contacts and writes it again with one line more, and takes no
lock. The daemon serves requests in parallel tasks, so two calls can both read before either
writes. Reading the file and writing it are each atomic here.

A hybrid key of no bytes is written as nothing, and read back as no key.

Results:
* `addContact_eq`: a call checks its arguments, reads, and then writes;
* `contacts_of_written`: what is read from a file that `add_contact` wrote;
* **`concurrent_adds_kept_iff`**: two calls lose nothing exactly when one ends before the other
  reads.
-/

namespace Keepstone.Store

open Keepstone.Lib Keepstone.Crypto

/-! ## One call -/

/-- The arguments of `add_contact`. -/
structure ContactArgs where
  name : String
  signing : String
  ecdh : String
  hybrid : Option String

/-- The hybrid key of the arguments. -/
def parseHybrid : Option String → Except StoreError (Option (List UInt8))
  | none => .ok none
  | some value =>
    match hexDecode value.toList with
    | none => .error (.invalid "hybrid hex")
    | some bytes => .ok (some bytes)

/-- The checks on the arguments, before the file is read. -/
def ContactArgs.check (args : ContactArgs) : Except StoreError Contact := do
  Lib.check (!args.name.toList.isEmpty && !args.name.toList.any isWhitespace)
    (.invalid "contact name must be non-empty and have no whitespace")
  let signing ← hex32 args.signing.toList
  let ecdh ← hex32 args.ecdh.toList
  let hybrid ← parseHybrid args.hybrid
  pure ⟨args.name, signing, ecdh, hybrid⟩

/-- The first words of a contact's line. -/
def contactDevice (contact : Contact) : List (List Char) :=
  [contact.name.toList, hexEncode contact.signing.toList, hexEncode contact.ecdh.toList]

/-- The last word of a contact's line. -/
def hybridText : Option (List UInt8) → List Char
  | none => ['-']
  | some bytes => hexEncode bytes

/-- A line of the file, without its ending. -/
def contactLine (contact : Contact) : List Char :=
  spaced (contactDevice contact) ++ hybridText contact.hybrid

/-- `add_contact` after it has read `existing`. -/
def recordContact (contact : Contact) (existing : List Char) : Program StoreError Disk Unit := do
  .ofExcept (check (!(lines existing).any fun line =>
      (spaced (contactDevice contact)).isPrefixOf line)
    (.invalid ("contact `" ++ contact.name ++ "` already has this device")))
  (write .contacts (textBytes (existing ++ contactLine contact ++ ['\n']))).mapErr .io

/-- The text of the file, empty if it cannot be read. -/
def contactsText (dir : Dir) : List Char := (readToString dir .contacts).getD []

/-- The checks, and the rest of the call with what was read. -/
def finishAdd (args : ContactArgs) (existing : List Char) : Program StoreError Disk Unit := do
  let contact ← .ofExcept args.check
  recordContact contact existing

/-- The line as `add_contact` spells it. -/
theorem recordContact_eq (contact : Contact) (existing : List Char) :
    recordContact contact existing = (do
      let device := contact.name.toList ++ ' ' :: (hexEncode contact.signing.toList ++ ' ' ::
        (hexEncode contact.ecdh.toList ++ [' ']))
      .ofExcept (check (!(lines existing).any fun line => device.isPrefixOf line)
        (.invalid ("contact `" ++ contact.name ++ "` already has this device")))
      (write .contacts (textBytes (existing ++ device ++ hybridText contact.hybrid ++
        ['\n']))).mapErr .io) := by
  simp [recordContact, contactLine, contactDevice, spaced]

/-- **A call is its checks, its reading and its writing.** -/
theorem addContact_eq (args : ContactArgs) (disk : Disk) :
    (addContact args.name args.signing args.ecdh args.hybrid).exec disk =
      (finishAdd args (contactsText disk.dir)).exec disk := by
  unfold finishAdd ContactArgs.check addContact
  simp only [Program.ofExcept_bind, bind_assoc]
  refine Program.exec_ofExcept_bind_congr fun _ => ?_
  refine Program.exec_ofExcept_bind_congr fun signing => ?_
  refine Program.exec_ofExcept_bind_congr fun ecdh => ?_
  refine Program.exec_ofExcept_bind_congr fun hybrid => ?_
  -- the checks have not touched the disk, so the file is read as it was
  refine (Program.exec_bind_ok (Program.exec_reads_ok rfl) _).trans ?_
  refine Eq.trans ?_ (Program.exec_ofExcept_bind rfl _ disk).symm
  rw [recordContact_eq]
  cases hybrid with
  | none => rfl
  | some bytes => rfl

/-! ## Reading -/

/-- A contact as it is read back. -/
def Contact.recorded (contact : Contact) : Contact :=
  { contact with hybrid := contact.hybrid.filter fun bytes => !bytes.isEmpty }

/-- The name is a word. -/
def Contact.Named (contact : Contact) : Prop := IsWord contact.name.toList

theorem named_of_check {args : ContactArgs} {contact : Contact} (h : args.check = .ok contact) :
    contact.Named := by
  unfold ContactArgs.check at h
  simp only [bind_ok_iff, pure_ok_iff, check_ok_iff] at h
  obtain ⟨_, hname, _, -, _, -, _, -, rfl⟩ := h
  simp only [Bool.and_eq_true, Bool.not_eq_true', List.isEmpty_eq_false_iff, List.any_eq_false]
    at hname
  exact ⟨hname.1, fun c hc => Bool.not_eq_true _ ▸ hname.2 c hc⟩

theorem isWord_contactDevice {contact : Contact} (h : contact.Named) :
    ∀ w ∈ contactDevice contact, IsWord w := by
  simp only [contactDevice, List.forall_mem_cons, List.not_mem_nil, false_implies, implies_true,
    and_true]
  exact ⟨h, isWord_hexEncode_bytes (by decide) _, isWord_hexEncode_bytes (by decide) _⟩

theorem hybridText_cases (hybrid : Option (List UInt8)) :
    IsWord (hybridText hybrid) ∨ hybridText hybrid = [] := by
  cases hybrid with
  | none => exact Or.inl ⟨List.cons_ne_nil _ _, by simp [hybridText, isWhitespace]⟩
  | some bytes =>
    cases bytes with
    | nil => exact Or.inr rfl
    | cons b bytes => exact Or.inl (isWord_hexEncode (List.cons_ne_nil _ _))

theorem oneLine_contactLine {contact : Contact} (h : contact.Named) :
    OneLine (contactLine contact) :=
  oneLine_spaced_append (isWord_contactDevice h) (hybridText_cases _)

theorem hexEncode_ne_dash (bytes : List UInt8) : hexEncode bytes ≠ ['-'] := by
  intro h
  have hlen := length_hexEncode bytes
  rw [h, List.length_singleton] at hlen
  omega

/-- **A line is read back as its contact.** -/
theorem parseContact_contactLine {contact : Contact} (h : contact.Named) :
    parseContact (contactLine contact) = .ok (some contact.recorded) := by
  obtain ⟨name, signing, ecdh, hybrid⟩ := contact
  have hwords : splitWhitespace (contactLine ⟨name, signing, ecdh, hybrid⟩) =
      name.toList :: hexEncode signing.toList :: hexEncode ecdh.toList ::
        splitWhitespace (hybridText hybrid) :=
    splitWhitespace_spaced_append (isWord_contactDevice h) _
  unfold parseContact
  cases hybrid with
  | none =>
    have hlast : splitWhitespace (hybridText none) = [['-']] := by decide
    rw [hlast] at hwords
    simp only [hwords, hex32_hexEncode, String.ofList_toList, if_true]
    rfl
  | some bytes =>
    cases bytes with
    | nil =>
      have hlast : splitWhitespace (hybridText (some [])) = [] := rfl
      rw [hlast] at hwords
      simp only [hwords, hex32_hexEncode, String.ofList_toList]
      rfl
    | cons b bytes =>
      have hlast : splitWhitespace (hybridText (some (b :: bytes))) = [hexEncode (b :: bytes)] :=
        splitWhitespace_of_isWord (isWord_hexEncode (List.cons_ne_nil b bytes))
      rw [hlast] at hwords
      simp only [hwords, hex32_hexEncode, hexDecode_hexEncode, String.ofList_toList,
        if_neg (hexEncode_ne_dash _)]
      rfl

/-! ## Files that `add_contact` wrote -/

/-- The text of the lines of some contacts. -/
def writtenText (entries : List Contact) : List Char := unlines (entries.map contactLine)

/-- The file is what `add_contact` writes, call after call, for `entries`. -/
structure Written (dir : Dir) (entries : List Contact) : Prop where
  named : ∀ contact ∈ entries, contact.Named
  text : contactsText dir = writtenText entries

theorem writtenText_concat (entries : List Contact) (contact : Contact) :
    writtenText (entries ++ [contact]) = writtenText entries ++ contactLine contact ++ ['\n'] := by
  unfold writtenText unlines
  rw [List.map_append, List.flatMap_append, List.append_assoc]
  exact congrArg _ (List.append_nil _)

theorem lines_writtenText {entries : List Contact} (h : ∀ contact ∈ entries, contact.Named) :
    lines (writtenText entries) = entries.map contactLine := by
  have hread := @lines_unlines_append (entries.map contactLine)
    (List.forall_mem_map.mpr fun c hc => oneLine_contactLine (h c hc)) []
  rw [List.append_nil] at hread
  exact hread.trans (List.append_nil _)

theorem Written.of_none {dir : Dir} (h : dir.lookup .contacts = none) : Written dir [] where
  named := fun _ hmem => absurd hmem List.not_mem_nil
  text := by
    unfold contactsText readToString
    rw [h]
    rfl

/-- **What is read from such a file.** -/
theorem contacts_of_written {dir : Dir} {entries : List Contact} (h : Written dir entries) :
    contacts dir = .ok (entries.map Contact.recorded) := by
  have hread := @parseLines_unlines_append _ _ _ parseContact contactLine Contact.recorded entries
    (fun c hc => oneLine_contactLine (h.named c hc))
    (fun c hc => parseContact_contactLine (h.named c hc)) [] (entries.map Contact.recorded)
  rw [List.append_nil] at hread
  change parseLines parseContact (contactsText dir) = _
  rw [h.text]
  exact hread.mpr ⟨[], rfl, (List.append_nil _).symm⟩

/-- A call that returns has found no line of its device, and has written its own. -/
theorem exec_finishAdd {args : ContactArgs} {contact : Contact} {existing : List Char}
    {disk disk' : Disk} (hargs : args.check = .ok contact)
    (h : (finishAdd args existing).exec disk = (.ok (), disk')) :
    (∀ line ∈ lines existing, ¬ spaced (contactDevice contact) <+: line) ∧
      contactsText disk'.dir = existing ++ contactLine contact ++ ['\n'] := by
  unfold finishAdd at h
  rw [Program.exec_ofExcept_bind hargs] at h
  obtain ⟨_, _, hfresh, h⟩ := Program.exec_bind_eq_ok h
  obtain ⟨hcheck, rfl⟩ := Program.exec_ofExcept_eq_ok hfresh
  have hwritten := lookup_of_write (Program.exec_mapErr_eq_ok h)
  constructor
  · intro line hline hpre
    rw [check_ok_iff, Bool.not_eq_true', List.any_eq_false] at hcheck
    exact hcheck line hline (List.isPrefixOf_iff_prefix.mpr hpre)
  · unfold contactsText readToString
    rw [hwritten, Option.bind_some, readText_textBytes, Option.getD_some]

/-- A call adds its contact, which was not there. -/
theorem Written.finishAdd {args : ContactArgs} {contact : Contact} {entries : List Contact}
    {dir : Dir} {disk disk' : Disk} (hwritten : Written dir entries)
    (hargs : args.check = .ok contact)
    (h : (finishAdd args (contactsText dir)).exec disk = (.ok (), disk')) :
    Written disk'.dir (entries ++ [contact]) ∧
      contact.recorded ∉ entries.map Contact.recorded := by
  obtain ⟨hfresh, htext⟩ := exec_finishAdd hargs h
  rw [hwritten.text] at hfresh htext
  constructor
  · refine ⟨?_, htext.trans (writtenText_concat entries contact).symm⟩
    exact List.forall_mem_append.mpr
      ⟨hwritten.named, List.forall_mem_singleton.mpr (named_of_check hargs)⟩
  · intro hmem
    obtain ⟨entry, hentry, heq⟩ := List.mem_map.mp hmem
    have hdevice : contactDevice entry = contactDevice contact := by
      have hrecorded := congrArg contactDevice heq
      exact hrecorded
    rw [lines_writtenText hwritten.named] at hfresh
    refine hfresh (contactLine entry) (List.mem_map_of_mem hentry) ?_
    rw [← hdevice]
    exact List.prefix_append _ _

/-- Calls of `add_contact` that return, and anything else that leaves the file as it is, one after
the other. -/
inductive AddRun : Disk → Disk → Prop
  | done (disk : Disk) : AddRun disk disk
  | add {args : ContactArgs} {disk middle last : Disk} :
      (addContact args.name args.signing args.ecdh args.hybrid).exec disk = (.ok (), middle) →
      AddRun middle last → AddRun disk last
  | other {disk middle last : Disk} :
      middle.dir.lookup .contacts = disk.dir.lookup .contacts → AddRun middle last →
      AddRun disk last

theorem exists_check_of_finishAdd {args : ContactArgs} {existing : List Char} {disk disk' : Disk}
    (h : (finishAdd args existing).exec disk = (.ok (), disk')) :
    ∃ contact, args.check = .ok contact := by
  obtain ⟨contact, _, hcheck, -⟩ := Program.exec_bind_eq_ok h
  exact ⟨contact, (Program.exec_ofExcept_eq_ok hcheck).1⟩

theorem AddRun.written {disk last : Disk} {entries : List Contact} (h : AddRun disk last)
    (hwritten : Written disk.dir entries) : ∃ entries', Written last.dir entries' := by
  induction h generalizing entries with
  | done disk => exact ⟨entries, hwritten⟩
  | add hadd _ ih =>
    rw [addContact_eq] at hadd
    obtain ⟨contact, hargs⟩ := exists_check_of_finishAdd hadd
    exact ih (hwritten.finishAdd hargs hadd).1
  | other hsame _ ih =>
    refine ih ⟨hwritten.named, ?_⟩
    rw [← hwritten.text]
    unfold contactsText readToString
    rw [hsame]

/-! ## Two calls -/

/-- What a call does to the file. -/
inductive ContactOp where
  | read (i : Nat)
  | write (i : Nat)
  deriving DecidableEq

/-- The disk, and what the calls have read and returned. -/
structure Adding where
  /-- The files. -/
  disk : Disk
  /-- What each call has read. -/
  texts : Nat → List Char
  /-- How each call that has ended did. -/
  results : Nat → Option (Except StoreError Unit)

/-- One operation of the call with the arguments `args i`. -/
def addStep (args : Nat → ContactArgs) (adding : Adding) : ContactOp → Adding
  | .read i =>
    { adding with texts := Function.update adding.texts i (contactsText adding.disk.dir) }
  | .write i =>
    let (result, disk) := (finishAdd (args i) (adding.texts i)).exec adding.disk
    { adding with disk, results := Function.update adding.results i (some result) }

/-- The operations of the call at `i`. -/
def addOps (i : Nat) : List ContactOp := [.read i, .write i]

/-- Two calls that are about to begin. -/
def twoAdds (disk : Disk) : Calls Adding ContactOp :=
  ⟨⟨disk, fun _ => [], fun _ => none⟩, [addOps 0, addOps 1]⟩

/-- **A call that is not interrupted is `add_contact`.** -/
theorem foldl_addOps (args : Nat → ContactArgs) (adding : Adding) (i : Nat) :
    let after := (addOps i).foldl (addStep args) adding
    (addContact (args i).name (args i).signing (args i).ecdh (args i).hybrid).exec adding.disk =
      ((after.results i).getD (.ok ()), after.disk) := by
  intro after
  rw [addContact_eq]
  simp only [after, addOps, List.foldl_cons, List.foldl_nil, addStep, Function.update_self,
    Option.getD_some]

section TwoCalls

variable {args : Nat → ContactArgs} {adding : Adding} {entries : List Contact} {i j : Nat}
  {ci cj : Contact}

/-- A write that returned. -/
theorem exec_of_results {text : List Char} (htext : adding.texts i = text)
    (h : (addStep args adding (.write i)).results i = some (.ok ())) :
    (finishAdd (args i) text).exec adding.disk =
      (.ok (), (addStep args adding (.write i)).disk) := by
  simp only [addStep, Function.update_self, Option.some.injEq, htext] at h ⊢
  exact Prod.ext h rfl

theorem results_write_ne (h : i ≠ j) :
    (addStep args adding (.write j)).results i = adding.results i := by
  simp only [addStep, Function.update_of_ne h]

/-- One call after the other. -/
theorem written_of_serial (hij : i ≠ j) (hwritten : Written adding.disk.dir entries)
    (hi : (args i).check = .ok ci) (hj : (args j).check = .ok cj)
    (hresults : ∀ k, k = i ∨ k = j →
      ((addOps i ++ addOps j).foldl (addStep args) adding).results k = some (.ok ())) :
    Written ((addOps i ++ addOps j).foldl (addStep args) adding).disk.dir
      (entries ++ [ci] ++ [cj]) := by
  simp only [addOps, List.cons_append, List.nil_append, List.foldl_cons, List.foldl_nil] at hresults ⊢
  set middle := addStep args (addStep args adding (.read i)) (.write i)
  have hfirst : middle.results i = some (.ok ()) := by
    have hlast := hresults i (Or.inl rfl)
    rwa [results_write_ne hij] at hlast
  have hexec := exec_of_results (Function.update_self ..) hfirst
  have hexec' := exec_of_results (Function.update_self ..) (hresults j (Or.inr rfl))
  have hone := (hwritten.finishAdd hi hexec).1
  exact (hone.finishAdd hj hexec').1

/-- Two calls that have both read before the first of them writes. -/
theorem written_of_overlap (hij : i ≠ j) {dir : Dir} (hwritten : Written dir entries)
    (hti : adding.texts i = contactsText dir) (htj : adding.texts j = contactsText dir)
    (hi : (args i).check = .ok ci) (hj : (args j).check = .ok cj)
    (hresults : ∀ k, k = i ∨ k = j →
      ([.write j, .write i].foldl (addStep args) adding).results k = some (.ok ())) :
    Written ([.write j, .write i].foldl (addStep args) adding).disk.dir (entries ++ [ci]) ∧
      cj.recorded ∉ entries.map Contact.recorded := by
  simp only [List.foldl_cons, List.foldl_nil] at hresults ⊢
  have hfirst : (addStep args adding (.write j)).results j = some (.ok ()) := by
    have hlast := hresults j (Or.inr rfl)
    rwa [results_write_ne hij.symm] at hlast
  have hexec := exec_of_results htj hfirst
  have hexec' := @exec_of_results args (addStep args adding (.write j)) i _ hti
    (hresults i (Or.inl rfl))
  exact ⟨(hwritten.finishAdd hi hexec').1, (hwritten.finishAdd hj hexec).2⟩

/-- The orders in which the operations of two calls can be done: one call after the other, or both
read before either writes. -/
theorem merge_addOps {ops : List ContactOp} (h : Calls.Merge (addOps i) (addOps j) ops) :
    ops = addOps i ++ addOps j ∨ ops = addOps j ++ addOps i ∨
      ∃ a b k l, ((a, b) = (i, j) ∨ (a, b) = (j, i)) ∧ ((k, l) = (i, j) ∨ (k, l) = (j, i)) ∧
        ops = [.read a, .read b, .write l, .write k] := by
  unfold addOps at h ⊢
  cases h with
  | left h =>
    cases h with
    | left h =>
      cases h with
      | right h =>
        cases h with
        | right h =>
          cases h
          exact Or.inl rfl
    | right h =>
      cases h with
      | left h =>
        cases h with
        | right h =>
          cases h
          exact Or.inr (Or.inr ⟨i, j, j, i, Or.inl rfl, Or.inr rfl, rfl⟩)
      | right h =>
        cases h with
        | left h =>
          cases h
          exact Or.inr (Or.inr ⟨i, j, i, j, Or.inl rfl, Or.inl rfl, rfl⟩)
  | right h =>
    cases h with
    | right h =>
      cases h with
      | left h =>
        cases h with
        | left h =>
          cases h
          exact Or.inr (Or.inl rfl)
    | left h =>
      cases h with
      | left h =>
        cases h with
        | right h =>
          cases h
          exact Or.inr (Or.inr ⟨j, i, j, i, Or.inr rfl, Or.inr rfl, rfl⟩)
      | right h =>
        cases h with
        | left h =>
          cases h
          exact Or.inr (Or.inr ⟨j, i, i, j, Or.inr rfl, Or.inl rfl, rfl⟩)

/-- Of two calls that overlap, the one that writes first is lost. -/
theorem lost_of_overlap (hij : i ≠ j) {dir : Dir} (hwritten : Written dir entries)
    (hti : adding.texts i = contactsText dir) (htj : adding.texts j = contactsText dir)
    (hi : (args i).check = .ok ci) (hj : (args j).check = .ok cj)
    (hdevices : (ci.name, ci.signing, ci.ecdh) ≠ (cj.name, cj.signing, cj.ecdh))
    (hresults : ∀ k, k = i ∨ k = j →
      ([.write j, .write i].foldl (addStep args) adding).results k = some (.ok ()))
    {now : List Contact}
    (hnow : contacts ([.write j, .write i].foldl (addStep args) adding).disk.dir = .ok now) :
    cj.recorded ∉ now := by
  obtain ⟨hlast, hfresh⟩ := written_of_overlap hij hwritten hti htj hi hj hresults
  obtain rfl := Except.ok.inj ((contacts_of_written hlast).symm.trans hnow)
  intro hmem
  rw [List.map_append, List.mem_append] at hmem
  rcases hmem with hold | hnew
  · exact hfresh hold
  · have hsame : cj.recorded = ci.recorded := List.mem_singleton.mp hnew
    have hname : cj.name = ci.name := congrArg (·.name) hsame
    have hsigning : cj.signing = ci.signing := congrArg (·.signing) hsame
    have hecdh : cj.ecdh = ci.ecdh := congrArg (·.ecdh) hsame
    exact hdevices (by rw [hname, hsigning, hecdh])

end TwoCalls

/-- Nothing is lost: the contacts of the file are still there, and so are the two new ones. -/
def Kept (disk last : Disk) (c₀ c₁ : Contact) : Prop :=
  ∃ now, contacts last.dir = .ok now ∧ (∀ old, contacts disk.dir = .ok old → old ⊆ now) ∧
    c₀.recorded ∈ now ∧ c₁.recorded ∈ now

theorem kept_of_serial {disk last : Disk} {entries : List Contact} {c₀ c₁ : Contact}
    (h : Written disk.dir entries) {added : List Contact} (hlast : Written last.dir (entries ++ added))
    (h₀ : c₀ ∈ added) (h₁ : c₁ ∈ added) : Kept disk last c₀ c₁ := by
  refine ⟨_, contacts_of_written hlast, fun old hold => ?_, ?_, ?_⟩
  · obtain rfl := Except.ok.inj ((contacts_of_written h).symm.trans hold)
    rw [List.map_append]
    exact List.subset_append_left _ _
  · exact List.mem_map_of_mem (List.mem_append_right _ h₀)
  · exact List.mem_map_of_mem (List.mem_append_right _ h₁)

/-- **Two calls lose nothing exactly when one has written before the other reads.** -/
theorem concurrent_adds_kept_iff (args : Nat → ContactArgs) {first disk : Disk} {c₀ c₁ : Contact}
    {schedule : List Nat} (hstart : first.dir.lookup .contacts = none) (hfile : AddRun first disk)
    (h₀ : (args 0).check = .ok c₀) (h₁ : (args 1).check = .ok c₁)
    (hdevices : (c₀.name, c₀.signing, c₀.ecdh) ≠ (c₁.name, c₁.signing, c₁.ecdh))
    (hdone : (Calls.run (addStep args) (twoAdds disk) schedule).Done)
    (hresults : ∀ i, i = 0 ∨ i = 1 →
      (Calls.run (addStep args) (twoAdds disk) schedule).shared.results i = some (.ok ())) :
    Kept disk (Calls.run (addStep args) (twoAdds disk) schedule).shared.disk c₀ c₁ ↔
      Calls.performed [addOps 0, addOps 1] schedule = addOps 0 ++ addOps 1 ∨
        Calls.performed [addOps 0, addOps 1] schedule = addOps 1 ++ addOps 0 := by
  obtain ⟨entries, hwritten⟩ := hfile.written (Written.of_none hstart)
  have hmerge := Calls.merge_performed hdone
  rw [Calls.shared_run] at hresults ⊢
  simp only [twoAdds] at hresults ⊢
  rcases merge_addOps hmerge with hops | hops | ⟨a, b, k, l, hreads, hwrites, hops⟩
  · rw [hops] at hresults ⊢
    have hlast := written_of_serial (by decide) hwritten h₀ h₁ hresults
    rw [List.append_assoc] at hlast
    exact iff_of_true (kept_of_serial hwritten hlast (by simp) (by simp)) (Or.inl rfl)
  · rw [hops] at hresults ⊢
    have hlast := written_of_serial (by decide) hwritten h₁ h₀ fun k hk => hresults k hk.symm
    rw [List.append_assoc] at hlast
    exact iff_of_true (kept_of_serial hwritten hlast (by simp) (by simp)) (Or.inr rfl)
  · rw [hops] at hresults ⊢
    have hreadTwo : ∀ k, k = 0 ∨ k = 1 → ([.read a, .read b].foldl (addStep args)
        ⟨disk, fun _ => [], fun _ => none⟩).texts k = contactsText disk.dir := by
      rcases hreads with hreads | hreads
      · obtain ⟨rfl, rfl⟩ := Prod.mk.inj hreads
        rintro k (rfl | rfl) <;> simp [addStep]
      · obtain ⟨rfl, rfl⟩ := Prod.mk.inj hreads
        rintro k (rfl | rfl) <;> simp [addStep]
    refine iff_of_false ?_ (by simp [addOps])
    rintro ⟨now, hnow, -, hnew₀, hnew₁⟩
    rcases hwrites with hwrites | hwrites
    · obtain ⟨rfl, rfl⟩ := Prod.mk.inj hwrites
      exact lost_of_overlap (by decide) hwritten (hreadTwo 0 (Or.inl rfl)) (hreadTwo 1 (Or.inr rfl))
        h₀ h₁ hdevices hresults hnow hnew₁
    · obtain ⟨rfl, rfl⟩ := Prod.mk.inj hwrites
      exact lost_of_overlap (by decide) hwritten (hreadTwo 1 (Or.inr rfl)) (hreadTwo 0 (Or.inl rfl))
        h₁ h₀ hdevices.symm (fun k hk => hresults k hk.symm) hnow hnew₀

/-! ## Concrete runs -/

/-- Arguments that give a contact without a hybrid key. -/
def argsOf (contact : Contact) : ContactArgs :=
  ⟨contact.name, String.ofList (hexEncode contact.signing.toList),
    String.ofList (hexEncode contact.ecdh.toList), none⟩

theorem check_argsOf {contact : Contact} (h : contact.Named) (hhybrid : contact.hybrid = none) :
    (argsOf contact).check = .ok contact := by
  obtain ⟨name, signing, ecdh, hybrid⟩ := contact
  obtain rfl : hybrid = none := hhybrid
  have hname : (!name.toList.isEmpty && !name.toList.any isWhitespace) = true := by
    simp only [Bool.and_eq_true, Bool.not_eq_true', List.isEmpty_eq_false_iff, List.any_eq_false,
      Bool.not_eq_true]
    exact h
  simp only [ContactArgs.check, argsOf, String.toList_ofList, hex32_hexEncode]
  exact bind_ok_iff.mpr ⟨(), check_ok_iff.mpr hname, rfl⟩

/-- On a disk that fails no call, a device that is new is added. -/
theorem finishAdd_returns {args : ContactArgs} {contact : Contact} (hargs : args.check = .ok contact)
    {existing : List Char}
    (hfresh : ∀ line ∈ lines existing, ¬ spaced (contactDevice contact) <+: line) (dir : Dir) :
    ∃ dir', (finishAdd args existing).exec ⟨dir, []⟩ = (.ok (), ⟨dir', []⟩) := by
  have hcheck : check (!(lines existing).any fun line =>
        (spaced (contactDevice contact)).isPrefixOf line)
      (StoreError.invalid ("contact `" ++ contact.name ++ "` already has this device")) =
        .ok () := by
    rw [check_ok_iff, Bool.not_eq_true', List.any_eq_false]
    exact fun line hline hpre => hfresh line hline (List.isPrefixOf_iff_prefix.mp hpre)
  unfold finishAdd
  rw [Program.exec_ofExcept_bind hargs]
  unfold recordContact
  rw [Program.exec_ofExcept_bind hcheck]
  exact ⟨_, rfl⟩

/-- Two devices of one name. -/
def knownContact (i : Nat) : Contact :=
  ⟨"alice", List.Vector.replicate 32 (UInt8.ofNat i), List.Vector.replicate 32 7, none⟩

theorem check_known (i : Nat) : (argsOf (knownContact i)).check = .ok (knownContact i) := by
  have hname : IsWord "alice".toList := ⟨by simp, by simp [isWhitespace]⟩
  exact check_argsOf hname rfl

/-- Two calls, one after the other. -/
theorem run_serial {args : Nat → ContactArgs} {disk middle last : Disk}
    (hfirst : (finishAdd (args 0) (contactsText disk.dir)).exec disk = (.ok (), middle))
    (hsecond : (finishAdd (args 1) (contactsText middle.dir)).exec middle = (.ok (), last)) :
    (Calls.run (addStep args) (twoAdds disk) [0, 0, 1, 1]).Done ∧ ∀ i, i = 0 ∨ i = 1 →
      (Calls.run (addStep args) (twoAdds disk) [0, 0, 1, 1]).shared.results i =
        some (.ok ()) := by
  have hdone : (Calls.run (addStep args) (twoAdds disk) [0, 0, 1, 1]).Done :=
    List.forall_mem_cons.mpr ⟨rfl, List.forall_mem_singleton.mpr rfl⟩
  have hops : (Calls.run (addStep args) (twoAdds disk) [0, 0, 1, 1]).shared =
      [.read 0, .write 0, .read 1, .write 1].foldl (addStep args)
        ⟨disk, fun _ => [], fun _ => none⟩ := Calls.shared_run _ _
  refine ⟨hdone, ?_⟩
  simp only [hops, List.foldl_cons, List.foldl_nil, addStep, Function.update_self, hfirst, hsecond]
  rintro i (rfl | rfl) <;> rfl

/-- Two calls that both read before the first of them writes. -/
theorem run_overlap {args : Nat → ContactArgs} {disk middle last : Disk}
    (hfirst : (finishAdd (args 0) (contactsText disk.dir)).exec disk = (.ok (), middle))
    (hsecond : (finishAdd (args 1) (contactsText disk.dir)).exec middle = (.ok (), last)) :
    (Calls.run (addStep args) (twoAdds disk) [0, 1, 0, 1]).Done ∧
      (Calls.run (addStep args) (twoAdds disk) [0, 1, 0, 1]).shared.results 0 = some (.ok ()) ∧
      (Calls.run (addStep args) (twoAdds disk) [0, 1, 0, 1]).shared.results 1 = some (.ok ()) ∧
      (Calls.run (addStep args) (twoAdds disk) [0, 1, 0, 1]).shared.disk = last := by
  have hdone : (Calls.run (addStep args) (twoAdds disk) [0, 1, 0, 1]).Done :=
    List.forall_mem_cons.mpr ⟨rfl, List.forall_mem_singleton.mpr rfl⟩
  have hops : (Calls.run (addStep args) (twoAdds disk) [0, 1, 0, 1]).shared =
      [.read 0, .read 1, .write 0, .write 1].foldl (addStep args)
        ⟨disk, fun _ => [], fun _ => none⟩ := Calls.shared_run _ _
  have htext : ∀ texts : Nat → List Char, ∀ text, Function.update (Function.update texts 0 text)
      1 text 0 = text := fun _ _ => rfl
  refine ⟨hdone, ?_⟩
  simp only [hops, List.foldl_cons, List.foldl_nil, addStep, htext, Function.update_self, hfirst,
    hsecond]
  exact ⟨rfl, trivial, trivial⟩

/-- The arguments for the two devices. -/
def knownArgs (i : Nat) : ContactArgs := argsOf (knownContact i)

theorem written_empty : Written ∅ [] := Written.of_none (AList.lookup_empty _)

/-- Either of them is added to no file. -/
theorem known_first_added (i : Nat) (dir : Dir) :
    ∃ dir', (finishAdd (knownArgs i) (contactsText ∅)).exec ⟨dir, []⟩ = (.ok (), ⟨dir', []⟩) ∧
      Written dir' [knownContact i] := by
  have hnone : ∀ line ∈ lines (contactsText ∅),
      ¬ spaced (contactDevice (knownContact i)) <+: line := by
    rw [written_empty.text]
    exact fun line hline => absurd hline List.not_mem_nil
  obtain ⟨dir', hexec⟩ := finishAdd_returns (check_known i) hnone dir
  exact ⟨dir', hexec, (written_empty.finishAdd (check_known i) hexec).1⟩

theorem knownContact_devices :
    ((knownContact 0).name, (knownContact 0).signing, (knownContact 0).ecdh) ≠
      ((knownContact 1).name, (knownContact 1).signing, (knownContact 1).ecdh) := by
  intro h
  have hhead := congrArg (fun p : String × Bytes 32 × Bytes 32 => p.2.1.toList.head?) h
  exact absurd hhead (by decide)

/-- One call after the other: both devices are there. -/
theorem known_adds_kept :
    (∀ i, i = 0 ∨ i = 1 → (Calls.run (addStep knownArgs) (twoAdds ⟨∅, []⟩)
      [0, 0, 1, 1]).shared.results i = some (.ok ())) ∧
    Kept ⟨∅, []⟩ (Calls.run (addStep knownArgs) (twoAdds ⟨∅, []⟩) [0, 0, 1, 1]).shared.disk
      (knownContact 0) (knownContact 1) := by
  obtain ⟨dir, hfirst, hwritten⟩ := known_first_added 0 ∅
  have hfresh : ∀ line ∈ lines (contactsText dir),
      ¬ spaced (contactDevice (knownContact 1)) <+: line := by
    rw [hwritten.text, lines_writtenText hwritten.named]
    decide
  obtain ⟨dir', hsecond⟩ := finishAdd_returns (check_known 1) hfresh dir
  obtain ⟨hdone, hresults⟩ := @run_serial knownArgs ⟨∅, []⟩ ⟨dir, []⟩ ⟨dir', []⟩ hfirst hsecond
  refine ⟨hresults, ?_⟩
  exact (@concurrent_adds_kept_iff knownArgs ⟨∅, []⟩ ⟨∅, []⟩ (knownContact 0) (knownContact 1)
    [0, 0, 1, 1] (AList.lookup_empty _) (.done _) (check_known 0) (check_known 1)
    knownContact_devices hdone hresults).mpr (Or.inl rfl)

/-- Two calls that both read first: both return, and one device is lost. -/
theorem known_add_lost :
    (Calls.run (addStep knownArgs) (twoAdds ⟨∅, []⟩) [0, 1, 0, 1]).Done ∧
    (Calls.run (addStep knownArgs) (twoAdds ⟨∅, []⟩) [0, 1, 0, 1]).shared.results 0 =
      some (.ok ()) ∧
    (Calls.run (addStep knownArgs) (twoAdds ⟨∅, []⟩) [0, 1, 0, 1]).shared.results 1 =
      some (.ok ()) ∧
    contacts (Calls.run (addStep knownArgs) (twoAdds ⟨∅, []⟩) [0, 1, 0, 1]).shared.disk.dir =
      .ok [knownContact 1] ∧
    ¬ Kept ⟨∅, []⟩ (Calls.run (addStep knownArgs) (twoAdds ⟨∅, []⟩) [0, 1, 0, 1]).shared.disk
      (knownContact 0) (knownContact 1) := by
  obtain ⟨dir, hfirst, -⟩ := known_first_added 0 ∅
  obtain ⟨dir', hsecond, hwritten⟩ := known_first_added 1 dir
  obtain ⟨hdone, hresult₀, hresult₁, hdisk⟩ :=
    @run_overlap knownArgs ⟨∅, []⟩ ⟨dir, []⟩ ⟨dir', []⟩ hfirst hsecond
  have hcontacts : contacts dir' = .ok [knownContact 1] := contacts_of_written hwritten
  rw [hdisk]
  refine ⟨hdone, hresult₀, hresult₁, hcontacts, ?_⟩
  rintro ⟨now, hnow, -, hnew, -⟩
  obtain rfl := Except.ok.inj (hcontacts.symm.trans hnow)
  have hsame : (knownContact 0).recorded = knownContact 1 := List.mem_singleton.mp hnew
  exact knownContact_devices (congrArg (fun c : Contact => (c.name, c.signing, c.ecdh)) hsame)

end Keepstone.Store
