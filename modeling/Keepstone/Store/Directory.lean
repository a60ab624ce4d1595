import Keepstone.Core.Envelope
import Keepstone.Lib.Program
import Keepstone.Lib.Text
import Keepstone.Log.Merkle
import Mathlib.Data.List.AList

/-!
# The data directory (`crates/store/src/lib.rs:29-178`)

The files of a data directory are the ones the code has a path for. Paths contain an id in
hexadecimal or a chunk index in decimal, which are injective, so a path is a constructor with the
id or the index itself.

A call that writes can fail, and `fs::write` truncates the file first, so a failed write can leave
a part of the new content. How the calls of a run end is decided by the system: `Disk` carries
the outcomes still to come, and when there are none left every call succeeds.

Results:
* `keeps_write`: a property of the directory that the whole call keeps is an invariant, as long as
  no call is torn;
* `Ignores.safely`, `Ignores.always`: a property that does not look at a file is kept by the calls
  that write to it;
* `returns_call`: on a disk that fails no call, a call returns.
-/

namespace Keepstone.Store

open Keepstone.Lib Keepstone.Crypto Keepstone.Core

/-- `std::io::Error`: reported by the system, or made by the code with a message. -/
inductive IoError where
  | system
  | message (text : String)
  deriving DecidableEq

/-- `StoreError`. -/
inductive StoreError where
  | noIdentity
  | noHybrid
  | noMlDsa
  | notFound (item : String)
  | invalid (message : String)
  | crypto (error : CryptoError)
  | core (error : CoreError)
  | io (error : IoError)
  | log (error : Log.LogError)
  deriving DecidableEq

/-- `Display` for `std::io::Error`, with the text of what the system has reported. -/
def IoError.text (reported : String) : IoError → String
  | system => reported
  | message text => text

/-- `Display` for `StoreError`. -/
def StoreError.text (reported : String) : StoreError → String
  | noIdentity => "no identity found; run `keepstone keygen` first"
  | noHybrid => "no hybrid key found; regenerate the identity"
  | noMlDsa => "no ML-DSA key found; regenerate the identity"
  | notFound item => "not found: " ++ item
  | invalid message => "invalid: " ++ message
  | crypto error => "crypto: " ++ error.text
  | core error => "core: " ++ error.text
  | io error => "io: " ++ error.text reported
  | log error => "log: " ++ error.text

/-- The files of a data directory. -/
inductive File where
  | identity
  | hybrid
  | mldsa
  | contacts
  /-- `drop_path`. -/
  | drop (id : DropId)
  /-- `<index>.bin` in `chunk_dir`. -/
  | chunk (id : DropId) (index : Nat)
  /-- `entries_path`. -/
  | logEntries
  /-- `key.txt` in `log_dir`. -/
  | logKey
  /-- `anchors_path` of the command line. -/
  | anchors
  deriving DecidableEq

/-- A data directory: the files that exist and their bytes. -/
abbrev Dir := AList fun _ : File => List UInt8

/-! ## Calls that write -/

/-- How the system ends a call that writes. -/
inductive Outcome where
  | done
  /-- It fails and nothing has changed. -/
  | refused
  /-- It fails when `written` bytes have been written. -/
  | torn (written : Nat)
  deriving DecidableEq

/-- A data directory and the outcomes of the calls to come. -/
structure Disk where
  /-- The files. -/
  dir : Dir
  /-- The outcomes of the next calls; those after them are done. -/
  outcomes : List Outcome

/-- A call that ends as the system decides: `whole` is what it does to the files, and `part k`
what it has done when `k` bytes have been written. -/
def call (whole : Dir → Dir) (part : Nat → Dir → Dir) : Program IoError Disk Unit :=
  .step fun disk =>
    match disk.outcomes with
    | [] => (.ok (), ⟨whole disk.dir, []⟩)
    | .done :: rest => (.ok (), ⟨whole disk.dir, rest⟩)
    | .refused :: rest => (.error .system, ⟨disk.dir, rest⟩)
    | .torn k :: rest => (.error .system, ⟨part k disk.dir, rest⟩)

/-- `fs::write`. -/
def write (file : File) (bytes : List UInt8) : Program IoError Disk Unit :=
  call (·.insert file bytes) fun k dir => dir.insert file (bytes.take k)

/-- A file with more bytes at its end. -/
def extend (dir : Dir) (file : File) (bytes : List UInt8) : Dir :=
  dir.insert file ((dir.lookup file).getD [] ++ bytes)

/-- `OpenOptions::new().create(true).append(true).open`. -/
def openAppend (file : File) : Program IoError Disk Unit :=
  call (extend · file []) fun _ dir => dir

/-- `write_all` on a file opened to be appended to. -/
def writeAll (file : File) (bytes : List UInt8) : Program IoError Disk Unit :=
  call (extend · file bytes) fun k dir => extend dir file (bytes.take k)

/-- `fs::create_dir_all`. Directories hold no content of their own. -/
def createDirAll : Program IoError Disk Unit := call id fun _ dir => dir

/-! ## Invariants -/

/-- No call to come is torn. -/
def Disk.Intact (disk : Disk) : Prop := ∀ k, Outcome.torn k ∉ disk.outcomes

/-- A property of the directory, on a disk that tears no write. -/
def Safely (J : Dir → Prop) (disk : Disk) : Prop := J disk.dir ∧ disk.Intact

variable {J : Dir → Prop}

theorem keeps_call {whole : Dir → Dir} {part : Nat → Dir → Dir}
    (h : ∀ dir, J dir → J (whole dir)) : Keeps (Safely J) (call whole part) fun _ => True := by
  rintro ⟨dir, outcomes⟩ ⟨hJ, hintact⟩
  refine ⟨?_, fun _ _ => trivial⟩
  unfold call
  rw [Program.exec_step]
  cases outcomes with
  | nil => exact ⟨h dir hJ, nofun⟩
  | cons outcome rest =>
    have hrest : ∀ k, Outcome.torn k ∉ rest := fun k hk => hintact k (List.mem_cons_of_mem _ hk)
    cases outcome with
    | done => exact ⟨h dir hJ, hrest⟩
    | refused => exact ⟨hJ, hrest⟩
    | torn k => exact absurd List.mem_cons_self (hintact k)

/-- A property that also a part of the call keeps is an invariant on every disk. -/
theorem keeps_call_torn {whole : Dir → Dir} {part : Nat → Dir → Dir}
    (hwhole : ∀ dir, J dir → J (whole dir)) (hpart : ∀ k dir, J dir → J (part k dir)) :
    Keeps (fun disk : Disk => J disk.dir) (call whole part) fun _ => True := by
  rintro ⟨dir, outcomes⟩ hJ
  refine ⟨?_, fun _ _ => trivial⟩
  unfold call
  rw [Program.exec_step]
  cases outcomes with
  | nil => exact hwhole dir hJ
  | cons outcome rest =>
    cases outcome with
    | done => exact hwhole dir hJ
    | refused => exact hJ
    | torn k => exact hpart k dir hJ

variable (J) in
/-- Whatever is written to `file`, `J` is kept. -/
def Ignores (file : File) : Prop := ∀ dir bytes, J dir → J (dir.insert file bytes)

theorem keeps_write {file : File} {bytes : List UInt8}
    (h : ∀ dir, J dir → J (dir.insert file bytes)) :
    Keeps (Safely J) (write file bytes) fun _ => True := keeps_call h

/-- Calls that write to `file` keep `I`, whatever they write. -/
structure Allows (I : Disk → Prop) (file : File) : Prop where
  createDirAll : Keeps I createDirAll fun _ => True
  write : ∀ bytes, Keeps I (write file bytes) fun _ => True
  openAppend : Keeps I (openAppend file) fun _ => True
  writeAll : ∀ bytes, Keeps I (writeAll file bytes) fun _ => True

theorem Ignores.safely {file : File} (h : Ignores J file) : Allows (Safely J) file where
  createDirAll := keeps_call fun _ hJ => hJ
  write _ := keeps_call fun dir => h dir _
  openAppend := keeps_call fun dir => h dir _
  writeAll _ := keeps_call fun dir => h dir _

/-- A property that does not look at `file` is kept even by a call on it that is torn. -/
theorem Ignores.always {file : File} (h : Ignores J file) :
    Allows (fun disk => J disk.dir) file where
  createDirAll := keeps_call_torn (fun _ hJ => hJ) fun _ _ hJ => hJ
  write _ := keeps_call_torn (fun dir => h dir _) fun _ dir => h dir _
  openAppend := keeps_call_torn (fun dir => h dir _) fun _ _ hJ => hJ
  writeAll _ := keeps_call_torn (fun dir => h dir _) fun _ dir => h dir _

/-! ## Calls that returned -/

/-- A call that returned did all it does. -/
theorem exec_call_eq_ok {whole : Dir → Dir} {part : Nat → Dir → Dir} {disk disk' : Disk} {u : Unit}
    (h : (call whole part).exec disk = (.ok u, disk')) : disk'.dir = whole disk.dir := by
  obtain ⟨dir, outcomes⟩ := disk
  unfold call at h
  rw [Program.exec_step] at h
  cases outcomes with
  | nil => exact (congrArg (·.2.dir) h).symm
  | cons outcome rest =>
    cases outcome with
    | done => exact (congrArg (·.2.dir) h).symm
    | refused => exact absurd (congrArg Prod.fst h) nofun
    | torn k => exact absurd (congrArg Prod.fst h) nofun

/-- A call that fails without being torn has done nothing. -/
theorem exec_call_eq_error {whole : Dir → Dir} {part : Nat → Dir → Dir} {disk disk' : Disk}
    {e : IoError} (hintact : disk.Intact) (h : (call whole part).exec disk = (.error e, disk')) :
    disk'.dir = disk.dir := by
  obtain ⟨dir, outcomes⟩ := disk
  unfold call at h
  rw [Program.exec_step] at h
  cases outcomes with
  | nil => exact absurd (congrArg Prod.fst h) nofun
  | cons outcome rest =>
    cases outcome with
    | done => exact absurd (congrArg Prod.fst h) nofun
    | refused => exact (congrArg (·.2.dir) h).symm
    | torn k => exact absurd List.mem_cons_self (hintact k)

theorem lookup_of_write {file : File} {bytes : List UInt8} {disk disk' : Disk} {u : Unit}
    (h : (write file bytes).exec disk = (.ok u, disk')) : disk'.dir.lookup file = some bytes := by
  rw [exec_call_eq_ok h, AList.lookup_insert]

/-- No call to come fails. -/
def Disk.Quiet (disk : Disk) : Prop := ∀ outcome ∈ disk.outcomes, outcome = .done

theorem quiet_nil (dir : Dir) : Disk.Quiet ⟨dir, []⟩ := fun _ h => absurd h List.not_mem_nil

theorem Disk.Quiet.tail {disk : Disk} (h : disk.Quiet) (dir : Dir) :
    Disk.Quiet ⟨dir, disk.outcomes.tail⟩ :=
  fun outcome ho => h outcome (List.mem_of_mem_tail ho)

theorem Disk.Quiet.intact {disk : Disk} (h : disk.Quiet) : disk.Intact :=
  fun k hk => absurd (h (.torn k) hk) (by simp)

theorem exec_call {disk : Disk} (hquiet : disk.Quiet) (whole : Dir → Dir)
    (part : Nat → Dir → Dir) :
    (call whole part).exec disk = (.ok (), ⟨whole disk.dir, disk.outcomes.tail⟩) := by
  obtain ⟨dir, outcomes⟩ := disk
  cases outcomes with
  | nil => rfl
  | cons outcome rest =>
    obtain rfl := hquiet outcome List.mem_cons_self
    rfl

/-- A call that is refused changes nothing. -/
theorem exec_call_refused {disk : Disk} (h : disk.outcomes.head? = some .refused)
    (whole : Dir → Dir) (part : Nat → Dir → Dir) :
    (call whole part).exec disk = (.error .system, ⟨disk.dir, disk.outcomes.tail⟩) := by
  obtain ⟨dir, outcomes⟩ := disk
  cases outcomes with
  | nil => exact absurd h nofun
  | cons outcome rest =>
    obtain rfl := Option.some.inj h
    rfl

theorem returns_call (whole : Dir → Dir) (part : Nat → Dir → Dir) :
    Returns Disk.Quiet (call whole part) :=
  fun _ hquiet => ⟨(), _, exec_call hquiet whole part, hquiet.tail _⟩

/-- Between two disks `n` calls went well. -/
def Disk.Spent (n : Nat) (before after : Disk) : Prop :=
  after.outcomes = before.outcomes.drop n ∧ ∀ outcome ∈ before.outcomes.take n, outcome = .done

theorem Disk.Spent.refl (disk : Disk) : Disk.Spent 0 disk disk := ⟨rfl, by simp⟩

theorem Disk.Spent.trans {m n : Nat} {first second third : Disk} (h : first.Spent m second)
    (h' : second.Spent n third) : first.Spent (m + n) third := by
  refine ⟨by rw [h'.1, h.1, List.drop_drop], fun outcome ho => ?_⟩
  rw [List.take_add, List.mem_append, ← h.1] at ho
  exact ho.elim (h.2 outcome) (h'.2 outcome)

theorem spent_call {whole : Dir → Dir} {part : Nat → Dir → Dir} {disk disk' : Disk} {u : Unit}
    (h : (call whole part).exec disk = (.ok u, disk')) : disk.Spent 1 disk' := by
  obtain ⟨dir, outcomes⟩ := disk
  unfold call at h
  rw [Program.exec_step] at h
  cases outcomes with
  | nil =>
    obtain rfl := (Prod.mk.inj h).2
    exact ⟨rfl, by simp⟩
  | cons outcome rest =>
    cases outcome with
    | done =>
      obtain rfl := (Prod.mk.inj h).2
      exact ⟨rfl, by simp⟩
    | refused => exact absurd (congrArg Prod.fst h) nofun
    | torn k => exact absurd (congrArg Prod.fst h) nofun

/-- To make a directory uses up an outcome and changes no file. -/
theorem exec_createDirAll (disk : Disk) :
    (createDirAll.exec disk).2 = ⟨disk.dir, disk.outcomes.tail⟩ := by
  obtain ⟨dir, outcomes⟩ := disk
  cases outcomes with
  | nil => rfl
  | cons outcome rest =>
    cases outcome with
    | done => rfl
    | refused => rfl
    | torn k => rfl

/-- To go on whether a directory can be made or not uses up an outcome. -/
theorem exec_createDirAll_ok {ε : Type} (disk : Disk) :
    ∃ made, (createDirAll.ok : Program ε Disk (Option Unit)).exec disk =
      (.ok made, ⟨disk.dir, disk.outcomes.tail⟩) :=
  ⟨_, Prod.ext rfl (exec_createDirAll disk)⟩

/-- What is in one file does not depend on what is written to another. -/
theorem ignores_lookup {file other : File} (h : file ≠ other) (content : Option (List UInt8)) :
    Ignores (fun dir => dir.lookup file = content) other :=
  fun _ _ hcontent => (AList.lookup_insert_ne h).trans hcontent

end Keepstone.Store
