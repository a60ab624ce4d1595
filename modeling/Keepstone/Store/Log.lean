import Keepstone.Core.KnownAnswers
import Keepstone.Lib.Records
import Keepstone.Log.Consistency
import Keepstone.Log.Sth
import Keepstone.Store.Drops

/-!
# The local transparency log (`crates/store/src/lib.rs:661-746`)

The log is one file of records, an envelope after its length in four bytes, that is only ever
appended to. `log_entries` reads it up to where what is left is not a whole record.

Results:
* `appendsLog_appendLogEntry`: what a call of `append_log_entry` leaves in the file, when it
  returns and when it fails;
* **`logRun_never_equivocates`**: the tree heads of one log are of one growing history;
* **`logRun_after_cut_iff`**: when the entries that follow a torn one are read.
-/

namespace Keepstone.Store

open Keepstone.Lib Keepstone.Crypto Keepstone.Core Keepstone.Log

variable (prim : Primitives)

/-- `Store::log_entries`. Its loop, from the bytes at the cursor on, is `scan` with lengths of
four bytes. -/
def logEntries (dir : Dir) : List (List UInt8) :=
  match dir.lookup .logEntries with
  | some bytes => scan 4 bytes
  | none => []

/-- `Store::log_identity` with the identity it generates if there is none. -/
def logIdentity (generated : Identity) : Program StoreError Disk Identity := do
  match ← .reads fun disk => .ok (readToString disk.dir .logKey) with
  | some text =>
    let signing ← .ofExcept (hex32 ((lines text).getD 0 []))
    let ecdh ← .ofExcept (hex32 ((lines text).getD 1 []))
    pure ⟨signing, ecdh⟩
  | none =>
    createDirAll.mapErr .io
    (write .logKey (textBytes (identityText generated))).mapErr .io
    pure generated

/-- `u64::try_from(n).unwrap_or(u64::MAX)`. -/
def u64OrMax (n : Nat) : UInt64 := if n < 2 ^ 64 then UInt64.ofNat n else 0xFFFFFFFFFFFFFFFF

/-- The leaf hashes of the log's entries. -/
def logLeaves (dir : Dir) : List Hash := (logEntries dir).map (leafHash prim.sha256)

/-- `Store::signed_tree_head` at the time `now`. -/
def signedTreeHead (generated : Identity) (now : UInt64) :
    Program StoreError Disk SignedTreeHead := do
  let leaves ← .reads fun disk => .ok (logLeaves prim disk.dir)
  let root := mth prim.sha256 leaves
  let log ← logIdentity generated
  pure (SignedTreeHead.sign prim log (u64OrMax leaves.length) root now)

/-! ## The file -/

/-- The bytes of the log's file. -/
def logBytes (dir : Dir) : List UInt8 := (dir.lookup .logEntries).getD []

theorem logEntries_eq_scan (dir : Dir) : logEntries dir = scan 4 (logBytes dir) := by
  unfold logEntries logBytes
  cases dir.lookup .logEntries with
  | none => rfl
  | some bytes => rfl

theorem logBytes_extend (dir : Dir) (bytes : List UInt8) :
    logBytes (extend dir .logEntries bytes) = logBytes dir ++ bytes := by
  unfold extend logBytes
  rw [AList.lookup_insert, Option.getD_some]

/-- `m` appends `content` to the log's file: all of it when it returns, and some first part of it
when it does not. -/
structure AppendsLog {ε : Type} (m : Program ε Disk Unit) (content : List UInt8) : Prop where
  /-- A run that fails. -/
  part : ∀ disk, ∃ k, logBytes (m.exec disk).2.dir = logBytes disk.dir ++ content.take k
  /-- A run that returns. -/
  whole : ∀ disk, (m.exec disk).1 = .ok () →
    logBytes (m.exec disk).2.dir = logBytes disk.dir ++ content

namespace AppendsLog

variable {ε ε' : Type}

theorem call {whole : Dir → Dir} {part : Nat → Dir → Dir} {content : List UInt8}
    (hwhole : ∀ dir, logBytes (whole dir) = logBytes dir ++ content)
    (hpart : ∀ k dir, ∃ j, logBytes (part k dir) = logBytes dir ++ content.take j) :
    AppendsLog (call whole part) content := by
  have hnone : ∀ dir, logBytes dir = logBytes dir ++ content.take 0 := fun dir => by
    rw [List.take_zero, List.append_nil]
  have hall : ∀ dir, logBytes (whole dir) = logBytes dir ++ content.take content.length :=
    fun dir => by rw [List.take_length, hwhole]
  constructor
  · rintro ⟨dir, outcomes⟩
    unfold Store.call
    rw [Program.exec_step]
    cases outcomes with
    | nil => exact ⟨_, hall dir⟩
    | cons outcome rest =>
      cases outcome with
      | done => exact ⟨_, hall dir⟩
      | refused => exact ⟨0, hnone dir⟩
      | torn k => exact hpart k dir
  · rintro ⟨dir, outcomes⟩
    unfold Store.call
    rw [Program.exec_step]
    cases outcomes with
    | nil => exact fun _ => hwhole dir
    | cons outcome rest =>
      cases outcome with
      | done => exact fun _ => hwhole dir
      | refused => exact fun h => absurd h nofun
      | torn k => exact fun h => absurd h nofun

theorem createDirAll : AppendsLog createDirAll [] :=
  call (fun _ => (List.append_nil _).symm) fun _ _ => ⟨0, (List.append_nil _).symm⟩

theorem openAppend : AppendsLog (openAppend .logEntries) [] :=
  call (fun dir => logBytes_extend dir []) fun _ _ => ⟨0, (List.append_nil _).symm⟩

theorem writeAll (bytes : List UInt8) : AppendsLog (writeAll .logEntries bytes) bytes :=
  call (fun dir => logBytes_extend dir bytes) fun k dir => ⟨k, logBytes_extend dir _⟩

theorem mapErr {m : Program ε Disk Unit} {content : List UInt8} (h : AppendsLog m content)
    (f : ε → ε') : AppendsLog (m.mapErr f) content :=
  ⟨h.part, fun disk hok => h.whole disk (mapError_ok_iff.mp hok)⟩

/-- One program after another: what the second appends follows what the first did. -/
theorem bind {m : Program ε Disk Unit} {f : Unit → Program ε Disk Unit}
    {first second : List UInt8} (hm : AppendsLog m first) (hf : AppendsLog (f ()) second) :
    AppendsLog (m >>= f) (first ++ second) := by
  constructor
  · intro disk
    obtain ⟨k, hk⟩ := hm.part disk
    have hwhole := hm.whole disk
    cases h : m.exec disk with
    | mk r middle =>
      rw [h] at hk hwhole
      cases r with
      | error e =>
        rw [Program.exec_bind_error h]
        refine ⟨min k first.length, ?_⟩
        rw [List.take_append_of_le_length (Nat.min_le_right ..), ← List.take_eq_take_min]
        exact hk
      | ok u =>
        rw [Program.exec_bind_ok h]
        obtain ⟨j, hj⟩ := hf.part middle
        refine ⟨first.length + j, ?_⟩
        rw [hj, hwhole rfl, List.take_length_add_append, List.append_assoc]
  · intro disk hok
    have hwhole := hm.whole disk
    cases h : m.exec disk with
    | mk r middle =>
      rw [h] at hwhole
      cases r with
      | error e =>
        rw [Program.exec_bind_error h] at hok
        exact absurd hok nofun
      | ok u =>
        rw [Program.exec_bind_ok h] at hok ⊢
        rw [hf.whole middle hok, hwhole rfl, List.append_assoc]

end AppendsLog

theorem AppendsLog.ofExcept_bind {ε α : Type} {x : Except ε α} {a : α}
    {f : α → Program ε Disk Unit} {content : List UInt8} (hx : x = .ok a)
    (hf : AppendsLog (f a) content) : AppendsLog (Program.ofExcept x >>= f) content := by
  have hexec : ∀ disk, (Program.ofExcept x >>= f).exec disk = (f a).exec disk :=
    fun disk => Program.exec_ofExcept_bind hx f disk
  constructor
  · intro disk
    rw [hexec]
    exact hf.part disk
  · intro disk hok
    rw [hexec] at hok ⊢
    exact hf.whole disk hok

/-- **What one call of `append_log_entry` writes.** -/
theorem appendsLog_appendLogEntry {raw : List UInt8} (hraw : Fits 4 raw) :
    AppendsLog (appendLogEntry raw) (record 4 raw) := by
  have hlen : u32TryFrom (StoreError.invalid "entry length") raw.length =
      .ok (UInt32.ofNat raw.length) := if_pos hraw
  have hnat : (UInt32.ofNat raw.length).toNat = raw.length := UInt32.toNat_ofNat_of_lt' hraw
  refine (AppendsLog.createDirAll.mapErr _).bind ((AppendsLog.openAppend.mapErr _).bind ?_)
  refine AppendsLog.ofExcept_bind hlen ?_
  rw [hnat]
  exact ((AppendsLog.writeAll _).mapErr _).bind ((AppendsLog.writeAll _).mapErr _)

/-- A call that returns has been given an entry whose length fits. -/
theorem fits_of_exec_appendLogEntry {raw : List UInt8} {disk disk' : Disk}
    (h : (appendLogEntry raw).exec disk = (.ok (), disk')) : Fits 4 raw := by
  obtain ⟨_, _, -, h⟩ := Program.exec_bind_eq_ok h
  obtain ⟨_, _, -, h⟩ := Program.exec_bind_eq_ok h
  obtain ⟨len, _, hlen, -⟩ := Program.exec_bind_eq_ok h
  have htry := (Program.exec_ofExcept_eq_ok hlen).1
  unfold u32TryFrom at htry
  split at htry
  · assumption
  · exact absurd htry nofun

theorem logBytes_appendLogEntry {raw : List UInt8} {disk disk' : Disk}
    (h : (appendLogEntry raw).exec disk = (.ok (), disk')) :
    logBytes disk'.dir = logBytes disk.dir ++ record 4 raw := by
  have hwhole := (appendsLog_appendLogEntry (fits_of_exec_appendLogEntry h)).whole disk
  rw [h] at hwhole
  exact hwhole rfl

/-- On a disk that fails no call, an entry whose length fits is appended. -/
theorem returns_appendLogEntry {raw : List UInt8} (hraw : Fits 4 raw) :
    Returns Disk.Quiet (appendLogEntry raw) := by
  have hlen : u32TryFrom (StoreError.invalid "entry length") raw.length =
      .ok (UInt32.ofNat raw.length) := if_pos hraw
  refine ((returns_call _ _).mapErr _).bind fun _ => ?_
  refine ((returns_call _ _).mapErr _).bind fun _ => ?_
  refine (Returns.ofExcept hlen).bind fun _ => ?_
  refine ((returns_call _ _).mapErr _).bind fun _ => ?_
  exact (returns_call _ _).mapErr _

/-- The log's bytes do not depend on what is written to another file. -/
theorem ignores_logBytes {file : File} (h : .logEntries ≠ file) (bytes : List UInt8) :
    Ignores (fun dir => logBytes dir = bytes) file := by
  intro dir content hbytes
  unfold logBytes
  rw [AList.lookup_insert_ne h]
  exact hbytes

/-- The log's file is nothing but the records of its entries: no append was torn. -/
def WholeLog (dir : Dir) : Prop := logBytes dir = records 4 (logEntries dir)

/-- An entry after whole records is read after their contents. -/
theorem WholeLog.append {dir dir' : Dir} {raw : List UInt8} (h : WholeLog dir) (hraw : Fits 4 raw)
    (hbytes : logBytes dir' = logBytes dir ++ record 4 raw) :
    logEntries dir' = logEntries dir ++ [raw] ∧ WholeLog dir' := by
  have hfits : ∀ entry ∈ logEntries dir ++ [raw], Fits 4 entry := by
    intro entry hmem
    rcases List.mem_append.mp hmem with hmem | hmem
    · rw [logEntries_eq_scan] at hmem
      exact (scan_spec (by decide) (logBytes dir)).1 entry hmem
    · rwa [List.mem_singleton.mp hmem]
  have hrecords : logBytes dir' = records 4 (logEntries dir ++ [raw]) := by
    rw [hbytes, h, records_append, records_cons, records_nil, List.append_nil]
  have hentries : logEntries dir' = logEntries dir ++ [raw] := by
    rw [logEntries_eq_scan, hrecords, scan_records (by decide) hfits]
  exact ⟨hentries, by rw [WholeLog, hentries, hrecords]⟩

/-! ## Runs -/

/-- The entries appended by successful calls of `append_log_entry`, one after the other. Between
them anything may happen that leaves the log's file as it is. -/
inductive LogRun : Disk → List (List UInt8) → Disk → Prop
  | done (disk : Disk) : LogRun disk [] disk
  | append {disk middle last : Disk} {raw : List UInt8} {entries : List (List UInt8)} :
      (appendLogEntry raw).exec disk = (.ok (), middle) → LogRun middle entries last →
      LogRun disk (raw :: entries) last
  | other {disk middle last : Disk} {entries : List (List UInt8)} :
      middle.dir.lookup .logEntries = disk.dir.lookup .logEntries → LogRun middle entries last →
      LogRun disk entries last

/-- **A run appends its entries' records**, and nothing else. -/
theorem LogRun.spec {disk last : Disk} {entries : List (List UInt8)}
    (h : LogRun disk entries last) :
    (∀ raw ∈ entries, Fits 4 raw) ∧
      logBytes last.dir = logBytes disk.dir ++ records 4 entries := by
  induction h with
  | done disk => exact ⟨nofun, (List.append_nil _).symm⟩
  | append happend _ ih =>
    obtain ⟨hfits, hbytes⟩ := ih
    refine ⟨List.forall_mem_cons.mpr ⟨fits_of_exec_appendLogEntry happend, hfits⟩, ?_⟩
    rw [hbytes, logBytes_appendLogEntry happend, records_cons, List.append_assoc]
  | other hsame _ ih =>
    refine ⟨ih.1, ?_⟩
    rw [ih.2]
    unfold logBytes
    rw [hsame]

/-- After a run from a log of whole entries, the log has these and those of the run. -/
theorem LogRun.logEntries {disk last : Disk} {old entries : List (List UInt8)}
    (hold : ∀ raw ∈ old, Fits 4 raw) (hbytes : logBytes disk.dir = records 4 old)
    (h : LogRun disk entries last) : logEntries last.dir = old ++ entries := by
  obtain ⟨hfits, hlast⟩ := h.spec
  rw [logEntries_eq_scan, hlast, hbytes, scan_records_append (by decide) hold,
    scan_records (by decide) hfits]

theorem LogRun.logEntries_of_empty {disk last : Disk} {entries : List (List UInt8)}
    (hempty : logBytes disk.dir = []) (h : LogRun disk entries last) :
    Store.logEntries last.dir = entries := by
  have hnil : logBytes disk.dir = records 4 [] := hempty
  exact h.logEntries (fun _ hmem => absurd hmem List.not_mem_nil) hnil

/-! ## Tree heads -/

variable {prim}

/-- Loading or creating the log's key writes to its own file only. -/
theorem keeps_logIdentity {I : Disk → Prop} (hkey : Allows I .logKey) (generated : Identity) :
    Keeps I (logIdentity generated) fun _ => True := by
  refine (Keeps.reads fun _ _ _ _ => trivial).bind fun text _ => ?_
  cases text with
  | some text =>
    refine (Keeps.ofExcept _).bind fun _ _ => ?_
    refine (Keeps.ofExcept _).bind fun _ _ => ?_
    exact Keeps.pure trivial
  | none =>
    refine (hkey.createDirAll.mapErr _).bind fun _ _ => ?_
    refine ((hkey.write _).mapErr _).bind fun _ _ => ?_
    exact Keeps.pure trivial

/-- A tree head is of the log's entries, which its making leaves as they are. -/
theorem exec_signedTreeHead {generated : Identity} {now : UInt64} {disk disk' : Disk}
    {head : SignedTreeHead}
    (h : (signedTreeHead prim generated now).exec disk = (.ok head, disk')) :
    head.treeSize = u64OrMax (logLeaves prim disk.dir).length ∧
      head.root = mth prim.sha256 (logLeaves prim disk.dir) ∧
      disk'.dir.lookup .logEntries = disk.dir.lookup .logEntries := by
  obtain ⟨leaves, middle, hleaves, h⟩ := Program.exec_bind_eq_ok h
  obtain ⟨hread, rfl⟩ := Program.exec_reads_eq_ok hleaves
  obtain rfl := Except.ok.inj hread
  obtain ⟨log, after, hlog, h⟩ := Program.exec_bind_eq_ok h
  obtain ⟨rfl, rfl⟩ := Program.exec_pure_eq_ok h
  have hkey : Allows (fun later => later.dir.lookup .logEntries = disk.dir.lookup .logEntries)
      .logKey := (ignores_lookup (by nofun) _).always
  exact ⟨rfl, rfl, (keeps_logIdentity hkey generated).after rfl hlog⟩

theorem toNat_u64OrMax {n : Nat} (h : n < 2 ^ 64) : (u64OrMax n).toNat = n := by
  rw [u64OrMax, if_pos h]
  exact UInt64.toNat_ofNat_of_lt' h

theorem detectEquivocation_eq_false_iff {a b : SignedTreeHead} :
    detectEquivocation a b = false ↔ (a.treeSize = b.treeSize → a.root = b.root) := by
  unfold detectEquivocation
  simp

/-- The heads of two states of a growing log are those of a list and of a prefix of it. -/
theorem heads_consistent {old new : List (List UInt8)} {head head' : SignedTreeHead}
    (hlen : (old ++ new).length < 2 ^ 64)
    (hsize : head.treeSize = u64OrMax old.length)
    (hroot : head.root = mth prim.sha256 (old.map (leafHash prim.sha256)))
    (hsize' : head'.treeSize = u64OrMax (old ++ new).length)
    (hroot' : head'.root = mth prim.sha256 ((old ++ new).map (leafHash prim.sha256))) :
    head.treeSize ≤ head'.treeSize ∧
    (head.treeSize = head'.treeSize → head.root = head'.root) ∧
    ∃ proof, consistencyProof prim.sha256 ((old ++ new).map (leafHash prim.sha256))
        head.treeSize.toNat = .ok proof ∧
      verifyConsistency prim.sha256 head.treeSize.toNat head'.treeSize.toNat head.root head'.root
        proof = true := by
  have hle : old.length ≤ (old ++ new).length := by
    rw [List.length_append]
    omega
  have hold : head.treeSize.toNat = old.length := by
    rw [hsize, toNat_u64OrMax (hle.trans_lt hlen)]
  have hnew : head'.treeSize.toNat = (old ++ new).length := by rw [hsize', toNat_u64OrMax hlen]
  refine ⟨?_, fun heq => ?_, ?_⟩
  · rw [UInt64.le_iff_toNat_le, hold, hnew]
    exact hle
  · have hnil : new = [] := by
      rw [← UInt64.toNat_inj, hold, hnew, List.length_append] at heq
      exact List.length_eq_zero_iff.mp (by omega)
    rw [hroot, hroot', hnil, List.append_nil]
  · have hold_leaves : ((old ++ new).map (leafHash prim.sha256)).take old.length =
        old.map (leafHash prim.sha256) := by
      rw [List.map_append, List.take_left' (List.length_map _)]
    have hcomplete := @verifyConsistency_complete prim.sha256
      ((old ++ new).map (leafHash prim.sha256)) old.length (by rwa [List.length_map])
    rw [hold_leaves, List.length_map, ← hroot, ← hroot', ← hold, ← hnew] at hcomplete
    exact hcomplete

/-- **One log, one history.** More bytes in the file change nothing of what was read before. The
entries of a log that was empty are those appended, in order; and two tree heads of it are of a
list and of a prefix of it: they do not equivocate, and the consistency proof made from the later
leaves verifies. (A list of entries in memory has fewer than `2 ^ 64`.) -/
theorem logRun_never_equivocates (prim : Primitives) :
    (∀ (dir : Dir) (bytes suffix : List UInt8),
      logEntries (dir.insert .logEntries bytes) <+:
        logEntries (dir.insert .logEntries (bytes ++ suffix))) ∧
    (∀ (start last : Disk) (entries : List (List UInt8)), logBytes start.dir = [] →
      LogRun start entries last → logEntries last.dir = entries) ∧
    ∀ (start earlier signed later final : Disk) (old new : List (List UInt8))
      (generated generated' : Identity) (now now' : UInt64) (head head' : SignedTreeHead),
      logBytes start.dir = [] → LogRun start old earlier →
      (signedTreeHead prim generated now).exec earlier = (.ok head, signed) →
      LogRun signed new later →
      (signedTreeHead prim generated' now').exec later = (.ok head', final) →
      (logEntries later.dir).length < 2 ^ 64 →
      head.treeSize ≤ head'.treeSize ∧
      (head.treeSize = head'.treeSize → head.root = head'.root) ∧
      detectEquivocation head head' = false ∧
      ∃ proof, consistencyProof prim.sha256 (logLeaves prim later.dir) head.treeSize.toNat =
          .ok proof ∧
        verifyConsistency prim.sha256 head.treeSize.toNat head'.treeSize.toNat head.root
          head'.root proof = true := by
  refine ⟨fun dir bytes suffix => ?_, fun start last entries hempty hrun => ?_, ?_⟩
  · simp only [logEntries, AList.lookup_insert]
    exact scan_isPrefix (by decide) bytes suffix
  · exact hrun.logEntries_of_empty hempty
  · intro start earlier signed later final old new generated generated' now now' head head'
      hempty hold hhead hnew hhead' hlen
    obtain ⟨hsize, hroot, hsame⟩ := exec_signedTreeHead hhead
    obtain ⟨hsize', hroot', -⟩ := exec_signedTreeHead hhead'
    obtain ⟨hfits, hbytes⟩ := hold.spec
    have hearlier : logEntries earlier.dir = old := hold.logEntries_of_empty hempty
    have hlater : logEntries later.dir = old ++ new := by
      refine LogRun.logEntries hfits ?_ (LogRun.other hsame hnew)
      rw [hbytes, hempty, List.nil_append]
    simp only [logLeaves, hearlier, hlater, List.length_map] at hsize hroot hsize' hroot' ⊢
    rw [hlater] at hlen
    obtain ⟨hle, heq, hproof⟩ := heads_consistent hlen hsize hroot hsize' hroot'
    exact ⟨hle, heq, detectEquivocation_eq_false_iff.mpr heq, hproof⟩

/-- The disk after a call of `append_log_entry`. -/
def appended (raw : List UInt8) (disk : Disk) : Disk := ((appendLogEntry raw).exec disk).2

/-- A head of one entry and a head after a second one, with a new key. -/
theorem logRun_two_heads :
    let earlier := appended [1] ⟨∅, []⟩
    let later := appended [2] earlier
    ∃ head head' signed final,
      (signedTreeHead KnownAnswers.primitives KnownAnswers.recipient 1).exec earlier =
        (.ok head, signed) ∧
      (signedTreeHead KnownAnswers.primitives KnownAnswers.recipient 2).exec later =
        (.ok head', final) ∧
      detectEquivocation head head' = false ∧ head.treeSize ≤ head'.treeSize := by
  intro earlier later
  obtain ⟨head, signed, hhead⟩ : ∃ head signed,
      (signedTreeHead KnownAnswers.primitives KnownAnswers.recipient 1).exec earlier =
        (.ok head, signed) := ⟨_, _, rfl⟩
  obtain ⟨head', final, hhead'⟩ : ∃ head' final,
      (signedTreeHead KnownAnswers.primitives KnownAnswers.recipient 2).exec later =
        (.ok head', final) := ⟨_, _, rfl⟩
  have hfirst : LogRun ⟨∅, []⟩ [[1]] earlier := .append rfl (.done _)
  have hsecond : LogRun earlier [[2]] later := .append rfl (.done _)
  have h := (logRun_never_equivocates KnownAnswers.primitives).2.2 _ _ _ _ _ _ _ _ _ _ _ _ _ rfl
    hfirst hhead (LogRun.other (exec_signedTreeHead hhead).2.2.symm hsecond) hhead'
    (by decide +kernel)
  exact ⟨head, head', signed, final, hhead, hhead', h.2.2.1, h.1⟩

/-! ## After a torn append -/

/-- A call of `append_log_entry` that fails leaves some first part of the record. -/
theorem exec_appendLogEntry_error {raw : List UInt8} (hraw : Fits 4 raw) {disk disk' : Disk}
    {e : StoreError} (h : (appendLogEntry raw).exec disk = (.error e, disk')) :
    ∃ k, logBytes disk'.dir = logBytes disk.dir ++ (record 4 raw).take k := by
  have hpart := (appendsLog_appendLogEntry hraw).part disk
  rwa [h] at hpart

/-- A part of a record is no record. -/
theorem noRecord_take {raw : List UInt8} (hraw : Fits 4 raw) {k : Nat}
    (hk : k < (record 4 raw).length) : NoRecord 4 ((record 4 raw).take k) := by
  rw [length_record] at hk
  have hlen : ((record 4 raw).take k).length = k := by
    rw [List.length_take, length_record]
    omega
  by_cases h4 : k < 4
  · exact Or.inl (by rwa [hlen])
  · have htake : ((record 4 raw).take k).take 4 = beBytes 4 raw.length := by
      rw [List.take_take, Nat.min_eq_left (by omega), record,
        List.take_left' (length_beBytes ..)]
    refine Or.inr ?_
    rw [hlen, htake, beNat_beBytes hraw]
    exact hk

/-- **When the entries that follow a torn one are read**: if nothing of the torn one is in the
file, or nothing follows, or the bytes happen to be such that the torn part can be moved behind
the records that follow it. Otherwise the stale length takes bytes of the next record for its
own, and from there on the lengths are read at the wrong places. -/
theorem logRun_after_cut_iff (old later : List (List UInt8)) (raw : List UInt8) (k : Nat)
    (cut last : Disk) (hold : ∀ entry ∈ old, Fits 4 entry) (hraw : Fits 4 raw)
    (hk : k < (record 4 raw).length)
    (hcut : logBytes cut.dir = records 4 old ++ (record 4 raw).take k)
    (hrun : LogRun cut later last) :
    logEntries last.dir = old ++ later ↔
      k = 0 ∨ later = [] ∨
        ∃ tail, NoRecord 4 tail ∧
          (record 4 raw).take k ++ records 4 later = records 4 later ++ tail := by
  obtain ⟨hlater, hlast⟩ := hrun.spec
  rw [logEntries_eq_scan, hlast, hcut, List.append_assoc, scan_records_append (by decide) hold,
    List.append_cancel_left_eq, scan_eq_iff (by decide)]
  constructor
  · rintro ⟨-, htail⟩
    exact Or.inr (Or.inr htail)
  · rintro (rfl | rfl | htail)
    · exact ⟨hlater, [], Or.inl (by decide), by rw [List.take_zero, List.append_nil]; rfl⟩
    · exact ⟨hlater, _, noRecord_take hraw hk, List.append_nil _⟩
    · exact ⟨hlater, htail⟩

/-- The length of an entry is written and the entry is not. The next append returns, and its
entry is lost: the first four bytes of its record are read as the content of the torn one. -/
theorem append_after_cut_is_lost :
    let cut := (appendLogEntry [7]).exec ⟨∅, [.done, .done, .done, .torn 0]⟩
    let next := (appendLogEntry [9]).exec cut.2
    cut.1 = .error (.io .system) ∧ logBytes cut.2.dir = records 4 [] ++ (record 4 [7]).take 4 ∧
      next.1 = .ok () ∧ LogRun cut.2 [[9]] next.2 ∧ logEntries next.2.dir = [[0]] ∧
      logEntries next.2.dir ≠ [] ++ [[9]] := by
  have hread : logEntries (appended [9] (appended [7] ⟨∅, [.done, .done, .done, .torn 0]⟩)).dir =
      [[0]] := by
    decide +kernel
  refine ⟨rfl, by decide +kernel, rfl, LogRun.append rfl (LogRun.done _), hread, ?_⟩
  exact fun h => absurd (hread.symm.trans h) (by decide)

/-- Two bytes of the length of an entry are written behind another entry. They are zeros, like the
length of the empty entry that follows, which is read. -/
theorem append_after_torn :
    let cut : Disk := appended [7]
      (appended [5] ⟨∅, [.done, .done, .done, .done, .done, .done, .torn 2]⟩)
    logBytes cut.dir = records 4 [[5]] ++ [0, 0] ∧
      logEntries (appended [] cut).dir = [[5]] ++ [[]] := by
  intro cut
  have hcut : logBytes cut.dir = records 4 [[5]] ++ (record 4 [7]).take 2 := by decide +kernel
  have hmoved : (record 4 [7]).take 2 ++ records 4 [[]] = records 4 [[]] ++ [0, 0] := by
    decide +kernel
  exact ⟨hcut, (logRun_after_cut_iff [[5]] [[]] [7] 2 cut _ (by decide) (by decide) (by decide) hcut
    (LogRun.append rfl (LogRun.done _))).mpr (Or.inr (Or.inr ⟨[0, 0], Or.inl (by decide), hmoved⟩))⟩

end Keepstone.Store
