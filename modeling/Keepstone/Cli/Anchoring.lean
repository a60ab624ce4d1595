import Keepstone.Cli.AnchorFile
import Keepstone.Core.Transmission
import Keepstone.Store.Verify

/-!
# Anchoring (`crates/cli/src/main.rs:501-507, 603-649`)

`log anchor` submits the head of the local log to the chain of the receipts that are in the file,
and writes the file again with one receipt more. `log anchors` verifies what is in it.

Results:
* `exec_logAnchor`: what a run that returns has read and written;
* **`anchorRun_exact`**: over runs, the file has the receipts that were submitted, and they verify;
* **`logAnchor_extends_iff`**: when a run only appends to the file.
-/

namespace Keepstone.Cli

open Keepstone.Lib Keepstone.Crypto Keepstone.Core Keepstone.Store Keepstone.Log

variable (prim : Primitives)

/-- `load_log_entries`. -/
def loadLogEntries : Program CliError Disk (List (List UInt8)) := do
  createDirAll.mapErr fun e => .store (.io e)
  .reads fun disk => .ok (logEntries disk.dir)

/-- `log_identity` with the identity it generates if there is none. -/
def logIdentity (generated : Identity) : Program CliError Disk Identity := do
  createDirAll.mapErr fun e => .store (.io e)
  (Store.logIdentity generated).mapErr .store

/-- `u64::try_from` on a length. -/
def u64TryFrom (n : Nat) : Except CliError UInt64 :=
  if n < 2 ^ 64 then .ok (UInt64.ofNat n) else .error .conversion

/-- What `log_anchor` prints. -/
structure Anchored where
  drop : DropId
  receipt : AnchorReceipt
  /-- How many receipts there are now. -/
  anchors : Nat

/-- `log_anchor` at the time `now`. -/
def logAnchor (generated : Identity) (now : UInt64) (idText : String) :
    Program CliError Disk Anchored := do
  let id ← .ofExcept ((DropId.fromHex idText).mapError .core)
  let entries ← loadLogEntries
  let leaves := entries.map (leafHash prim.sha256)
  .ofExcept (check (entries.any fun entry => prim.sha256 entry = id.bytes)
    (.message "drop is not present in the local log"))
  let treeSize ← .ofExcept (u64TryFrom leaves.length)
  let root := mth prim.sha256 leaves
  let log ← logIdentity generated
  let sth := SignedTreeHead.sign prim log treeSize root now
  .ofExcept ((sth.verify prim).mapError fun e => .context "tree head invalid" (.log e))
  let receipts ← .reads fun disk => loadReceipts disk.dir
  let chain := HashChainAnchor.fromLinks (receipts.map (·.link))
  let receipt := (chain.submit prim.sha256 sth.treeSize sth.root sth.timestamp).1
  let receipts := receipts ++ [receipt]
  saveReceipts receipts
  pure ⟨id, receipt, receipts.length⟩

/-- `log_anchors`: how many receipts there are, and the last link. -/
def logAnchors (dir : Dir) : Except CliError (Nat × Option Hash) := do
  let receipts ← loadReceipts dir
  if receipts.isEmpty then pure (0, none)
  else
    check (verifyReceipts prim.sha256 receipts) (.message "anchor chain verification failed")
    pure (receipts.length, receipts.getLast?.map (·.link))

variable {prim}

/-- The receipt that a run at the time `now` adds to `receipts`. -/
def nextReceipt (prim : Primitives) (dir : Dir) (now : UInt64) (receipts : List AnchorReceipt) :
    AnchorReceipt :=
  ((HashChainAnchor.fromLinks (receipts.map (·.link))).submit prim.sha256
    (UInt64.ofNat (logEntries dir).length) (mth prim.sha256 (logLeaves prim dir)) now).1

theorem exec_loadLogEntries {disk disk' : Disk} {entries : List (List UInt8)}
    (h : loadLogEntries.exec disk = (.ok entries, disk')) :
    entries = logEntries disk.dir ∧ disk'.dir = disk.dir := by
  obtain ⟨_, middle, hmade, h⟩ := Program.exec_bind_eq_ok h
  have hdir : middle.dir = disk.dir := exec_call_eq_ok (Program.exec_mapErr_eq_ok hmade)
  obtain ⟨hread, rfl⟩ := Program.exec_reads_eq_ok h
  rw [← hdir]
  exact ⟨(Except.ok.inj hread).symm, rfl⟩

theorem keeps_logIdentity_anchors (content : Option (List UInt8)) (generated : Identity) :
    Keeps (fun disk : Disk => disk.dir.lookup .anchors = content) (logIdentity generated)
      fun _ => True := by
  have hkey : Allows (fun disk => disk.dir.lookup .anchors = content) .logKey :=
    (ignores_lookup (by nofun) _).always
  refine (hkey.createDirAll.mapErr _).bind fun _ _ => ?_
  exact (Store.keeps_logIdentity hkey generated).mapErr _

theorem exec_saveReceipts {receipts : List AnchorReceipt} {disk disk' : Disk} {u : Unit}
    (h : (saveReceipts receipts).exec disk = (.ok u, disk')) :
    disk'.dir.lookup .anchors = some (textBytes (receiptsText receipts)) := by
  obtain ⟨_, _, -, h⟩ := Program.exec_bind_eq_ok h
  exact lookup_of_write (Program.exec_mapErr_eq_ok h)

theorem loadReceipts_congr {dir dir' : Dir} (h : dir'.lookup .anchors = dir.lookup .anchors) :
    loadReceipts dir' = loadReceipts dir := by
  unfold loadReceipts readToString
  rw [h]

/-- **What a run that returns has read and written.** -/
theorem exec_logAnchor {generated : Identity} {now : UInt64} {idText : String} {disk disk' : Disk}
    {printed : Anchored}
    (h : (logAnchor prim generated now idText).exec disk = (.ok printed, disk')) :
    ∃ receipts, loadReceipts disk.dir = .ok receipts ∧
      printed.receipt = nextReceipt prim disk.dir now receipts ∧
      disk'.dir.lookup .anchors =
        some (textBytes (receiptsText (receipts ++ [printed.receipt]))) := by
  obtain ⟨id, _, hid, h⟩ := Program.exec_bind_eq_ok h
  obtain ⟨-, rfl⟩ := Program.exec_ofExcept_eq_ok hid
  obtain ⟨entries, middle, hentries, h⟩ := Program.exec_bind_eq_ok h
  obtain ⟨rfl, hdir⟩ := exec_loadLogEntries hentries
  obtain ⟨_, _, hpresent, h⟩ := Program.exec_bind_eq_ok h
  obtain ⟨-, rfl⟩ := Program.exec_ofExcept_eq_ok hpresent
  obtain ⟨treeSize, _, hsize, h⟩ := Program.exec_bind_eq_ok h
  obtain ⟨hlen, rfl⟩ := Program.exec_ofExcept_eq_ok hsize
  obtain ⟨log, signing, hlog, h⟩ := Program.exec_bind_eq_ok h
  obtain ⟨_, _, hverify, h⟩ := Program.exec_bind_eq_ok h
  obtain ⟨-, rfl⟩ := Program.exec_ofExcept_eq_ok hverify
  obtain ⟨receipts, _, hload, h⟩ := Program.exec_bind_eq_ok h
  obtain ⟨hloaded, rfl⟩ := Program.exec_reads_eq_ok hload
  obtain ⟨_, last, hsave, h⟩ := Program.exec_bind_eq_ok h
  obtain ⟨rfl, rfl⟩ := Program.exec_pure_eq_ok h
  have hsame := (keeps_logIdentity_anchors _ generated).after rfl hlog
  rw [hdir] at hsame
  have htree : treeSize = UInt64.ofNat (logEntries disk.dir).length := by
    rw [List.length_map] at hlen
    unfold u64TryFrom at hlen
    split at hlen
    · exact (Except.ok.inj hlen).symm
    · exact absurd hlen nofun
  subst htree
  exact ⟨receipts, (loadReceipts_congr hsame).symm.trans hloaded, rfl, exec_saveReceipts hsave⟩

/-! ## Runs -/

/-- Runs of `log_anchor` that return, with the receipts they submit, and anything else that leaves
the file as it is, one after the other. -/
inductive AnchorRun (prim : Primitives) : Disk → List AnchorReceipt → Disk → Prop
  | done (disk : Disk) : AnchorRun prim disk [] disk
  | anchor {generated : Identity} {now : UInt64} {idText : String} {disk middle last : Disk}
      {printed : Anchored} {receipts : List AnchorReceipt} :
      (logAnchor prim generated now idText).exec disk = (.ok printed, middle) →
      AnchorRun prim middle receipts last →
      AnchorRun prim disk (printed.receipt :: receipts) last
  | other {disk middle last : Disk} {receipts : List AnchorReceipt} :
      middle.dir.lookup .anchors = disk.dir.lookup .anchors →
      AnchorRun prim middle receipts last → AnchorRun prim disk receipts last

/-- The file has these receipts, and they are a chain of the local backend. -/
structure Holds (prim : Primitives) (dir : Dir) (receipts : List AnchorReceipt) : Prop where
  loads : loadReceipts dir = .ok receipts
  verifies : verifyReceipts prim.sha256 receipts = true
  ofBackend : Local receipts

theorem Holds.of_none {dir : Dir} (h : dir.lookup .anchors = none) : Holds prim dir [] where
  loads := by
    unfold loadReceipts readToString
    rw [h]
    rfl
  verifies := rfl
  ofBackend := fun _ hr => absurd hr List.not_mem_nil

theorem loadReceipts_of_lookup {dir : Dir} {receipts : List AnchorReceipt} (h : Local receipts)
    (hfile : dir.lookup .anchors = some (textBytes (receiptsText receipts))) :
    loadReceipts dir = .ok receipts := by
  unfold loadReceipts readToString
  rw [hfile, Option.bind_some, readText_textBytes]
  exact readReceipts_receiptsText h

/-- A file that is not UTF-8 has no receipts. -/
theorem loadReceipts_of_byte {dir : Dir} {content : List UInt8}
    (hfile : dir.lookup .anchors = some content) (hbyte : 0xFF ∈ content) :
    loadReceipts dir = .ok [] := by
  unfold loadReceipts readToString
  rw [hfile, Option.bind_some, readText_eq_none hbyte]

/-- A run adds its receipt. -/
theorem Holds.logAnchor {generated : Identity} {now : UInt64} {idText : String}
    {disk disk' : Disk} {printed : Anchored} {receipts : List AnchorReceipt}
    (h : Holds prim disk.dir receipts)
    (hrun : (logAnchor prim generated now idText).exec disk = (.ok printed, disk')) :
    Holds prim disk'.dir (receipts ++ [printed.receipt]) := by
  obtain ⟨loaded, hload, hreceipt, hfile⟩ := exec_logAnchor hrun
  obtain rfl := Except.ok.inj (h.loads.symm.trans hload)
  have hlocal : Local (receipts ++ [printed.receipt]) := by
    refine List.forall_mem_append.mpr ⟨h.ofBackend, List.forall_mem_singleton.mpr ?_⟩
    rw [hreceipt]
    rfl
  refine ⟨loadReceipts_of_lookup hlocal hfile, ?_, hlocal⟩
  rw [hreceipt]
  exact (submit_chained h.verifies _ _ now).1

theorem Holds.run {disk last : Disk} {old receipts : List AnchorReceipt}
    (h : Holds prim disk.dir old) (hrun : AnchorRun prim disk receipts last) :
    Holds prim last.dir (old ++ receipts) := by
  induction hrun generalizing old with
  | done disk =>
    rw [List.append_nil]
    exact h
  | anchor hanchor _ ih =>
    have hnext := ih (h.logAnchor hanchor)
    rwa [List.append_assoc, List.singleton_append] at hnext
  | other hsame _ ih => exact ih ⟨(loadReceipts_congr hsame).trans h.loads, h.verifies, h.ofBackend⟩

/-- `log_anchors` reports such a chain as ok. -/
theorem Holds.logAnchors {dir : Dir} {receipts : List AnchorReceipt} (h : Holds prim dir receipts) :
    logAnchors prim dir = .ok (receipts.length, receipts.getLast?.map (·.link)) := by
  refine bind_ok_iff.mpr ⟨receipts, h.loads, ?_⟩
  cases receipts with
  | nil => rfl
  | cons r rest => exact bind_ok_iff.mpr ⟨(), check_ok_iff.mpr h.verifies, rfl⟩

/-- **Anchoring over runs keeps an exact, verifiable chain.** From no file, the receipts that are
loaded are those that were submitted, in order; they verify; and the anchor rebuilt from them
accepts each of them, and nothing else but what collides with one of them. -/
theorem anchorRun_exact (prim : Primitives) {disk last : Disk} {receipts : List AnchorReceipt}
    (hstart : disk.dir.lookup .anchors = none) (hrun : AnchorRun prim disk receipts last) :
    loadReceipts last.dir = .ok receipts ∧ verifyReceipts prim.sha256 receipts = true ∧
    (∀ r ∈ receipts,
      (HashChainAnchor.fromLinks (receipts.map (·.link))).verify prim.sha256 r = true) ∧
    ∀ r, (HashChainAnchor.fromLinks (receipts.map (·.link))).verify prim.sha256 r = true →
      r ∈ receipts ∨ ∃ s ∈ receipts, LinkCollision prim.sha256 r s := by
  have hholds : Holds prim last.dir ([] ++ receipts) := (Holds.of_none hstart).run hrun
  rw [List.nil_append] at hholds
  exact ⟨hholds.loads, hholds.verifies,
    verify_fromLinks_of_chained hholds.verifies hholds.ofBackend⟩

/-! ## Appending -/

/-- The file is one that a run at the time `now` appends to: what `save_receipts` writes for some
receipts, with or without its last line ending, or followed by what is the beginning of the line of
the log's head at `now` and ends before the link. -/
def Appendable (prim : Primitives) (dir : Dir) (now : UInt64) (content : List UInt8) : Prop :=
  ∃ receipts, Local receipts ∧
    (content ++ textBytes ['\n'] = textBytes (receiptsText receipts) ∨
      ∃ torn, torn <+: spaced (receiptHead (UInt64.ofNat (logEntries dir).length)
          (mth prim.sha256 (logLeaves prim dir)) now
          ((receipts.getLast?.map (·.link)).getD genesis)) ∧
        content = textBytes (receiptsText receipts ++ torn))

/-- The last line ending of the file is one byte. -/
theorem exists_text_of_concat {content : List UInt8} {receipts : List AnchorReceipt}
    (h : content ++ textBytes ['\n'] = textBytes (receiptsText receipts)) :
    ∃ text, content = textBytes text ∧ text ++ ['\n'] = receiptsText receipts := by
  rcases List.eq_nil_or_concat' receipts with rfl | ⟨init, r, rfl⟩
  · have hend : textBytes ['\n'] ≠ [] := by decide
    exact absurd h (List.append_ne_nil_of_right_ne_nil _ hend)
  · have htext : receiptsText init ++ receiptLine r ++ ['\n'] = receiptsText (init ++ [r]) := by
      rw [receiptsText_append, receiptsText_singleton, List.append_assoc]
    rw [← htext, textBytes_append] at h
    exact ⟨_, List.append_cancel_right h, htext⟩

theorem nextReceipt_previous (dir : Dir) (now : UInt64) (receipts : List AnchorReceipt) :
    (nextReceipt prim dir now receipts).previous =
      (receipts.getLast?.map (·.link)).getD genesis := by
  change (receipts.map (·.link)).getLast?.getD genesis = _
  rw [List.getLast?_map]

/-- **When a run only appends to the file**, for every content of it. -/
theorem logAnchor_extends_iff (prim : Primitives) {generated : Identity} {now : UInt64}
    {idText : String} {disk disk' : Disk} {printed : Anchored} {content : List UInt8}
    (hcontent : disk.dir.lookup .anchors = some content)
    (hrun : (logAnchor prim generated now idText).exec disk = (.ok printed, disk')) :
    (∃ content', disk'.dir.lookup .anchors = some content' ∧ content <+: content') ↔
      Appendable prim disk.dir now content := by
  obtain ⟨receipts, hload, hreceipt, hfile⟩ := exec_logAnchor hrun
  have hname : printed.receipt.anchor = HashChainAnchor.name := by
    rw [hreceipt]
    rfl
  have hprevious := @nextReceipt_previous prim disk.dir now receipts
  -- A text that is read is decided on by its characters.
  have hread : ∀ text, content = textBytes text → readReceipts text = .ok receipts := by
    rintro text rfl
    unfold loadReceipts readToString at hload
    rwa [hcontent, Option.bind_some, readText_textBytes] at hload
  rw [hfile]
  simp only [Option.some.injEq, exists_eq_left']
  constructor
  · intro hpre
    obtain ⟨text, htext, rfl⟩ := exists_of_prefix_textBytes (ascii_receiptsText _) hpre
    have hreads := hread text rfl
    refine ⟨receipts, readReceipts_local hreads, ?_⟩
    rcases (prefix_receiptsText_iff hname hreads).mp htext with hwhole | ⟨torn, htorn, rfl⟩
    · left
      rw [← hwhole, textBytes_append]
    · right
      rw [hreceipt, hprevious] at htorn
      exact ⟨torn, htorn, rfl⟩
  · rintro ⟨old, hlocal, hcases⟩
    obtain ⟨text, rfl, rest, hrest⟩ : ∃ text, content = textBytes text ∧
        text <+: receiptsText (receipts ++ [printed.receipt]) := by
      rcases hcases with hwhole | ⟨torn, htorn, rfl⟩
      · obtain ⟨text, rfl, htext⟩ := exists_text_of_concat hwhole
        have hreads := hread text rfl
        obtain rfl := Except.ok.inj ((readReceipts_of_concat hlocal htext).symm.trans hreads)
        exact ⟨text, rfl, (prefix_receiptsText_iff hname hreads).mpr (Or.inl htext)⟩
      · have hreads := hread _ rfl
        obtain ⟨_, hnone, rfl⟩ := (readReceipts_append hlocal).mp hreads
        obtain rfl := Except.ok.inj ((readReceipts_torn htorn).symm.trans hnone)
        rw [List.append_nil] at hreads hreceipt hprevious ⊢
        refine ⟨_, rfl, (prefix_receiptsText_iff hname hreads).mpr (Or.inr ⟨torn, ?_, rfl⟩)⟩
        rw [hreceipt, hprevious]
        exact htorn
    rw [← hrest, textBytes_append]
    exact List.prefix_append _ _

/-! ## Concrete runs -/

theorem sth_verify_sign (laws : SignatureLaws prim) (signer : Identity) (treeSize : UInt64)
    (root : Hash) (timestamp : UInt64) :
    (SignedTreeHead.sign prim signer treeSize root timestamp).verify prim = .ok () := by
  rw [SignedTreeHead.verify, mapError_ok_iff, verify_ok]
  exact laws.ed25519_verify_sign _ _

/-- The key of the log is there or is generated, and nothing else is written. -/
theorem exec_logIdentity {dir : Dir} {generated : Identity}
    (hkey : dir.lookup .logKey = none ∨
      dir.lookup .logKey = some (textBytes (identityText generated))) :
    ∃ dir', (logIdentity generated).exec ⟨dir, []⟩ = (.ok generated, ⟨dir', []⟩) ∧
      dir'.lookup .logKey = some (textBytes (identityText generated)) ∧
      ∀ file, file ≠ .logKey → dir'.lookup file = dir.lookup file := by
  rcases hkey with hnone | hsaved
  · exact ⟨_, Program.exec_mapErr_ok (exec_logIdentity_of_none generated hnone),
      AList.lookup_insert _, fun file hne => AList.lookup_insert_ne hne⟩
  · exact ⟨dir, Program.exec_mapErr_ok (exec_logIdentity_of_saved generated hsaved), hsaved,
      fun _ _ => rfl⟩

/-- Nothing fails: the drop is in the log, the log has this key or none yet, and the file is read.
Then the log and its key are there for another run. -/
theorem logAnchor_returns (laws : SignatureLaws prim) {dir : Dir} {id : DropId}
    {receipts : List AnchorReceipt} {generated : Identity} (now : UInt64)
    (hpresent : ∃ entry ∈ logEntries dir, prim.sha256 entry = id.bytes)
    (hlen : (logEntries dir).length < 2 ^ 64)
    (hkey : dir.lookup .logKey = none ∨
      dir.lookup .logKey = some (textBytes (identityText generated)))
    (hload : loadReceipts dir = .ok receipts) :
    ∃ printed dir', (logAnchor prim generated now id.toHex).exec ⟨dir, []⟩ =
        (.ok printed, ⟨dir', []⟩) ∧
      dir'.lookup .logKey = some (textBytes (identityText generated)) ∧
      dir'.lookup .logEntries = dir.lookup .logEntries := by
  have hcheck : check ((logEntries dir).any fun entry => prim.sha256 entry = id.bytes)
      (CliError.message "drop is not present in the local log") = .ok () := by
    rw [check_ok_iff, List.any_eq_true]
    obtain ⟨entry, hentry, hhash⟩ := hpresent
    exact ⟨entry, hentry, decide_eq_true hhash⟩
  have hsize : u64TryFrom ((logEntries dir).map (leafHash prim.sha256)).length =
      .ok (UInt64.ofNat ((logEntries dir).map (leafHash prim.sha256)).length) := by
    rw [u64TryFrom, if_pos (by rwa [List.length_map])]
  obtain ⟨keyed, hlog, hsaved, hsame⟩ := exec_logIdentity hkey
  have hloaded : loadReceipts keyed = .ok receipts :=
    (loadReceipts_congr (hsame .anchors (by simp))).trans hload
  have hreads : (Program.reads fun disk : Disk => loadReceipts disk.dir).exec ⟨keyed, []⟩ =
      (.ok receipts, ⟨keyed, []⟩) := Program.exec_reads_ok hloaded
  have hentries : loadLogEntries.exec ⟨dir, []⟩ = (.ok (logEntries dir), ⟨dir, []⟩) := rfl
  have hsigned := fun root => sth_verify_sign laws generated
    (UInt64.ofNat ((logEntries dir).map (leafHash prim.sha256)).length) root now
  have hexec : (logAnchor prim generated now id.toHex).exec ⟨dir, []⟩ = _ :=
    (Program.exec_ofExcept_bind (mapError_ok_iff.mpr (DropId.fromHex_toHex id)) _ _).trans <|
      (Program.exec_bind_ok hentries _).trans <|
      (Program.exec_ofExcept_bind hcheck _ _).trans <|
      (Program.exec_ofExcept_bind hsize _ _).trans <|
      (Program.exec_bind_ok hlog _).trans <|
      (Program.exec_ofExcept_bind (mapError_ok_iff.mpr (hsigned _)) _ _).trans <|
      Program.exec_bind_ok hreads _
  refine ⟨_, keyed.insert .anchors _, hexec, ?_, ?_⟩
  · rw [AList.lookup_insert_ne (by simp), hsaved]
  · rw [AList.lookup_insert_ne (by simp), hsame .logEntries (by simp)]

section KnownDrop

open KnownAnswers

/-- A directory whose log has the known envelope. -/
theorem known_logAnchor_returns {dir : Dir} {receipts : List AnchorReceipt} (now : UInt64)
    (hlog : dir.lookup .logEntries = (loggedDir drop.raw).lookup .logEntries)
    (hkey : dir.lookup .logKey = none ∨
      dir.lookup .logKey = some (textBytes (identityText recipient)))
    (hload : loadReceipts dir = .ok receipts) :
    ∃ printed dir', (logAnchor primitives recipient now (drop.id primitives).toHex).exec
        ⟨dir, []⟩ = (.ok printed, ⟨dir', []⟩) ∧
      dir'.lookup .logKey = some (textBytes (identityText recipient)) ∧
      dir'.lookup .logEntries = (loggedDir drop.raw).lookup .logEntries := by
  have hentries : logEntries dir = [drop.raw] := by
    rw [← logEntries_loggedDir drop.raw]
    unfold logEntries
    rw [hlog]
  rw [← hlog]
  refine logAnchor_returns laws now ?_ ?_ hkey hload
  · rw [hentries]
    exact ⟨drop.raw, List.mem_cons_self, rfl⟩
  · rw [hentries]
    decide

theorem lookup_loggedDir_none {raw : List UInt8} {file : File}
    (hdrop : file ≠ .drop (drop.id primitives)) (hentries : file ≠ .logEntries) :
    (loggedDir raw).lookup file = none := by
  unfold loggedDir
  rw [AList.lookup_insert_ne hdrop, AList.lookup_insert_ne hentries]
  rfl

/-- The first two anchors of a log: the second run reads what the first has saved. -/
theorem known_log_anchored :
    ∃ (first second : Anchored) (last : Disk),
      AnchorRun primitives ⟨loggedDir drop.raw, []⟩ [first.receipt, second.receipt] last ∧
      loadReceipts last.dir = .ok [first.receipt, second.receipt] ∧
      verifyReceipts primitives.sha256 [first.receipt, second.receipt] = true ∧
      second.receipt.previous = first.receipt.link := by
  have hstart : (loggedDir drop.raw).lookup .anchors = none :=
    lookup_loggedDir_none (by nofun) (by nofun)
  obtain ⟨first, dir, hfirst, hkey, hlog⟩ := known_logAnchor_returns 1 rfl
    (.inl (lookup_loggedDir_none (by nofun) (by nofun))) (@Holds.of_none primitives _ hstart).loads
  have hholds : Holds primitives dir [first.receipt] :=
    (@Holds.of_none primitives _ hstart).logAnchor hfirst
  obtain ⟨second, dir', hsecond, -, -⟩ := known_logAnchor_returns 2 hlog (.inr hkey) hholds.loads
  have hrun : AnchorRun primitives ⟨loggedDir drop.raw, []⟩ [first.receipt, second.receipt]
      ⟨dir', []⟩ := .anchor hfirst (.anchor hsecond (.done _))
  obtain ⟨hload, hverify, -⟩ := anchorRun_exact primitives hstart hrun
  obtain ⟨receipts, hloaded, hnext, -⟩ := exec_logAnchor hsecond
  obtain rfl := Except.ok.inj (hholds.loads.symm.trans hloaded)
  exact ⟨first, second, _, hrun, hload, hverify, by rw [hnext]; rfl⟩

/-- A directory with a log and a file of anchors. -/
def anchoredDir (content : List UInt8) : Dir := (loggedDir drop.raw).insert .anchors content

theorem known_anchored_again {content : List UInt8} {receipts : List AnchorReceipt}
    (hload : loadReceipts (anchoredDir content) = .ok receipts) :
    ∃ printed disk', (logAnchor primitives recipient 1 (drop.id primitives).toHex).exec
      ⟨anchoredDir content, []⟩ = (.ok printed, disk') := by
  have hkey : (anchoredDir content).lookup .logKey = none := by
    rw [anchoredDir, AList.lookup_insert_ne (by nofun)]
    exact lookup_loggedDir_none (by nofun) (by nofun)
  obtain ⟨printed, dir', hexec, -⟩ :=
    known_logAnchor_returns 1 (AList.lookup_insert_ne (by nofun)) (.inl hkey) hload
  exact ⟨printed, _, hexec⟩

theorem local_twoReceipts (sha256 : List UInt8 → Hash) : Local (twoReceipts sha256) :=
  List.forall_mem_cons.mpr ⟨rfl, List.forall_mem_singleton.mpr rfl⟩

/-- A file of two receipts is appended to. -/
theorem known_file_extended :
    let content := textBytes (receiptsText (twoReceipts Sha256.digest))
    ∃ printed disk', (logAnchor primitives recipient 1 (drop.id primitives).toHex).exec
        ⟨anchoredDir content, []⟩ = (.ok printed, disk') ∧
      ∃ content', disk'.dir.lookup .anchors = some content' ∧ content <+: content' := by
  intro content
  have hlocal := local_twoReceipts Sha256.digest
  have hfile : (anchoredDir content).lookup .anchors = some content := AList.lookup_insert _
  obtain ⟨printed, disk', hexec⟩ := known_anchored_again (loadReceipts_of_lookup hlocal hfile)
  refine ⟨printed, disk', hexec, (logAnchor_extends_iff primitives hfile hexec).mpr ?_⟩
  refine ⟨twoReceipts Sha256.digest, hlocal, Or.inr ⟨[], List.nil_prefix, ?_⟩⟩
  rw [List.append_nil]

/-- A byte that is not UTF-8 after a file of two receipts: the next run replaces them by its own
receipt, and the chain of one verifies. -/
theorem known_history_replaced :
    let recorded := twoReceipts primitives.sha256
    let content := textBytes (receiptsText recorded) ++ [0xFF]
    verifyReceipts primitives.sha256 recorded = true ∧
    ∃ printed disk' content', (logAnchor primitives recipient 1 (drop.id primitives).toHex).exec
        ⟨anchoredDir content, []⟩ = (.ok printed, disk') ∧
      disk'.dir.lookup .anchors = some content' ∧ ¬ content <+: content' ∧
      loadReceipts disk'.dir = .ok [printed.receipt] ∧
      logAnchors primitives disk'.dir = .ok (1, some printed.receipt.link) := by
  intro recorded content
  have hfile : (anchoredDir content).lookup .anchors = some content := AList.lookup_insert _
  have hbyte : (0xFF : UInt8) ∈ content := List.mem_append_right _ List.mem_cons_self
  have hnone := loadReceipts_of_byte hfile hbyte
  have hempty : Holds primitives (anchoredDir content) [] :=
    ⟨hnone, rfl, fun _ hr => absurd hr List.not_mem_nil⟩
  obtain ⟨printed, disk', hexec⟩ := known_anchored_again hnone
  obtain ⟨receipts, hload, -, hfile'⟩ := exec_logAnchor hexec
  have hholds : Holds primitives disk'.dir [printed.receipt] := hempty.logAnchor hexec
  refine ⟨verifyReceipts_twoReceipts, printed, disk', _, hexec, hfile', ?_, hholds.loads,
    hholds.logAnchors⟩
  intro hpre
  have hread := readText_eq_none (hpre.subset hbyte)
  rw [readText_textBytes] at hread
  exact absurd hread nofun

end KnownDrop

end Keepstone.Cli
