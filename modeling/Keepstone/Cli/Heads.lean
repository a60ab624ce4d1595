import Keepstone.Cli.Anchoring
import Keepstone.Cli.Runs
import Keepstone.Core.Inputs
import Keepstone.Daemon.Routing
import Keepstone.Node.Service

/-!
# Tree heads over the network (`crates/cli/src/main.rs:1109-1144`, `crates/node/src/net.rs:258-314`)

`sth serve` signs the head of the local log and serves it as it is; `sth fetch` fetches a head from
a peer and verifies it. In between the daemon serves requests and the command line creates and
fetches drops, on the same data directory. Any write may fail or be torn: a torn entry is not read,
and neither are those after it, but nothing that was read before is read differently.

Results:
* `exec_logIdentity_eq_ok`, `exec_logIdentity_of_loads`: the key of a log is created once;
* `keeps_route_logFrom`, `command_logFrom`: no request of the daemon and no command takes from the
  log, or changes its key;
* **`published_pairwise`**: each head that is published in a run is of the log as it was then; all
  have one key, and the log of each begins with that of those before it;
* **`monitors_agree`**: monitors that fetch heads of this key, from whatever peers, never see an
  equivocation.
-/

namespace Keepstone.Cli

open Keepstone.Lib Keepstone.Crypto Keepstone.Core Keepstone.Store Keepstone.Node Keepstone.Log
open Keepstone.Daemon (Outside Request Libraries route)

/-! ## The key of the log -/

/-- What `log_identity` loads from a directory. -/
def LoadsLogKey (dir : Dir) (log : Identity) : Prop :=
  ∃ text, readToString dir .logKey = some text ∧
    Store.hex32 ((lines text).getD 0 []) = .ok log.signing ∧
    Store.hex32 ((lines text).getD 1 []) = .ok log.ecdh

/-- A key that is there is loaded. -/
theorem exec_logIdentity_of_loads {disk : Disk} {log : Identity} (h : LoadsLogKey disk.dir log)
    (generated : Identity) : (Store.logIdentity generated).exec disk = (.ok log, disk) := by
  obtain ⟨text, htext, hsigning, hecdh⟩ := h
  unfold Store.logIdentity
  have hread : (Program.reads fun disk : Disk => (.ok (readToString disk.dir .logKey) :
      Except StoreError _)).exec disk = (.ok (some text), disk) :=
    Program.exec_reads_ok (congrArg Except.ok htext)
  rw [Program.exec_bind_ok hread]
  simp only
  rw [Program.exec_ofExcept_bind hsigning, Program.exec_ofExcept_bind hecdh]
  rfl

/-- A key that is returned is there. -/
theorem exec_logIdentity_eq_ok {disk disk' : Disk} {generated log : Identity}
    (h : (Store.logIdentity generated).exec disk = (.ok log, disk')) :
    LoadsLogKey disk'.dir log := by
  obtain ⟨text, _, hread, h⟩ := Program.exec_bind_eq_ok h
  obtain ⟨htext, rfl⟩ := Program.exec_reads_eq_ok hread
  obtain rfl := Except.ok.inj htext
  split at h
  case h_1 text htext =>
    obtain ⟨signing, _, hsigning, h⟩ := Program.exec_bind_eq_ok h
    obtain ⟨ecdh, _, hecdh, h⟩ := Program.exec_bind_eq_ok h
    obtain ⟨hfirst, rfl⟩ := Program.exec_ofExcept_eq_ok hsigning
    obtain ⟨hsecond, rfl⟩ := Program.exec_ofExcept_eq_ok hecdh
    obtain ⟨rfl, rfl⟩ := Program.exec_pure_eq_ok h
    exact ⟨text, htext, hfirst, hsecond⟩
  case h_2 =>
    obtain ⟨_, _, -, h⟩ := Program.exec_bind_eq_ok h
    obtain ⟨_, _, hwrite, h⟩ := Program.exec_bind_eq_ok h
    obtain ⟨rfl, rfl⟩ := Program.exec_pure_eq_ok h
    have hlookup := lookup_of_write (Program.exec_mapErr_eq_ok hwrite)
    have hlines : lines (identityText generated) =
        [hexEncode generated.signing.toList, hexEncode generated.ecdh.toList] := by
      rw [identityText, lines_hexEncode, lines_hexEncode]
      rfl
    refine ⟨identityText generated, ?_, ?_, ?_⟩
    · unfold readToString
      rw [hlookup, Option.bind_some, readText_textBytes]
    · rw [hlines, List.getD_cons_zero, Store.hex32_hexEncode]
    · rw [hlines, List.getD_cons_succ, List.getD_cons_zero, Store.hex32_hexEncode]

/-! ## What stays of a log -/

/-- The log's file begins with these bytes, and its key is the one that is known, if one is. -/
def LogFrom (bytes : List UInt8) (key : Option Identity) (dir : Dir) : Prop :=
  bytes <+: logBytes dir ∧ ∀ log ∈ key, LoadsLogKey dir log

variable {bytes : List UInt8} {key : Option Identity}

theorem ignores_logFrom {file : File} (hentries : File.logEntries ≠ file)
    (hkey : File.logKey ≠ file) : Ignores (LogFrom bytes key) file := by
  rintro dir content ⟨hbytes, hloads⟩
  constructor
  · unfold logBytes
    rw [AList.lookup_insert_ne hentries]
    exact hbytes
  · intro log hlog
    obtain ⟨text, htext, hparsed⟩ := hloads log hlog
    refine ⟨text, ?_, hparsed⟩
    rw [← htext, readToString, readToString, AList.lookup_insert_ne hkey]

theorem LogFrom.extend {dir : Dir} (h : LogFrom bytes key dir) (more : List UInt8) :
    LogFrom bytes key (extend dir .logEntries more) := by
  constructor
  · rw [logBytes_extend]
    exact h.1.trans (List.prefix_append _ _)
  · intro log hlog
    obtain ⟨text, htext, hparsed⟩ := h.2 log hlog
    refine ⟨text, ?_, hparsed⟩
    rw [← htext, readToString, readToString, Store.extend, AList.lookup_insert_ne (by simp)]

/-- An entry is appended, or a part of it is. -/
theorem keeps_appendLogEntry_logFrom (raw : List UInt8) :
    Keeps (fun disk : Disk => LogFrom bytes key disk.dir) (Store.appendLogEntry raw)
      fun _ => True := by
  have hwrite : ∀ content, Keeps (fun disk : Disk => LogFrom bytes key disk.dir)
      (writeAll .logEntries content) fun _ => True := fun content =>
    keeps_call_torn (fun _ h => h.extend content) fun k _ h => h.extend (content.take k)
  refine ((keeps_call_torn (fun _ h => h) fun _ _ h => h).mapErr _).bind fun _ _ => ?_
  refine ((keeps_call_torn (fun _ h => h.extend []) fun _ _ h => h).mapErr _).bind fun _ _ => ?_
  refine (Keeps.ofExcept _).bind fun _ _ => ?_
  refine ((hwrite _).mapErr _).bind fun _ _ => ?_
  exact (hwrite _).mapErr _

/-- A key that is known is not written again. -/
theorem keeps_logIdentity_logFrom (generated : Identity) :
    Keeps (fun disk : Disk => LogFrom bytes key disk.dir) (Store.logIdentity generated)
      fun _ => True := by
  cases key with
  | none =>
    have hother : Ignores (LogFrom bytes none) .logKey := by
      rintro dir content ⟨hbytes, -⟩
      refine ⟨?_, nofun⟩
      unfold logBytes
      rw [AList.lookup_insert_ne (by simp)]
      exact hbytes
    exact Store.keeps_logIdentity hother.always generated
  | some log =>
    intro disk h
    rw [exec_logIdentity_of_loads (h.2 log rfl) generated]
    exact ⟨h, fun _ _ => trivial⟩

theorem keeps_verify_logFrom (prim : Primitives) (generated : Identity) (now : UInt64)
    (id : DropId) :
    Keeps (fun disk : Disk => LogFrom bytes key disk.dir) (verify prim generated now id)
      fun _ => True := by
  refine (Keeps.reads fun _ _ _ _ => trivial).bind fun (signed, _) _ => ?_
  refine (Keeps.reads fun _ _ _ _ => trivial).bind fun entries _ => ?_
  refine (Keeps.ofExcept _).bind fun index _ => ?_
  refine (Keeps.ofExcept _).bind fun proof _ => ?_
  exact (keeps_logIdentity_logFrom generated).bind fun log _ => Keeps.pure trivial

theorem keeps_createDrop_logFrom (prim : Primitives)
    (cellAt : Float → Float → UInt8 → Except CoreError String) (now : UInt64) (args : CreateArgs)
    (draws : Draws) :
    Keeps (fun disk : Disk => LogFrom bytes key disk.dir)
      (createDrop prim cellAt now args draws) fun _ => True := by
  have hother : ∀ file, File.logEntries ≠ file → File.logKey ≠ file →
      Allows (fun disk : Disk => LogFrom bytes key disk.dir) file := fun file hentries hkey =>
    (ignores_logFrom hentries hkey).always
  rw [createDrop_eq]
  refine (keeps_untilEnvelope prim (keeps_mldsaOrCreate prim (hother _ (by simp) (by simp)) _)
    (fun _ _ => hother _ (by simp) (by simp)) cellAt now args).bind fun (signed, _) _ => ?_
  have hstore : Keeps (fun disk : Disk => LogFrom bytes key disk.dir) (storeEnvelope prim signed)
      fun _ => True :=
    (((hother _ (by simp) (by simp)).write _).mapErr _).bind fun _ _ =>
      keeps_appendLogEntry_logFrom _
  exact (hstore.mapErr _).bind fun _ _ => Keeps.pure trivial

theorem keeps_receiveDrop_logFrom (prim : Primitives) (id : DropId) (raw : List UInt8)
    (chunkAt : Nat → Except CliError (List UInt8)) :
    Keeps (fun disk : Disk => LogFrom bytes key disk.dir) (receiveDrop prim id raw chunkAt)
      fun _ => True := by
  have hother : ∀ file, File.logEntries ≠ file → File.logKey ≠ file →
      Allows (fun disk : Disk => LogFrom bytes key disk.dir) file := fun file hentries hkey =>
    (ignores_logFrom hentries hkey).always
  have hdrop := hother (.drop id) (by simp) (by simp)
  have happend : Keeps (fun disk : Disk => LogFrom bytes key disk.dir) (appendLogEntry raw)
      fun _ => True :=
    (hdrop.createDirAll.mapErr _).bind fun _ _ => keeps_appendLogEntry_logFrom raw
  refine (Keeps.ofExcept _).bind fun body _ => ?_
  refine hdrop.createDirAll.ok.bind fun _ _ => ?_
  refine ((hdrop.write raw).mapErr _).bind fun _ _ => ?_
  rw [receiveChunks_eq]
  refine hdrop.createDirAll.ok.bind fun _ _ => ?_
  refine (keeps_chunkLoop (fun index => hother (.chunk id index) (by simp) (by simp))
    chunkAt body.chunkCount.toNat).bind fun _ _ => ?_
  exact happend.ok.bind fun _ _ => Keeps.pure trivial

/-- **No command takes from the log, or changes its key.** -/
theorem command_logFrom (prim : Primitives)
    (cellAt : Float → Float → UInt8 → Except CoreError String) (command : Command) {disk : Disk}
    (h : LogFrom bytes key disk.dir) : LogFrom bytes key (command.exec prim cellAt disk).dir := by
  have hother : ∀ file, File.logEntries ≠ file → File.logKey ≠ file →
      Allows (fun disk : Disk => LogFrom bytes key disk.dir) file := fun file hentries hkey =>
    (ignores_logFrom hentries hkey).always
  have hfetch : command.Fetches → LogFrom bytes key (command.exec prim cellAt disk).dir := by
    intro hfetches
    rw [exec_of_fetches hfetches]
    cases command.offer with
    | none => exact h
    | some offer => exact (keeps_receiveDrop_logFrom prim offer.id offer.raw offer.chunkAt disk h).1
  cases command with
  | keygen generated hybrid mlDsa =>
    exact (keeps_keygen (hother _ (by simp) (by simp)) (hother _ (by simp) (by simp))
      (hother _ (by simp) (by simp)) generated hybrid mlDsa disk h).1
  | addContact name signing ecdh hybrid =>
    exact (keeps_addContact (hother _ (by simp) (by simp)) name signing ecdh hybrid disk h).1
  | createDrop now args draws =>
    exact (keeps_createDrop_logFrom prim cellAt now args draws disk h).1
  | fetch => exact hfetch trivial
  | p2pFetch => exact hfetch trivial

variable (lib : Libraries) (outside : Outside) {request : Request}

theorem keeps_reaches_logFrom {response : Program Daemon.Diverges Disk Daemon.Response}
    (h : Daemon.Reaches lib outside request response) :
    Keeps (fun disk : Disk => LogFrom bytes key disk.dir) response fun _ => True := by
  have hother : ∀ file, File.logEntries ≠ file → File.logKey ≠ file →
      Allows (fun disk : Disk => LogFrom bytes key disk.dir) file := fun file hentries hkey =>
    (ignores_logFrom hentries hkey).always
  cases h with
  | id => exact Daemon.keeps_apiStatus (Daemon.keeps_apiId (hother _ (by simp) (by simp))) _
  | contacts => exact Daemon.keeps_apiStatus Daemon.keeps_apiContacts _
  | addContact =>
    exact Daemon.keeps_apiStatus (Daemon.keeps_apiAddContact (hother _ (by simp) (by simp)) _) _
  | listDrops => exact Daemon.keeps_apiStatus (Daemon.keeps_apiListDrops _) _
  | openDrop id => exact Daemon.keeps_apiStatus (Daemon.keeps_apiOpenDrop id) _
  | dropMeta id => exact Daemon.keeps_apiStatus (Daemon.keeps_apiDropMeta id) _
  | createDrop =>
    refine Daemon.keeps_apiStatus ?_ _
    refine (Keeps.ofExcept _).bind fun value _ => (Keeps.ofExcept _).bind fun message _ => ?_
    exact ((keeps_createDrop_logFrom _ _ _ _ _).mapErr _).bind fun _ _ => Keeps.pure trivial
  | verify idText =>
    refine Daemon.keeps_apiStatus ?_ _
    refine (Keeps.ofExcept _).bind fun id _ => ?_
    exact ((keeps_verify_logFrom _ _ _ id).mapErr _).bind fun _ _ => Keeps.pure trivial

/-- **No request of the daemon takes from the log, or changes its key.** -/
theorem keeps_route_logFrom (request : Request) (token : Option String) :
    Keeps (fun disk : Disk => LogFrom bytes key disk.dir) (route lib outside request token)
      fun _ => True := by
  obtain hreach | ⟨response, hpublic⟩ := Daemon.route_cases lib outside request token
  · exact keeps_reaches_logFrom lib outside hreach
  · rw [hpublic]
    exact Keeps.pure trivial

/-! ## Publishing -/

variable (prim : Primitives)

/-- `local_sth` at the time `now`, with the identity `log_identity` generates if there is none. -/
def localSth (generated : Identity) (now : UInt64) : Program CliError Disk SignedTreeHead := do
  let entries ← loadLogEntries
  let leaves := entries.map (leafHash prim.sha256)
  let root := mth prim.sha256 leaves
  let log ← logIdentity generated
  let treeSize ← .ofExcept (u64TryFrom leaves.length)
  pure (SignedTreeHead.sign prim log treeSize root now)

/-- What is done to a data directory: a request to the daemon, a command, an entry that is appended
for any other reason, or a head that is signed to serve it. A command that is none of these (`id`,
`log-verify`, `log-anchor`, `hunt`) does no more to the log: it generates its key if there is none,
or creates drops. -/
inductive Act where
  | request (outside : Outside) (request : Request)
  | command (cellAt : Float → Float → UInt8 → Except CoreError String) (command : Command)
  | append (raw : List UInt8)
  | publish (generated : Identity) (now : UInt64)

/-- One act: the disk afterwards, and the head that is published. -/
def Act.step (token : Option String) (disk : Disk) : Act → Disk × Option SignedTreeHead
  | .request outside request => (((route lib outside request token).exec disk).2, none)
  | .command cellAt c => (c.exec lib.prim cellAt disk, none)
  | .append raw => (((appendLogEntry raw).exec disk).2, none)
  | .publish generated now =>
    (((localSth lib.prim generated now).exec disk).2,
      ((localSth lib.prim generated now).exec disk).1.toOption)

/-- Acts one after the other: the disk afterwards, and the heads that are published. -/
def published (token : Option String) : Disk → List Act → Disk × List SignedTreeHead
  | disk, [] => (disk, [])
  | disk, act :: acts =>
    let (disk, head) := act.step lib token disk
    let (last, heads) := published token disk acts
    (last, head.toList ++ heads)

/-- The heads that are published, each with the entries of the log at that time. -/
def publishedOf (token : Option String) : Disk → List Act →
    List (List (List UInt8) × SignedTreeHead)
  | _, [] => []
  | disk, act :: acts =>
    let (next, head) := act.step lib token disk
    head.toList.map (fun head => (logEntries disk.dir, head)) ++ publishedOf token next acts

variable {prim lib} {token : Option String}

/-- A head of these entries, signed with this key. -/
def HeadOf (prim : Primitives) (log : Identity) (entries : List (List UInt8))
    (head : SignedTreeHead) : Prop :=
  entries.length < 2 ^ 64 ∧ ∃ now, head = .sign prim log (UInt64.ofNat entries.length)
    (mth prim.sha256 (entries.map (leafHash prim.sha256))) now

/-- **What a head that is signed is of**: the entries there are, under the key of the log. -/
theorem exec_localSth {generated : Identity} {now : UInt64} {disk disk' : Disk}
    {head : SignedTreeHead}
    (h : (localSth prim generated now).exec disk = (.ok head, disk')) :
    ∃ log, LoadsLogKey disk'.dir log ∧ HeadOf prim log (logEntries disk.dir) head := by
  obtain ⟨entries, middle, hentries, h⟩ := Program.exec_bind_eq_ok h
  obtain ⟨rfl, -⟩ := exec_loadLogEntries hentries
  obtain ⟨log, _, hlog, h⟩ := Program.exec_bind_eq_ok h
  obtain ⟨_, _, -, hlog⟩ := Program.exec_bind_eq_ok hlog
  obtain ⟨treeSize, _, hsize, h⟩ := Program.exec_bind_eq_ok h
  obtain ⟨htry, rfl⟩ := Program.exec_ofExcept_eq_ok hsize
  obtain ⟨rfl, rfl⟩ := Program.exec_pure_eq_ok h
  refine ⟨log, exec_logIdentity_eq_ok (Program.exec_mapErr_eq_ok hlog), ?_⟩
  unfold u64TryFrom at htry
  split_ifs at htry with hlen
  rw [List.length_map] at htry hlen
  exact ⟨hlen, now, by rw [← Except.ok.inj htry]⟩

theorem keeps_localSth_logFrom (generated : Identity) (now : UInt64) :
    Keeps (fun disk : Disk => LogFrom bytes key disk.dir) (localSth prim generated now)
      fun _ => True := by
  have hopen : Keeps (fun disk : Disk => LogFrom bytes key disk.dir) createDirAll fun _ => True :=
    keeps_call_torn (fun _ h => h) fun _ _ h => h
  refine ((hopen.mapErr _).bind fun _ _ => Keeps.reads fun _ _ _ _ => trivial).bind
    (Q := fun _ => True) fun entries _ => ?_
  refine ((hopen.mapErr _).bind fun _ _ =>
    (keeps_logIdentity_logFrom generated).mapErr _).bind fun log _ => ?_
  exact (Keeps.ofExcept _).bind fun treeSize _ => Keeps.pure trivial

/-- No act takes from the log, or changes its key. -/
theorem Act.step_logFrom {disk : Disk} (h : LogFrom bytes key disk.dir) (act : Act) :
    LogFrom bytes key (act.step lib token disk).1.dir := by
  cases act with
  | request outside request => exact (keeps_route_logFrom lib outside request token disk h).1
  | command cellAt command => exact command_logFrom lib.prim cellAt command h
  | append raw =>
    have hopen : Keeps (fun disk : Disk => LogFrom bytes key disk.dir) createDirAll
        fun _ => True := keeps_call_torn (fun _ h => h) fun _ _ h => h
    exact (((hopen.mapErr _).bind fun _ _ => keeps_appendLogEntry_logFrom raw) disk h).1
  | publish generated now => exact (keeps_localSth_logFrom generated now disk h).1

/-- A head that an act publishes is of the entries there are; from then on its key is known. -/
theorem Act.step_head {disk : Disk} {act : Act} {head : SignedTreeHead}
    (h : (act.step lib token disk).2 = some head) :
    ∃ log, LogFrom (logBytes disk.dir) (some log) (act.step lib token disk).1.dir ∧
      HeadOf lib.prim log (logEntries disk.dir) head := by
  have hnow : LogFrom (logBytes disk.dir) none disk.dir := ⟨List.prefix_rfl, nofun⟩
  have hkept : LogFrom (logBytes disk.dir) none (act.step lib token disk).1.dir :=
    act.step_logFrom hnow
  cases act with
  | request outside request => exact absurd h nofun
  | command cellAt command => exact absurd h nofun
  | append raw => exact absurd h nofun
  | publish generated now =>
    cases hexec : (localSth lib.prim generated now).exec disk with
    | mk result disk' =>
      simp only [step, hexec] at h hkept ⊢
      cases result with
      | error e => exact absurd h nofun
      | ok head' =>
        obtain rfl := Option.some.inj h
        obtain ⟨log, hloads, hhead⟩ := exec_localSth hexec
        refine ⟨log, ⟨hkept.1, fun other hother => ?_⟩, hhead⟩
        rwa [← Option.some.inj hother]

theorem LoadsLogKey.unique {dir : Dir} {log log' : Identity} (h : LoadsLogKey dir log)
    (h' : LoadsLogKey dir log') : log = log' := by
  obtain ⟨text, htext, hsigning, hecdh⟩ := h
  obtain ⟨text', htext', hsigning', hecdh'⟩ := h'
  obtain rfl := Option.some.inj (htext.symm.trans htext')
  cases log
  cases log'
  rw [Identity.mk.injEq]
  exact ⟨Except.ok.inj (hsigning.symm.trans hsigning'), Except.ok.inj (hecdh.symm.trans hecdh')⟩

theorem map_snd_publishedOf (lib : Libraries) (token : Option String) (disk : Disk)
    (acts : List Act) :
    (publishedOf lib token disk acts).map Prod.snd = (published lib token disk acts).2 := by
  induction acts generalizing disk with
  | nil => rfl
  | cons act acts ih =>
    have hhead : ∀ head : Option SignedTreeHead,
        (head.toList.map fun head => (logEntries disk.dir, head)).map Prod.snd = head.toList := by
      intro head
      cases head <;> rfl
    rw [publishedOf, List.map_append, hhead, ih, published]

theorem mem_publishedOf_cons {disk : Disk} {act : Act} {acts : List Act}
    {p : List (List UInt8) × SignedTreeHead} :
    p ∈ publishedOf lib token disk (act :: acts) ↔
      (p.1 = logEntries disk.dir ∧ (act.step lib token disk).2 = some p.2) ∨
        p ∈ publishedOf lib token (act.step lib token disk).1 acts := by
  obtain ⟨entries, head⟩ := p
  simp only [publishedOf, List.mem_append, List.mem_map, Option.mem_toList, Prod.mk.injEq]
  refine or_congr_left ⟨?_, ?_⟩
  · rintro ⟨head, hhead, rfl, rfl⟩
    exact ⟨rfl, hhead⟩
  · rintro ⟨rfl, hhead⟩
    exact ⟨head, hhead, rfl, rfl⟩

/-- **Every head is of a log that only grew**, under the key that is known. -/
theorem publishedOf_headOf {disk : Disk} {log : Identity} {acts : List Act}
    (h : LogFrom bytes (some log) disk.dir) :
    ∀ p ∈ publishedOf lib token disk acts,
      scan 4 bytes <+: p.1 ∧ HeadOf lib.prim log p.1 p.2 := by
  induction acts generalizing disk with
  | nil => exact fun p hp => absurd hp List.not_mem_nil
  | cons act acts ih =>
    intro p hmem
    have hstep : LogFrom bytes (some log) (act.step lib token disk).1.dir := act.step_logFrom h
    rcases mem_publishedOf_cons.mp hmem with ⟨hentries, hnow⟩ | hlater
    · obtain ⟨log', hlog', hhead⟩ := Act.step_head hnow
      obtain rfl := (hstep.2 log rfl).unique (hlog'.2 log' rfl)
      rw [hentries]
      refine ⟨?_, hhead⟩
      obtain ⟨suffix, hsuffix⟩ := h.1
      obtain ⟨more, hmore⟩ := @scan_isPrefix 4 (by decide) bytes suffix
      rw [logEntries_eq_scan, ← hsuffix, ← hmore]
      exact List.prefix_append _ _
    · exact ih hstep p hlater

/-- Every head is of the log as it was then. -/
theorem exists_headOf {disk : Disk} {acts : List Act} :
    ∀ p ∈ publishedOf lib token disk acts, ∃ log, HeadOf lib.prim log p.1 p.2 := by
  induction acts generalizing disk with
  | nil => exact fun p hp => absurd hp List.not_mem_nil
  | cons act acts ih =>
    intro p hmem
    rcases mem_publishedOf_cons.mp hmem with ⟨hentries, hnow⟩ | hlater
    · obtain ⟨log, -, hhead⟩ := Act.step_head hnow
      exact ⟨log, hentries ▸ hhead⟩
    · exact ih p hlater

/-- A head is consistent with a later one of the same log. -/
structure Linked (prim : Primitives) (a b : SignedTreeHead) : Prop where
  /-- They have one key. -/
  key : a.logPublic = b.logPublic
  /-- The later tree is no smaller. -/
  size : a.treeSize ≤ b.treeSize
  /-- They are not taken for an equivocation. -/
  single : detectEquivocation a b = false
  /-- There is a proof of consistency. -/
  proof : ∃ proof, verifyConsistency prim.sha256 a.treeSize.toNat b.treeSize.toNat a.root b.root
    proof = true

theorem HeadOf.linked {log : Identity} {old new : List (List UInt8)} {a b : SignedTreeHead}
    (h : old <+: new) (ha : HeadOf prim log old a) (hb : HeadOf prim log new b) :
    Linked prim a b := by
  obtain ⟨entries, rfl⟩ := h
  obtain ⟨hlen, now, rfl⟩ := ha
  obtain ⟨hlen', now', rfl⟩ := hb
  set head : SignedTreeHead := .sign prim log _ _ now
  set head' : SignedTreeHead := .sign prim log _ _ now'
  have hhead : head.treeSize = u64OrMax old.length := by
    rw [u64OrMax, if_pos hlen]
    rfl
  have hhead' : head'.treeSize = u64OrMax (old ++ entries).length := by
    rw [u64OrMax, if_pos hlen']
    rfl
  obtain ⟨hsize, hroot, proof, -, hproof⟩ := heads_consistent hlen' hhead rfl hhead' rfl
  exact ⟨rfl, hsize, detectEquivocation_eq_false_iff.mpr hroot, proof, hproof⟩

/-- The log of each head that is published begins with that of all before it, and they are
consistent. -/
theorem pairwise_publishedOf (lib : Libraries) (token : Option String) (disk : Disk)
    (acts : List Act) :
    (publishedOf lib token disk acts).Pairwise fun a b =>
      a.1 <+: b.1 ∧ Linked lib.prim a.2 b.2 := by
  induction acts generalizing disk with
  | nil => exact List.Pairwise.nil
  | cons act acts ih =>
    refine List.pairwise_append.mpr ⟨?_, ih _, fun a ha b hb => ?_⟩
    · have hone : ∀ head : Option SignedTreeHead,
          (head.toList.map fun head => (logEntries disk.dir, head)).Pairwise fun a b =>
            a.1 <+: b.1 ∧ Linked lib.prim a.2 b.2 := by
        intro head
        cases head with
        | none => exact List.Pairwise.nil
        | some head => exact List.pairwise_singleton _ _
      exact hone _
    · obtain ⟨hentries, hnow⟩ : a.1 = logEntries disk.dir ∧
          (act.step lib token disk).2 = some a.2 := by
        obtain ⟨head, hhead, rfl⟩ := List.mem_map.mp ha
        exact ⟨rfl, Option.mem_toList.mp hhead⟩
      obtain ⟨log, hkept, hhead⟩ := Act.step_head hnow
      obtain ⟨hgrown, hlater⟩ := publishedOf_headOf hkept b hb
      rw [← logEntries_eq_scan, ← hentries] at hgrown
      exact ⟨hgrown, (hentries ▸ hhead).linked hgrown hlater⟩

/-- Of any two heads that are published, one is consistent with the other. -/
theorem published_linked {disk : Disk} {acts : List Act} {a b : SignedTreeHead}
    (ha : a ∈ (published lib token disk acts).2) (hb : b ∈ (published lib token disk acts).2) :
    Linked lib.prim a b ∨ Linked lib.prim b a := by
  have hsym : Std.Symm fun a b => Linked lib.prim a b ∨ Linked lib.prim b a :=
    ⟨fun _ _ h => h.symm⟩
  rw [← map_snd_publishedOf] at ha hb
  have hpairs : ((publishedOf lib token disk acts).map Prod.snd).Pairwise
      fun a b => Linked lib.prim a b ∨ Linked lib.prim b a :=
    List.pairwise_map.mpr ((pairwise_publishedOf lib token disk acts).imp fun h => Or.inl h.2)
  refine hpairs.forall_of_forall (fun head hmem => ?_) ha hb
  obtain ⟨p, hp, rfl⟩ := List.mem_map.mp hmem
  obtain ⟨log, hhead⟩ := exists_headOf p hp
  exact Or.inl (hhead.linked List.prefix_rfl hhead)

/-- Consistency is about what a head says, not about its signature. -/
theorem Linked.congr {a b c d : SignedTreeHead} (h : Linked prim a b)
    (hkeys : c.logPublic = d.logPublic) (hac : a.treeSize = c.treeSize ∧ a.root = c.root)
    (hbd : b.treeSize = d.treeSize ∧ b.root = d.root) : Linked prim c d := by
  obtain ⟨-, hsize, hsingle, hproof⟩ := h
  rw [detectEquivocation_eq_false_iff] at hsingle
  rw [hac.1, hac.2, hbd.1, hbd.2] at hproof hsingle
  rw [hac.1, hbd.1] at hsize
  exact ⟨hkeys, hsize, detectEquivocation_eq_false_iff.mpr hsingle, hproof⟩

/-! ## Fetching -/

/-- One turn of the loop of `sth_respond`. -/
def sthRespond (sth : SignedTreeHead) : Service Unit
  | (), .hello version => (.hello version, (), true)
  | (), .getSth => (.sth sth.toBytes.toList, (), true)
  | (), .bye => (.bye, (), false)
  | (), _ => (.bye, (), false)

/-- `net::fetch_sth`. -/
def fetchSth (peer : Peer) : Except IoError (Option SignedTreeHead) := do
  match ← ask peer .getSth with
  | some (.sth bytes) =>
    match tryBytes 144 bytes with
    | some encoded => pure (some (SignedTreeHead.fromBytes encoded))
    | none => throw (.message "bad sth length")
  | _ => pure none

variable (prim) in
/-- `sth_fetch` from the peer at an address: the head whose fields are printed. -/
def sthFetch (address : String) (peer : Peer) : Except CliError SignedTreeHead := do
  let fetched ← (fetchSth peer).mapError fun e =>
    .context ("fetching STH from " ++ address) (.io e)
  let sth ← okOr fetched (.message ("peer " ++ address ++ " did not return an STH"))
  (sth.verify prim).mapError fun e => .context "STH signature invalid" (.log e)
  pure sth

/-- What is fetched verifies. -/
theorem verify_of_sthFetch {address : String} {peer : Peer} {head : SignedTreeHead}
    (h : sthFetch prim address peer = .ok head) : head.verify prim = .ok () := by
  obtain ⟨fetched, -, h⟩ := bind_ok_iff.mp h
  obtain ⟨sth, -, h⟩ := bind_ok_iff.mp h
  obtain ⟨⟨⟩, hverify, h⟩ := bind_ok_iff.mp h
  obtain rfl := Except.ok.inj h
  exact mapError_ok_iff.mp hverify

/-- A head that is served is fetched as it is. -/
theorem fetchSth_peer (sth : SignedTreeHead) :
    fetchSth (Service.peer (sthRespond sth) ()) = .ok (some sth) := by
  have hlen : (Message.sth sth.toBytes.toList).encode.length ≤ maxFrame := by
    have htagged := length_tagged_le tagSth sth.toBytes.toList
    rw [sth.toBytes.toList_length] at htagged
    rw [Message.encode_eq]
    exact htagged.trans (by decide)
  have hrequest : Message.getSth.encode.length ≤ maxFrame :=
    encode_le_of_payload (by simp [Message.payload])
  have hgreets : Service.Greets (sthRespond sth) := fun _ _ => rfl
  unfold fetchSth
  have hanswer : sthRespond sth () .getSth = (.sth sth.toBytes.toList, (), true) := rfl
  rw [(Service.ask_peer hgreets hrequest hanswer hlen).1]
  have hbytes : tryBytes 144 sth.toBytes.toList = some sth.toBytes := tryBytes_eq_some_iff.mpr rfl
  simp only [bind, Except.bind, hbytes, SignedTreeHead.fromBytes_toBytes]
  rfl

theorem sthFetch_peer (hlaws : SignatureLaws prim) (address : String) {log : Identity}
    {entries : List (List UInt8)} {head : SignedTreeHead} (h : HeadOf prim log entries head) :
    sthFetch prim address (Service.peer (sthRespond head) ()) = .ok head := by
  obtain ⟨-, now, rfl⟩ := h
  unfold sthFetch
  rw [fetchSth_peer]
  have hverify := hlaws.ed25519_verify_sign log.signing
    (sthInput (UInt64.ofNat entries.length) (mth prim.sha256 (entries.map (leafHash prim.sha256)))
      now)
  refine bind_ok_iff.mpr ⟨_, rfl, bind_ok_iff.mpr ⟨_, rfl, bind_ok_iff.mpr ⟨(), ?_, rfl⟩⟩⟩
  rw [mapError_ok_iff, SignedTreeHead.verify, mapError_ok_iff]
  exact verify_ok.mpr hverify

/-- **Monitors agree.** Take any run of a data directory, and heads that monitors have fetched from
whatever peers. If none of them is forged under the key of the log, then no two of them are an
equivocation, and they are consistent one way or the other. -/
theorem monitors_agree (lib : Libraries) (token : Option String) (disk : Disk) (acts : List Act)
    (pub : Bytes 32) (heads : List SignedTreeHead)
    (hfetched : ∀ head ∈ heads, head.logPublic = pub ∧
      ∃ address peer, sthFetch lib.prim address peer = .ok head)
    (hunforged : ∀ head ∈ heads, head.verify lib.prim = .ok () →
      ∃ signed ∈ (published lib token disk acts).2, signed.logPublic = pub ∧
        sthInput signed.treeSize signed.root signed.timestamp =
          sthInput head.treeSize head.root head.timestamp) :
    ∀ a ∈ heads, ∀ b ∈ heads, detectEquivocation a b = false ∧
      (Linked lib.prim a b ∨ Linked lib.prim b a) := by
  have hsame : ∀ head ∈ heads, head.logPublic = pub ∧
      ∃ signed ∈ (published lib token disk acts).2,
        signed.treeSize = head.treeSize ∧ signed.root = head.root := by
    intro head hmem
    obtain ⟨hkey, address, peer, hfetch⟩ := hfetched head hmem
    obtain ⟨signed, hsigned, -, hinput⟩ := hunforged head hmem (verify_of_sthFetch hfetch)
    obtain ⟨hsize, hroot, -⟩ := sthInput_inj hinput
    exact ⟨hkey, signed, hsigned, hsize, hroot⟩
  intro a ha b hb
  obtain ⟨hkey, first, hfirst, hfirstSame⟩ := hsame a ha
  obtain ⟨hkey', second, hsecond, hsecondSame⟩ := hsame b hb
  rcases published_linked hfirst hsecond with hlink | hlink
  · have hab := hlink.congr (hkey.trans hkey'.symm) hfirstSame hsecondSame
    exact ⟨hab.single, Or.inl hab⟩
  · have hba := hlink.congr (hkey'.trans hkey.symm) hsecondSame hfirstSame
    refine ⟨?_, Or.inr hba⟩
    rw [detectEquivocation_eq_false_iff]
    intro hsize
    exact (detectEquivocation_eq_false_iff.mp hba.single hsize.symm).symm

/-! ## A known log -/

namespace KnownLog

open Keepstone.Daemon (knownLibraries)

/-- A head is published, a drop is fetched, an entry is appended, and another head is published. -/
def acts : List Act :=
  [.publish KnownAnswers.recipient 5,
    .command noCell (.fetch knownPeer "peer" (KnownAnswers.drop.id KnownAnswers.primitives).toHex),
    .append [1], .publish KnownAnswers.author 9]

/-- The heads. -/
def heads : List SignedTreeHead := (published knownLibraries none ⟨∅, []⟩ acts).2

theorem keys_heads : heads.map (·.logPublic) =
    List.replicate 2 (KnownAnswers.recipient.signingPublic KnownAnswers.primitives) := by
  decide +kernel

/-- Monitors that have fetched them see no equivocation. -/
theorem known_monitors_agree :
    heads.length = 2 ∧ heads.Pairwise fun a b => detectEquivocation a b = false := by
  refine ⟨by simpa using congrArg List.length keys_heads, ?_⟩
  refine List.pairwise_of_forall_mem_list fun a ha b hb => ?_
  refine (monitors_agree knownLibraries none ⟨∅, []⟩ acts
    (KnownAnswers.recipient.signingPublic KnownAnswers.primitives) heads ?_ ?_ a ha b hb).1
  · intro head hmem
    have hkey := List.mem_map_of_mem (f := (·.logPublic)) hmem
    rw [keys_heads] at hkey
    rw [heads, ← map_snd_publishedOf] at hmem
    obtain ⟨p, hp, rfl⟩ := List.mem_map.mp hmem
    obtain ⟨log, hhead⟩ := exists_headOf p hp
    exact ⟨List.eq_of_mem_replicate hkey, "", _, sthFetch_peer KnownAnswers.laws "" hhead⟩
  · intro head hmem _
    have hkey := List.mem_map_of_mem (f := (·.logPublic)) hmem
    rw [keys_heads] at hkey
    exact ⟨head, hmem, List.eq_of_mem_replicate hkey, rfl⟩

end KnownLog

end Keepstone.Cli
