import Keepstone.Cli.Runs
import Keepstone.Store.Lasting

/-!
# The standalone verifier (`crates/cli/src/main.rs:812-846`)

`verify_file` checks an envelope that lies in a file, without keys and without a data directory. A
command may be refused or torn at any of its writes, and what it has written stays.

Results:
* `verifyFile_iff`: it finds a valid proof of work in exactly what a fetch accepts;
* `step_vouched`: what one command leaves under `drops/`;
* **`run_verified`**: after any run, whatever lies under `drops/` is found valid, or is a proper
  part of such an envelope and is reported as malformed.
-/

namespace Keepstone.Cli

open Keepstone.Lib Keepstone.Crypto Keepstone.Core Keepstone.Store

/-- What `verify_file` prints. -/
structure Report where
  /-- Identifier. -/
  id : DropId
  /-- Whether the signature is a hybrid one. -/
  hybrid : Bool
  /-- Crypto suite. -/
  suite : UInt8
  /-- Whether the proof of work is valid. -/
  pow : Bool
  /-- Cell. -/
  cell : String
  /-- Ring. -/
  ring : UInt32
  /-- When it was created. -/
  created : UInt64
  /-- When it expires. -/
  expiry : UInt64
  /-- Number of chunks. -/
  chunks : UInt32
  /-- Content root. -/
  content : Bytes 32
  deriving DecidableEq

variable (prim : Primitives)

/-- `verify_file`, on the content of the file if it can be read. -/
def verifyFile (fileText : String) (file : Option (List UInt8)) : Except CliError Report := do
  let raw ← okOr file (.context ("reading " ++ fileText) (.io .system))
  let signed ← (SignedDrop.decode raw).mapError fun e =>
    .context "malformed drop envelope" (.core e)
  (signed.verify prim).mapError fun e => .context "signature invalid" (.core e)
  let body ← signed.body.mapError fun e => .context "malformed drop body" (.core e)
  pure
    { id := signed.id prim, hybrid := signed.sigKind == sigHybrid, suite := body.suite
      pow := body.powOk prim signed.signer, cell := body.cell, ring := body.ring
      created := body.createdAt, expiry := body.expiry, chunks := body.chunkCount
      content := body.contentRoot }

/-- A fetch would accept it. -/
def Vouched (raw : List UInt8) : Prop := ∃ body, checkReceived prim raw = .ok body

/-- It is the beginning of an envelope that a fetch would accept. -/
def Begun (raw : List UInt8) : Prop :=
  ∃ whole, raw <+: whole ∧ whole.length < 2 ^ 64 ∧ Vouched prim whole

/-- Whatever lies under `drops/` is the beginning of such an envelope. -/
def AllBegun (dir : Dir) : Prop := ∀ id raw, dir.lookup (.drop id) = some raw → Begun prim raw

section Semantics

variable (cellAt : Float → Float → UInt8 → Except CoreError String)

/-- The envelopes of a step can be counted in 64 bits: the one it comes to sign, and the one it is
offered. -/
structure Step.Short (step : Step) (dir : Dir) : Prop where
  signed : ∀ now args draws signed, step.command = .createDrop now args draws →
    Signs prim cellAt now args draws ⟨dir, step.outcomes⟩ signed → signed.raw.length < 2 ^ 64
  offered : ∀ offer, step.command.offer = some offer → offer.raw.length < 2 ^ 64

/-- So can those of every step of a run. -/
def ShortRun : List Step → Dir → Prop
  | [], _ => True
  | step :: steps, dir => step.Short prim cellAt dir ∧ ShortRun steps (step.run prim cellAt dir)

end Semantics

variable {prim} {cellAt : Float → Float → UInt8 → Except CoreError String}

/-! ## What the verifier accepts -/

/-- **The verifier finds a valid proof of work in exactly what a fetch accepts.** -/
theorem verifyFile_iff {raw : List UInt8} (fileText : String) :
    (∃ report, verifyFile prim fileText (some raw) = .ok report ∧ report.pow = true) ↔
      Vouched prim raw := by
  simp only [Vouched, checkReceived_ok_iff, verifyFile, bind_ok_iff, mapError_ok_iff, pure_ok_iff]
  constructor
  · rintro ⟨report, ⟨_, hraw, signed, hdecode, ⟨⟩, hverify, body, hbody, rfl⟩, hpow⟩
    obtain rfl := Except.ok.inj hraw
    exact ⟨body, signed, hdecode, hverify, hbody, hpow⟩
  · rintro ⟨body, signed, hdecode, hverify, hbody, hpow⟩
    exact ⟨_, ⟨raw, rfl, signed, hdecode, (), hverify, body, hbody, rfl⟩, hpow⟩

/-- What does not decode is reported as malformed. -/
theorem verifyFile_of_error {raw : List UInt8} {e : CoreError}
    (h : SignedDrop.decode raw = .error e) (fileText : String) :
    verifyFile prim fileText (some raw) =
      .error (.context "malformed drop envelope" (.core e)) := by
  have hread : okOr (some raw) (CliError.context ("reading " ++ fileText) (.io .system)) =
      .ok raw := rfl
  rw [verifyFile, hread]
  simp only [bind, Except.bind, h]
  rfl

/-- **What is said of the beginning of an accepted envelope.** -/
theorem verifyFile_of_begun {raw : List UInt8} (h : Begun prim raw) (fileText : String) :
    (∃ report, verifyFile prim fileText (some raw) = .ok report ∧ report.pow = true) ∨
      (∃ e, verifyFile prim fileText (some raw) =
        .error (.context "malformed drop envelope" (.core e))) ∧
      ∃ whole report, raw <+: whole ∧ raw ≠ whole ∧
        verifyFile prim fileText (some whole) = .ok report ∧ report.pow = true := by
  obtain ⟨whole, hpre, hlen, hvouched⟩ := h
  by_cases heq : raw = whole
  · subst heq
    exact Or.inl ((verifyFile_iff fileText).mpr hvouched)
  · obtain ⟨report, hreport, hpow⟩ := (verifyFile_iff fileText).mpr hvouched
    obtain ⟨body, hbody⟩ := hvouched
    obtain ⟨signed, hdecode, -⟩ := checkReceived_ok_iff.mp hbody
    obtain ⟨e, he⟩ := decode_of_prefix hdecode hlen hpre heq
    exact Or.inr ⟨⟨e, verifyFile_of_error he fileText⟩,
      whole, report, hpre, heq, hreport, hpow⟩

/-! ## What a command leaves -/

/-- **What a call of `create_drop` comes to store would be accepted.** -/
theorem vouched_of_signs (laws : SignatureLaws prim) {now : UInt64} {args : CreateArgs}
    {draws : Draws} {disk : Disk} {signed : SignedDrop}
    (h : Signs prim cellAt now args draws disk signed) (hlen : signed.raw.length < 2 ^ 64) :
    Vouched prim signed.raw := by
  obtain ⟨hencoded, hverify, body, hpayload, -, hpow⟩ := h.exists_body
  exact ⟨body, checkReceived_ok_iff.mpr ⟨signed, decode_raw hencoded hlen, hverify laws,
    body_of_payload hpayload (hencoded ▸ hlen), hpow⟩⟩

theorem AllBegun.ignores {file : File} (h : ∀ id, .drop id ≠ file) :
    Ignores (AllBegun prim) file := by
  intro dir bytes hdir id raw hlookup
  rw [AList.lookup_insert_ne (h id)] at hlookup
  exact hdir id raw hlookup

theorem AllBegun.insert {id : DropId} {raw : List UInt8} (h : Begun prim raw) {dir : Dir}
    (hdir : AllBegun prim dir) : AllBegun prim (dir.insert (.drop id) raw) := by
  intro id' raw' hlookup
  by_cases heq : id' = id
  · subst heq
    rw [AList.lookup_insert] at hlookup
    obtain rfl := Option.some.inj hlookup
    exact h
  · rw [AList.lookup_insert_ne fun hfile => heq (File.drop.inj hfile)] at hlookup
    exact hdir id' raw' hlookup

/-- Writing an accepted envelope, even in part. -/
theorem keeps_write_vouched {raw : List UInt8} (h : Vouched prim raw)
    (hlen : raw.length < 2 ^ 64) (id : DropId) :
    Keeps (fun disk : Disk => AllBegun prim disk.dir) (write (.drop id) raw) fun _ => True := by
  refine keeps_call_torn (fun dir => ?_) fun k dir => ?_
  · exact AllBegun.insert ⟨raw, List.prefix_rfl, hlen, h⟩
  · exact AllBegun.insert ⟨raw, List.take_prefix _ _, hlen, h⟩

/-- **What one command leaves under `drops/`**, whatever becomes of its writes. -/
theorem step_vouched (laws : SignatureLaws prim) {step : Step} {dir : Dir}
    (hshort : step.Short prim cellAt dir) (hdir : AllBegun prim dir) :
    AllBegun prim (step.run prim cellAt dir) := by
  have hother : ∀ file, (∀ id, .drop id ≠ file) →
      Allows (fun disk : Disk => AllBegun prim disk.dir) file :=
    fun file h => (AllBegun.ignores h).always
  have hchunk : ∀ id index, Allows (fun disk : Disk => AllBegun prim disk.dir) (.chunk id index) :=
    fun _ _ => hother _ fun _ => nofun
  have hlog := hother .logEntries fun _ => nofun
  have hmldsa := hother .mldsa fun _ => nofun
  have hstart : AllBegun prim (⟨dir, step.outcomes⟩ : Disk).dir := hdir
  have hfetch : step.command.Fetches →
      AllBegun prim (step.command.exec prim cellAt ⟨dir, step.outcomes⟩).dir := by
    intro h
    refine keeps_fetches (I := fun disk => AllBegun prim disk.dir) h hchunk hlog ?_ hstart
    intro offer body hoffer hbody
    exact keeps_write_vouched ⟨body, hbody⟩ (hshort.offered offer hoffer) offer.id
  unfold Step.run
  obtain ⟨command, outcomes⟩ := step
  cases command with
  | keygen generated hybrid mlDsa =>
    exact (keeps_keygen (hother _ fun _ => nofun) (hother _ fun _ => nofun) hmldsa
      generated hybrid mlDsa _ hstart).1
  | addContact name signing ecdh hybrid =>
    exact (keeps_addContact (hother _ fun _ => nofun) name signing ecdh hybrid _ hstart).1
  | createDrop now args draws =>
    refine after_createDrop (I := fun disk => AllBegun prim disk.dir) hstart hmldsa hlog ?_
    intro signed hsigns
    have hlen := hshort.signed now args draws signed rfl hsigns
    exact ⟨hchunk _, keeps_write_vouched (vouched_of_signs laws hsigns hlen) hlen _⟩
  | fetch peer peerText idText => exact hfetch trivial
  | p2pFetch address peerText idText => exact hfetch trivial

theorem run_vouched (laws : SignatureLaws prim) {steps : List Step} {dir : Dir}
    (hshort : ShortRun prim cellAt steps dir) (hdir : AllBegun prim dir) :
    AllBegun prim (run prim cellAt steps dir) := by
  induction steps generalizing dir with
  | nil => exact hdir
  | cons step steps ih => exact ih hshort.2 (step_vouched laws hshort.1 hdir)

/-- **What lies under `drops/` after a run is found valid, or is a part of what would be.** Whoever
the peers were, and whatever the system did with the writes, the verifier never reports an invalid
signature, a malformed body or a failed proof of work: what it does not find valid was torn, and it
says so. -/
theorem run_verified (prim : Primitives) (laws : SignatureLaws prim)
    (cellAt : Float → Float → UInt8 → Except CoreError String) {steps : List Step}
    (hshort : ShortRun prim cellAt steps ∅) (fileText : String) {id : DropId} {raw : List UInt8}
    (hraw : (run prim cellAt steps ∅).lookup (.drop id) = some raw) :
    (∃ report, verifyFile prim fileText (some raw) = .ok report ∧ report.pow = true) ∨
      (∃ e, verifyFile prim fileText (some raw) =
        .error (.context "malformed drop envelope" (.core e))) ∧
      ∃ whole report, raw <+: whole ∧ raw ≠ whole ∧
        verifyFile prim fileText (some whole) = .ok report ∧ report.pow = true :=
  verifyFile_of_begun (run_vouched laws hshort (fun _ _ h => absurd h nofun) id raw hraw) fileText

/-- The known drop is fetched, and the write of its envelope ends after ten bytes. -/
def tornFetch (id : DropId) : Step := ⟨(knownFetch id).command, [.done, .torn 10]⟩

theorem received_tornFetch {id : DropId} {offer : Offer}
    (h : (tornFetch id).command.offer = some offer) : offer.raw = KnownAnswers.drop.raw := by
  obtain ⟨-, hreply⟩ := received_iff.mpr ⟨offer, h, rfl, rfl⟩
  exact (Option.some.inj (Except.ok.inj hreply)).symm

theorem run_tornFetch (id : DropId) :
    (run KnownAnswers.primitives noCell [tornFetch id] ∅).lookup (.drop id) =
      some (KnownAnswers.drop.raw.take 10) := by
  have hfetches : (tornFetch id).command.Fetches := trivial
  have hoffer : (tornFetch id).command.offer =
      some ⟨id, KnownAnswers.drop.raw, chunkFrom knownPeer id⟩ := by
    simp only [tornFetch, knownFetch, Command.offer, DropId.fromHex_toHex]
    rfl
  rw [run_singleton, Step.run, exec_of_fetches hfetches, hoffer]
  simp only [receiveDrop, known_checked]
  exact AList.lookup_insert _

theorem short_tornFetch (id : DropId) :
    ShortRun KnownAnswers.primitives noCell [tornFetch id] ∅ := by
  refine ⟨⟨fun _ _ _ _ hcommand => absurd hcommand nofun, fun offer hoffer => ?_⟩, trivial⟩
  rw [received_tornFetch hoffer, KnownAnswers.length_drop]
  decide

/-- The verifier says that the file is malformed. -/
theorem known_torn_reported :
    ∃ e, verifyFile KnownAnswers.primitives "drop" (some (KnownAnswers.drop.raw.take 10)) =
      .error (.context "malformed drop envelope" (.core e)) := by
  rcases run_verified KnownAnswers.primitives KnownAnswers.laws noCell
    (short_tornFetch (KnownAnswers.drop.id KnownAnswers.primitives)) "drop"
    (run_tornFetch _) with hvalid | ⟨hmalformed, -⟩
  · exfalso
    obtain ⟨body, hbody⟩ := (verifyFile_iff "drop").mp hvalid
    obtain ⟨signed, hdecode, -⟩ := checkReceived_ok_iff.mp hbody
    have hshort : KnownAnswers.drop.raw.length < 2 ^ 64 := KnownAnswers.length_drop ▸ (by decide)
    have hne : KnownAnswers.drop.raw.take 10 ≠ KnownAnswers.drop.raw := by
      intro heq
      have hlength := congrArg List.length heq
      rw [List.length_take, KnownAnswers.length_drop] at hlength
      exact absurd hlength (by decide)
    obtain ⟨e, he⟩ := decode_of_prefix known_drop_accepted.1 hshort (List.take_prefix _ _) hne
    exact absurd (hdecode.symm.trans he) nofun
  · exact hmalformed

end Keepstone.Cli
