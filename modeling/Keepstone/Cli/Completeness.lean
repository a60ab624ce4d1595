import Keepstone.Cli.Overwriting
import Keepstone.Store.Creation

/-!
# Which directories hold whole drops (`crates/store/src/lib.rs:524-541`, `crates/cli/src/main.rs`)

`create_drop` writes the chunks, then the envelope, then the log entry; the two fetches write the
envelope, then the chunks as they arrive, then the log entry, whose errors they drop. None of them
takes the envelope back when a later write or a reply fails. `list_drops` shows every envelope file
that decodes, with or without its chunks and its log entry.

Results:
* `Whole.insert`: a drop that is stored and logged leaves a directory of whole drops;
* `step_whole`: which steps leave one;
* **`run_complete`**: in a run of such steps every envelope has its chunks and is logged.
-/

namespace Keepstone.Cli

open Keepstone.Lib Keepstone.Crypto Keepstone.Core Keepstone.Store Keepstone.Node

/-- The chunks of an envelope that `list_drops` shows are all there. -/
def HasChunks (dir : Dir) (id : DropId) (raw : List UInt8) : Prop :=
  ∀ signed body, SignedDrop.decode raw = .ok signed → signed.body = .ok body →
    ∀ index < body.chunkCount.toNat, (dir.lookup (.chunk id index)).isSome

/-- Every envelope has its chunks, and is among the entries of the log. -/
def Complete (dir : Dir) : Prop :=
  ∀ id raw, dir.lookup (.drop id) = some raw → HasChunks dir id raw ∧ raw ∈ logEntries dir

/-- A complete directory whose log can be appended to. -/
structure Whole (dir : Dir) : Prop where
  /-- Every envelope is whole. -/
  complete : Complete dir
  /-- No record of the log is torn. -/
  log : WholeLog dir

/-! ## What is kept -/

/-- A file that is there stays there, whatever is written. -/
theorem ignores_isSome (file other : File) :
    Ignores (fun dir => (dir.lookup file).isSome) other := by
  intro dir bytes h
  by_cases heq : file = other
  · rw [heq, AList.lookup_insert]
    rfl
  · rwa [AList.lookup_insert_ne heq]

/-- Files other than envelopes and the log may change at any time, in part or as a whole. -/
theorem Whole.ignores {file : File} (hdrop : ∀ id, .drop id ≠ file) (hlog : .logEntries ≠ file) :
    Ignores Whole file := by
  intro dir bytes h
  have hentries : logEntries (dir.insert file bytes) = logEntries dir := by
    unfold logEntries
    rw [AList.lookup_insert_ne hlog]
  refine ⟨fun id raw hraw => ?_, ?_⟩
  · rw [AList.lookup_insert_ne (hdrop id)] at hraw
    obtain ⟨hchunks, hlogged⟩ := h.complete id raw hraw
    refine ⟨fun signed body hdec hbody index hindex => ?_, by rwa [hentries]⟩
    exact ignores_isSome _ _ dir bytes (hchunks signed body hdec hbody index hindex)
  · unfold WholeLog
    rw [hentries, ← h.log]
    exact ignores_logBytes hlog _ dir bytes rfl

/-- **A drop that is stored with its chunks and logged** leaves a directory of whole drops, if no
other envelope changes and no chunk goes away. -/
theorem Whole.insert {dir dir' : Dir} {id : DropId} {raw : List UInt8} (h : Whole dir)
    (hraw : Fits 4 raw) (hbytes : logBytes dir' = logBytes dir ++ record 4 raw)
    (hdrop : dir'.lookup (.drop id) = some raw)
    (hother : ∀ other, other ≠ id → dir'.lookup (.drop other) = dir.lookup (.drop other))
    (hstay : ∀ other index, (dir.lookup (.chunk other index)).isSome →
      (dir'.lookup (.chunk other index)).isSome)
    (hchunks : HasChunks dir' id raw) : Whole dir' := by
  obtain ⟨hentries, hlog⟩ := h.log.append hraw hbytes
  refine ⟨fun other raw' hraw' => ?_, hlog⟩
  rw [hentries]
  by_cases hid : other = id
  · subst hid
    obtain rfl := Option.some.inj (hdrop.symm.trans hraw')
    exact ⟨hchunks, List.mem_append_right _ List.mem_cons_self⟩
  · rw [hother other hid] at hraw'
    obtain ⟨hwhole, hlogged⟩ := h.complete other raw' hraw'
    refine ⟨fun signed body hdec hbody index hindex => ?_, List.mem_append_left _ hlogged⟩
    exact hstay other index (hwhole signed body hdec hbody index hindex)

/-- What follows the writing of an envelope leaves a directory of whole drops, if it logs the
envelope, and the chunks are there in the end. -/
theorem Whole.after_envelope {ε α : Type} {m : Program ε Disk α} {start : Disk} {dir : Dir}
    {id : DropId} {raw : List UInt8} (h : Whole dir) (hraw : Fits 4 raw)
    (hstart : start.dir = dir.insert (.drop id) raw)
    (hkeeps : ∀ I : Disk → Prop, (∀ index, Allows I (.chunk id index)) → Allows I .logEntries →
      Keeps I m fun _ => True)
    (hbytes : logBytes (m.exec start).2.dir = logBytes start.dir ++ record 4 raw)
    (hchunks : HasChunks (m.exec start).2.dir id raw) : Whole (m.exec start).2.dir := by
  have hsame : logBytes start.dir = logBytes dir := by
    rw [hstart]
    exact ignores_logBytes (by nofun) _ dir raw rfl
  have henvelope : ∀ other, (m.exec start).2.dir.lookup (.drop other) =
      start.dir.lookup (.drop other) := by
    intro other
    exact (hkeeps (fun disk => disk.dir.lookup (.drop other) = start.dir.lookup (.drop other))
      (fun _ => (ignores_lookup (by nofun) _).always) (ignores_lookup (by nofun) _).always
      start rfl).1
  refine h.insert hraw (by rw [hbytes, hsame]) ?_ (fun other hother => ?_)
    (fun other index hi => ?_) hchunks
  · rw [henvelope, hstart, AList.lookup_insert]
  · rw [henvelope, hstart, AList.lookup_insert_ne fun heq => hother (File.drop.inj heq)]
  · refine (hkeeps (fun disk => (disk.dir.lookup (.chunk other index)).isSome)
      (fun _ => (ignores_isSome _ _).always) (ignores_isSome _ _).always start ?_).1
    show (start.dir.lookup (.chunk other index)).isSome
    rw [hstart]
    exact ignores_isSome _ _ dir raw hi

/-! ## Steps -/

variable (prim : Primitives) (cellAt : Float → Float → UInt8 → Except CoreError String)

/-- The step fails, if it does, before there is something of an envelope: the envelope's own write
is refused, or nothing after it fails. -/
def Step.Clean (step : Step) (dir : Dir) : Prop :=
  match step.command with
  | .createDrop now args draws => ∀ signed created disk,
      (untilEnvelope prim cellAt now args draws).exec ⟨dir, step.outcomes⟩ =
        (.ok (signed, created), disk) →
      disk.outcomes.head? = some .refused ∨ disk.Quiet ∧ Fits 4 signed.raw
  | command => ∀ offer body, command.offer = some offer →
      checkReceived prim offer.raw = .ok body →
      step.outcomes.tail.head? = some .refused ∨
        Disk.Quiet ⟨dir, step.outcomes.tail⟩ ∧ Fits 4 offer.raw ∧
          ∀ index < body.chunkCount.toNat, (offer.chunkAt index).isOk

variable {prim cellAt}

theorem allows_whole {file : File} (hdrop : ∀ id, .drop id ≠ file) (hlog : .logEntries ≠ file) :
    Allows (fun disk => Whole disk.dir) file := (Whole.ignores hdrop hlog).always

/-- The second half of `create_drop` when the first has returned. -/
theorem whole_storeEnvelope {signed : SignedDrop} {disk : Disk} (h : Whole disk.dir)
    (hchunks : Fits 4 signed.raw → HasChunks disk.dir (signed.id prim) signed.raw)
    (hclean : disk.outcomes.head? = some .refused ∨ disk.Quiet ∧ Fits 4 signed.raw) :
    Whole ((storeEnvelope prim signed).exec disk).2.dir := by
  rcases hclean with hrefused | ⟨hquiet, hraw⟩
  · have hwrite : (write (.drop (signed.id prim)) signed.raw).exec disk = _ :=
      exec_call_refused hrefused _ _
    unfold storeEnvelope
    rw [Program.exec_bind_error (Program.exec_mapErr_error hwrite)]
    exact h
  · have hwrite : (write (.drop (signed.id prim)) signed.raw).exec disk = _ :=
      exec_call hquiet _ _
    unfold storeEnvelope
    rw [Program.exec_bind_ok (Program.exec_mapErr_ok hwrite)]
    refine h.after_envelope hraw rfl (fun I _ hlog => keeps_appendLogEntry hlog _) ?_ ?_
    · obtain ⟨⟨⟩, disk', hexec, -⟩ := returns_appendLogEntry hraw _ (hquiet.tail _)
      rw [hexec]
      exact logBytes_appendLogEntry hexec
    · intro signed' body hdec hbody index hindex
      refine (keeps_appendLogEntry (I := fun disk => (disk.dir.lookup _).isSome)
        (ignores_isSome _ _).always _ _ ?_).1
      exact ignores_isSome _ _ _ _ (hchunks hraw signed' body hdec hbody index hindex)

theorem whole_createDrop {now : UInt64} {args : CreateArgs} {draws : Draws}
    {outcomes : List Outcome} {dir : Dir} (h : Whole dir)
    (hclean : Step.Clean prim cellAt ⟨.createDrop now args draws, outcomes⟩ dir) :
    Whole (Step.run prim cellAt ⟨.createDrop now args draws, outcomes⟩ dir) := by
  show Whole ((createDrop prim cellAt now args draws).exec ⟨dir, outcomes⟩).2.dir
  have hkept := keeps_untilEnvelope (I := fun disk => Whole disk.dir) prim
    (keeps_mldsaOrCreate prim (allows_whole (fun _ => nofun) nofun) draws.mlDsa)
    (fun _ _ => allows_whole (fun _ => nofun) nofun) cellAt now args
  rw [createDrop_eq]
  cases hexec : (untilEnvelope prim cellAt now args draws).exec ⟨dir, outcomes⟩ with
  | mk r disk =>
    have hwhole : Whole disk.dir := hkept.after h hexec
    cases r with
    | error e =>
      rw [Program.exec_bind_error hexec]
      exact hwhole
    | ok made =>
      obtain ⟨signed, created⟩ := made
      obtain ⟨hencoded, body, hpayload, hchunks⟩ := exec_untilEnvelope hexec
      have hstored : Fits 4 signed.raw → HasChunks disk.dir (signed.id prim) signed.raw := by
        intro hraw signed' body' hdec hbody' index hindex
        have hlen : signed.raw.length < 2 ^ 64 := lt_trans hraw (by decide)
        obtain rfl := Except.ok.inj ((decode_raw hencoded hlen).symm.trans hdec)
        obtain rfl := Except.ok.inj ((body_of_payload hpayload (hencoded ▸ hlen)).symm.trans hbody')
        obtain ⟨chunk, hchunk⟩ := hchunks index hindex
        exact Option.isSome_of_mem hchunk
      have hafter : Whole (((storeEnvelope prim signed).mapErr Stop.error).exec disk).2.dir :=
        whole_storeEnvelope hwhole hstored (hclean signed created disk hexec)
      have hreturn : Keeps (fun disk => Whole disk.dir)
          (pure created : Program Stop Disk CreatedDrop) fun _ => True := Keeps.pure trivial
      rw [Program.exec_bind_ok hexec]
      exact Keeps.after_bind hafter fun _ => hreturn

/-- A fetch of an envelope that is accepted. -/
theorem whole_receiveDrop {offer : Offer} {body : DropBody} {disk : Disk} (h : Whole disk.dir)
    (hbody : checkReceived prim offer.raw = .ok body)
    (hclean : disk.outcomes.tail.head? = some .refused ∨
      Disk.Quiet ⟨disk.dir, disk.outcomes.tail⟩ ∧ Fits 4 offer.raw ∧
        ∀ index < body.chunkCount.toNat, (offer.chunkAt index).isOk) :
    Whole ((receiveDrop prim offer.id offer.raw offer.chunkAt).exec disk).2.dir := by
  rcases hclean with hrefused | ⟨hquiet, hraw, hall⟩
  · obtain ⟨made, hmade⟩ := @exec_createDirAll_ok CliError disk
    have hwrite : (write (.drop offer.id) offer.raw).exec ⟨disk.dir, disk.outcomes.tail⟩ = _ :=
      exec_call_refused hrefused _ _
    unfold receiveDrop
    rw [Program.exec_ofExcept_bind hbody, Program.exec_bind_ok hmade,
      Program.exec_bind_error (Program.exec_mapErr_error hwrite)]
    exact h
  · rw [exec_receiveDrop hbody hquiet]
    obtain ⟨r, disk', hexec, hlookup, hlogged⟩ := @exec_receiveChunks offer.id offer.chunkAt
      ⟨disk.dir.insert (.drop offer.id) offer.raw, disk.outcomes.tail.tail⟩ (hquiet.tail _)
      offer.raw body.chunkCount
    refine h.after_envelope hraw rfl (fun I hchunk hlog => keeps_receiveChunks hchunk hlog _ _ _)
      ?_ ?_
    · rw [hexec]
      exact (hlogged hall hraw).2
    · rw [hexec]
      intro signed body' hdec hbody' index hindex
      obtain ⟨signed', hdec', -, hsigned, -⟩ := checkReceived_ok_iff.mp hbody
      obtain rfl := Except.ok.inj (hdec'.symm.trans hdec)
      obtain rfl := Except.ok.inj (hsigned.symm.trans hbody')
      obtain ⟨chunk, -, hsent⟩ := sentAt_of_all hall hindex
      rw [hlookup index hindex, hsent]
      rfl

/-- A clean fetch, whatever it is offered. -/
theorem whole_fetch {step : Step} {dir : Dir} (h : Whole dir) (hfetch : step.command.Fetches)
    (hclean : ∀ offer body, step.command.offer = some offer →
      checkReceived prim offer.raw = .ok body →
      step.outcomes.tail.head? = some .refused ∨
        Disk.Quiet ⟨dir, step.outcomes.tail⟩ ∧ Fits 4 offer.raw ∧
          ∀ index < body.chunkCount.toNat, (offer.chunkAt index).isOk) :
    Whole (step.run prim cellAt dir) := by
  unfold Step.run
  by_cases haccepted : ∃ offer body, step.command.offer = some offer ∧
      checkReceived prim offer.raw = .ok body
  case neg =>
    rw [exec_of_refused hfetch haccepted]
    exact h
  case pos =>
    obtain ⟨offer, body, hoffer, hbody⟩ := haccepted
    rw [exec_of_fetches hfetch, hoffer]
    exact whole_receiveDrop h hbody (hclean offer body hoffer hbody)

/-- A clean step leaves a directory of whole drops. -/
theorem step_whole {step : Step} {dir : Dir} (hclean : step.Clean prim cellAt dir)
    (h : Whole dir) : Whole (step.run prim cellAt dir) := by
  have hother : ∀ file, (∀ id, .drop id ≠ file) → .logEntries ≠ file →
      Allows (fun disk => Whole disk.dir) file := fun _ => allows_whole
  obtain ⟨command, outcomes⟩ := step
  cases command with
  | keygen generated hybrid mlDsa =>
    exact (keeps_keygen (hother _ (fun _ => nofun) nofun) (hother _ (fun _ => nofun) nofun)
      (hother _ (fun _ => nofun) nofun) generated hybrid mlDsa ⟨dir, outcomes⟩ h).1
  | addContact name signing ecdh hybrid =>
    exact (keeps_addContact (hother _ (fun _ => nofun) nofun) name signing ecdh hybrid
      ⟨dir, outcomes⟩ h).1
  | createDrop now args draws => exact whole_createDrop h hclean
  | fetch peer peerText idText => exact whole_fetch h trivial hclean
  | p2pFetch address peerText idText => exact whole_fetch h trivial hclean

/-! ## Runs -/

variable (prim cellAt) in
/-- Every step of a run is clean in the directory it finds. -/
def CleanRun : List Step → Dir → Prop
  | [], _ => True
  | step :: rest, dir => step.Clean prim cellAt dir ∧ CleanRun rest (step.run prim cellAt dir)

theorem run_whole {steps : List Step} {dir : Dir} (hclean : CleanRun prim cellAt steps dir)
    (h : Whole dir) (k : Nat) : Whole (run prim cellAt (steps.take k) dir) := by
  induction steps generalizing dir k with
  | nil =>
    rw [List.take_nil]
    exact h
  | cons step steps ih =>
    cases k with
    | zero => exact h
    | succ k =>
      rw [List.take_succ_cons]
      exact ih hclean.2 (step_whole hclean.1 h) k

theorem whole_empty : Whole ∅ := ⟨fun _ _ h => absurd h nofun, rfl⟩

/-- **Every drop that is shown is whole and logged**, in every state of a run of clean steps. -/
theorem run_complete (prim : Primitives)
    (cellAt : Float → Float → UInt8 → Except CoreError String) (steps : List Step)
    (hclean : CleanRun prim cellAt steps ∅) (k : Nat) (id : DropId) (raw : List UInt8)
    (hraw : (run prim cellAt (steps.take k) ∅).lookup (.drop id) = some raw) :
    HasChunks (run prim cellAt (steps.take k) ∅) id raw ∧
      raw ∈ logEntries (run prim cellAt (steps.take k) ∅) :=
  (run_whole hclean whole_empty k).complete id raw hraw

/-- The known drop is fetched from a peer that has all of it. -/
theorem known_drop_whole :
    let id := KnownAnswers.drop.id KnownAnswers.primitives
    let dir := run KnownAnswers.primitives noCell [⟨fetchFrom KnownAnswers.chunk id, []⟩] ∅
    dir.lookup (.drop id) = some KnownAnswers.drop.raw ∧
      HasChunks dir id KnownAnswers.drop.raw ∧ KnownAnswers.drop.raw ∈ logEntries dir := by
  intro id dir
  have hoffer := offer_fetchFrom KnownAnswers.chunk id
  have hraw : dir.lookup (.drop id) = some KnownAnswers.drop.raw := by
    unfold dir
    rw [run_singleton]
    exact (lookup_of_accepted hoffer known_checked ∅).1
  have hclean : CleanRun KnownAnswers.primitives noCell
      [⟨fetchFrom KnownAnswers.chunk id, []⟩] ∅ := by
    refine ⟨fun offer body hoffer' hbody => ?_, trivial⟩
    obtain rfl := Option.some.inj (hoffer.symm.trans hoffer')
    exact Or.inr ⟨quiet_nil _, by decide +kernel, fun _ _ => rfl⟩
  exact ⟨hraw, run_complete KnownAnswers.primitives noCell _ hclean 1 id _ hraw⟩

/-- A peer that has the envelope of the known drop and no chunk. -/
def chunklessPeer : Peer := peerAnswering fun id _ => .missing id

/-- The fetch fails for want of the chunk, and the envelope stays, to be shown and not opened. -/
theorem known_drop_half_stored :
    let id := KnownAnswers.drop.id KnownAnswers.primitives
    let dir := run KnownAnswers.primitives noCell [⟨.fetch chunklessPeer "peer" id.toHex, []⟩] ∅
    readDrop dir id = .ok (KnownAnswers.drop, KnownAnswers.body) ∧
      0 < KnownAnswers.body.chunkCount.toNat ∧ dir.lookup (.chunk id 0) = none ∧
      ¬ Complete dir := by
  intro id dir
  obtain ⟨hdec, -, hbody⟩ := known_drop_accepted
  have hoffer : (Command.fetch chunklessPeer "peer" id.toHex).offer = _ :=
    offer_peerAnswering _ id
  have hdir : dir = Step.run KnownAnswers.primitives noCell _ ∅ := run_singleton _ _ _ _
  have haccepted := @lookup_of_accepted KnownAnswers.primitives noCell _ _ _ hoffer known_checked ∅
  rw [← hdir] at haccepted
  obtain ⟨hraw, hchunks⟩ := haccepted
  have hnone : dir.lookup (.chunk id 0) = none := by
    rw [hchunks 0 (by decide)]
    rfl
  refine ⟨readDrop_ok_iff.mpr ⟨_, hraw, hdec, hbody⟩, by decide, hnone, fun hcomplete => ?_⟩
  have hsome := (hcomplete id _ hraw).1 _ _ hdec hbody 0 (by decide)
  rw [hnone] at hsome
  exact absurd hsome nofun

end Keepstone.Cli
