import Keepstone.Cli.Runs

/-!
# Fetching over a drop that can be opened (`crates/cli/src/main.rs:703-737, 1175-1206`)

A fetch writes what it is sent over what is there: the envelope before any chunk is asked for, and
each chunk as it arrives. It compares neither the envelope with the id that was asked for, nor a
chunk with the content root, nor either with the files it overwrites. A peer is free in all of its
replies, so what is left can be the envelope of one drop with chunks of another.

Results:
* `openDrop_of_same_files`: which files opening depends on;
* **`fetch_keeps_opened_iff`**: which offers leave a drop that can be opened as it was.
-/

namespace Keepstone.Cli

open Keepstone.Lib Keepstone.Crypto Keepstone.Core Keepstone.Store Keepstone.Node

/-- What is in the chunk file at `index` of the id that was asked for, once the offer has been
received over the files of a directory: what was sent, or else what was there. -/
def Offer.chunkOver (offer : Offer) (dir : Dir) (index : Nat) : Option (List UInt8) :=
  (sentAt offer.chunkAt index).or (dir.lookup (.chunk offer.id index))

variable (prim : Primitives)

/-- The keys of a directory give the content key of the offered body, and the offered chunks, with
those that are there where none is sent, decrypt under it to `plaintext`. -/
def Offer.Restores (offer : Offer) (dir : Dir) (body : DropBody) (plaintext : List UInt8) : Prop :=
  ∃ contentKey chunks, Unseals prim dir body contentKey ∧
    (chunks.length = body.chunkCount.toNat ∧ ∀ index (hindex : index < chunks.length),
      offer.chunkOver dir index = some chunks[index]) ∧
    streamDecrypt prim contentKey (framingOf body) chunks = .ok plaintext

variable {prim} {cellAt : Float → Float → UInt8 → Except CoreError String}

/-- What an accepted offer leaves in the files that opening its id depends on. -/
theorem lookup_of_accepted {command : Command} {offer : Offer} {body : DropBody}
    (hoffer : command.offer = some offer) (hbody : checkReceived prim offer.raw = .ok body)
    (dir : Dir) :
    (Step.run prim cellAt ⟨command, []⟩ dir).lookup (.drop offer.id) = some offer.raw ∧
      ∀ index < body.chunkCount.toNat,
        (Step.run prim cellAt ⟨command, []⟩ dir).lookup (.chunk offer.id index) =
          offer.chunkOver dir index := by
  refine ⟨stored_of_received (received_iff.mpr ⟨offer, hoffer, rfl, rfl⟩) hbody dir, ?_⟩
  intro index hindex
  obtain ⟨r, disk, hexec, hchunks, -⟩ := @exec_receiveChunks offer.id offer.chunkAt _
    (quiet_nil (dir.insert (.drop offer.id) offer.raw)) offer.raw body.chunkCount
  rw [run_of_accepted hoffer hbody, hexec, hchunks index hindex,
    AList.lookup_insert_ne (by nofun)]
  rfl

/-- A fetch leaves every file as it is that is neither of the id it asked for nor the log. -/
theorem lookup_of_other {command : Command} {offer : Offer} (hoffer : command.offer = some offer)
    {file : File} (hlog : file ≠ .logEntries) (hdrop : file ≠ .drop offer.id)
    (hchunk : ∀ index, file ≠ .chunk offer.id index) (dir : Dir) :
    (Step.run prim cellAt ⟨command, []⟩ dir).lookup file = dir.lookup file := by
  let same (disk : Disk) : Prop := disk.dir.lookup file = dir.lookup file
  have hother : ∀ other, file ≠ other → Allows same other :=
    fun other h => (ignores_lookup h _).always
  have hkept : same ((receiveDrop prim offer.id offer.raw offer.chunkAt).exec ⟨dir, []⟩).2 :=
    (keeps_receiveDrop (fun index => hother _ (hchunk index)) (hother _ hlog)
      (fun _ _ => (hother _ hdrop).write _) _ _ rfl).1
  unfold Step.run
  rw [exec_of_fetches (fetches_of_offer hoffer), hoffer]
  exact hkept

/-- What the id that was asked for opens to, once an offer has been accepted. -/
theorem opens_over_iff {command : Command} {offer : Offer} {body : DropBody}
    (hoffer : command.offer = some offer) (hbody : checkReceived prim offer.raw = .ok body)
    {dir : Dir} {plaintext : List UInt8} :
    openDrop prim (Step.run prim cellAt ⟨command, []⟩ dir) offer.id = .ok plaintext ↔
      offer.Restores prim dir body plaintext := by
  obtain ⟨hraw, hchunks⟩ := @lookup_of_accepted prim cellAt _ _ _ hoffer hbody dir
  obtain ⟨signed, hdec, hverify, hsigned, hpow⟩ := checkReceived_ok_iff.mp hbody
  have hidentity := @lookup_of_other prim cellAt _ _ hoffer .identity nofun nofun nofun dir
  have hhybrid := @lookup_of_other prim cellAt _ _ hoffer .hybrid nofun nofun nofun dir
  rw [openDrop_accepted_iff hraw hdec hverify hsigned hpow]
  refine exists_congr fun contentKey => exists_congr fun chunks => and_congr ?_ (and_congr_left' ?_)
  · exact ⟨.of_same_keys hidentity.symm hhybrid.symm, .of_same_keys hidentity hhybrid⟩
  · rw [readChunks_ok_iff]
    refine and_congr_right fun hlen => forall_congr' fun index => forall_congr' fun hindex => ?_
    rw [hchunks index (hlen ▸ hindex)]

/-- Opening depends on the keys of the device and on the files of the drop. -/
theorem openDrop_of_same_files {dir dir' : Dir} {id : DropId} {plaintext : List UInt8}
    (hidentity : dir'.lookup .identity = dir.lookup .identity)
    (hhybrid : dir'.lookup .hybrid = dir.lookup .hybrid)
    (hdrop : dir'.lookup (.drop id) = dir.lookup (.drop id))
    (hchunks : ∀ index, dir'.lookup (.chunk id index) = dir.lookup (.chunk id index))
    (hopen : openDrop prim dir id = .ok plaintext) : openDrop prim dir' id = .ok plaintext := by
  obtain ⟨signed, body, contentKey, chunks, h, hplain⟩ := openDrop_ok_iff.mp hopen
  obtain ⟨raw, hraw, hdec⟩ := h.envelope
  have hstored : readChunks dir' id body.chunkCount = .ok chunks := by
    unfold readChunks
    simp only [hchunks]
    exact h.stored
  refine (openDrop_accepted_iff (hdrop.trans hraw) hdec h.verified h.decoded h.pow).mpr ?_
  exact ⟨contentKey, chunks, .of_same_keys hidentity hhybrid h.unsealed, hstored, hplain⟩

/-- **A fetch leaves a drop that opens as it was exactly** when it asks for another one, or accepts
no envelope, or is sent what opens to the same. Nothing else about the peer's replies is checked. -/
theorem fetch_keeps_opened_iff (prim : Primitives)
    (cellAt : Float → Float → UInt8 → Except CoreError String) (command : Command)
    (hfetch : command.Fetches) (dir : Dir) (id : DropId) (plaintext : List UInt8)
    (hopen : openDrop prim dir id = .ok plaintext) :
    openDrop prim (Step.run prim cellAt ⟨command, []⟩ dir) id = .ok plaintext ↔
      ∀ offer body, command.offer = some offer → checkReceived prim offer.raw = .ok body →
        offer.id = id → offer.Restores prim dir body plaintext := by
  by_cases haccepted : ∃ offer body, command.offer = some offer ∧
      checkReceived prim offer.raw = .ok body
  case neg =>
    have hsame : Step.run prim cellAt ⟨command, []⟩ dir = dir := by
      unfold Step.run
      rw [exec_of_refused hfetch haccepted]
    rw [hsame]
    exact iff_of_true hopen fun offer body hoffer hbody =>
      absurd ⟨offer, body, hoffer, hbody⟩ haccepted
  case pos =>
    obtain ⟨offer, body, hoffer, hbody⟩ := haccepted
    by_cases hid : offer.id = id
    · subst hid
      rw [opens_over_iff hoffer hbody]
      constructor
      · intro h offer' body' hoffer' hbody' _
        obtain rfl := Option.some.inj (hoffer.symm.trans hoffer')
        obtain rfl := Except.ok.inj (hbody.symm.trans hbody')
        exact h
      · intro h
        exact h offer body hoffer hbody rfl
    · have hother : ∀ file : File, file ≠ .logEntries → file ≠ .drop offer.id →
          (∀ index, file ≠ .chunk offer.id index) →
          (Step.run prim cellAt ⟨command, []⟩ dir).lookup file = dir.lookup file :=
        fun file hlog hdrop hchunk => lookup_of_other hoffer hlog hdrop hchunk dir
      refine iff_of_true ?_ ?_
      · refine openDrop_of_same_files ?_ ?_ ?_ (fun index => ?_) hopen
        · exact hother .identity nofun nofun nofun
        · exact hother .hybrid nofun nofun nofun
        · exact hother (.drop id) nofun (fun h => hid (File.drop.inj h).symm) nofun
        · exact hother (.chunk id index) nofun nofun fun _ h => hid (File.chunk.inj h).1.symm
      · intro offer' body' hoffer' hbody' hid'
        obtain rfl := Option.some.inj (hoffer.symm.trans hoffer')
        exact absurd hid' hid

/-! ### Fetching the known drop again -/

/-- A peer that has the envelope of the known drop, and its own answer to a request for a chunk. -/
def peerAnswering (answer : DropId → UInt32 → Message) : Peer := fun request =>
  { connect := .ok ()
    greeting := .ok (some (.hello 1))
    reply := match request with
      | .wantChunk id index => .ok (some (answer id index))
      | _ => .ok (some (.drop KnownAnswers.drop.raw)) }

theorem offer_peerAnswering (answer : DropId → UInt32 → Message) (id : DropId) :
    (Command.fetch (peerAnswering answer) "peer" id.toHex).offer =
      some ⟨id, KnownAnswers.drop.raw, chunkFrom (peerAnswering answer) id⟩ := by
  simp only [Command.offer, DropId.fromHex_toHex]
  rfl

/-- Fetching `id` from a peer that sends `chunk` for every chunk. -/
def fetchFrom (chunk : List UInt8) (id : DropId) : Command :=
  .fetch (peerAnswering fun id index => .chunk id index chunk) "peer" id.toHex

theorem offer_fetchFrom (chunk : List UInt8) (id : DropId) :
    (fetchFrom chunk id).offer = some ⟨id, KnownAnswers.drop.raw, fun _ => .ok chunk⟩ :=
  offer_peerAnswering _ id

theorem chunkOver_fetchFrom (chunk : List UInt8) (id : DropId) (dir : Dir) (index : Nat) :
    Offer.chunkOver ⟨id, KnownAnswers.drop.raw, fun _ => .ok chunk⟩ dir index = some chunk := by
  unfold Offer.chunkOver
  rw [sentAt_of_isOk fun _ _ => rfl]
  rfl

/-- The known drop is fetched again from a peer that has it. -/
theorem known_drop_fetched_again :
    let id := KnownAnswers.drop.id KnownAnswers.primitives
    let dir := knownDir id KnownAnswers.chunk
    openDrop KnownAnswers.primitives dir id = .ok (utf8 "hello") ∧
      openDrop KnownAnswers.primitives
        (Step.run KnownAnswers.primitives noCell ⟨fetchFrom KnownAnswers.chunk id, []⟩ dir) id =
        .ok (utf8 "hello") := by
  intro id dir
  have hunlocks := known_unlocks id KnownAnswers.chunk
  have hplain : streamDecrypt KnownAnswers.primitives KnownAnswers.contentKey
      (framingOf KnownAnswers.body) [KnownAnswers.chunk] = .ok (utf8 "hello") := by
    decide +kernel
  have hopen : openDrop KnownAnswers.primitives dir id = .ok (utf8 "hello") :=
    openDrop_ok_iff.mpr ⟨_, _, _, _, hunlocks, hplain⟩
  refine ⟨hopen, (fetch_keeps_opened_iff KnownAnswers.primitives noCell
    (fetchFrom KnownAnswers.chunk id) trivial dir id _ hopen).mpr ?_⟩
  intro offer body hoffer hbody _
  obtain rfl := Option.some.inj ((offer_fetchFrom _ _).symm.trans hoffer)
  obtain rfl := Except.ok.inj (known_checked.symm.trans hbody)
  refine ⟨KnownAnswers.contentKey, [KnownAnswers.chunk], hunlocks.unsealed, ⟨rfl, ?_⟩, hplain⟩
  intro index hindex
  obtain rfl := Nat.lt_one_iff.mp hindex
  exact chunkOver_fetchFrom _ _ _ _

/-- The peer sends the envelope of the known drop and an empty chunk: what could be opened before
the fetch cannot be opened any more. -/
theorem known_drop_destroyed :
    let id := KnownAnswers.drop.id KnownAnswers.primitives
    let dir := knownDir id KnownAnswers.chunk
    openDrop KnownAnswers.primitives dir id = .ok (utf8 "hello") ∧
      openDrop KnownAnswers.primitives
        (Step.run KnownAnswers.primitives noCell ⟨fetchFrom [] id, []⟩ dir) id =
        .error (.invalid "decryption failed") := by
  intro id dir
  obtain ⟨hdec, hverify, hbody⟩ := known_drop_accepted
  have hoffer := offer_fetchFrom [] id
  obtain ⟨hraw, hchunks⟩ := @lookup_of_accepted KnownAnswers.primitives noCell _ _ _ hoffer
    known_checked dir
  have hidentity := (lookup_knownDir id KnownAnswers.chunk).1
  have hsame := @lookup_of_other KnownAnswers.primitives noCell _ _ hoffer .identity nofun nofun
    nofun dir
  have hchunk := (hchunks 0 (by decide)).trans (chunkOver_fetchFrom [] id dir 0)
  have hunlocks := recipient_unlocks (hsame.trans hidentity) hraw hchunk hdec hverify hbody
    known_drop_work rfl rfl rfl
  constructor
  · rw [(known_unlocks id KnownAnswers.chunk).openDrop_eq]
    decide +kernel
  · rw [hunlocks.openDrop_eq]
    decide +kernel

end Keepstone.Cli
