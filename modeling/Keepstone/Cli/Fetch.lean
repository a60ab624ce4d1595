import Keepstone.Node.Net
import Keepstone.Store.Log
import Keepstone.Store.Opening

/-!
# Fetching a drop (`crates/cli/src/main.rs:417-427, 497-499, 703-737, 1150-1206`)

`fetch` and `p2p_fetch` differ in how they ask the peer and in their messages; what they do with
the answers is `receiveDrop`. The envelope is stored under the id that was asked for, before the
chunks are asked for. What is printed at the end is left out.

Results:
* `checkReceived_ok_iff`: which envelopes are accepted;
* `keeps_receiveDrop`: what the two can do to a directory.
-/

namespace Keepstone.Cli

open Keepstone.Lib Keepstone.Crypto Keepstone.Core Keepstone.Store Keepstone.Node

variable (prim : Primitives)

/-- `anyhow::Error`: an error of a library or a message, with messages put around it. -/
inductive CliError where
  | core (error : CoreError)
  | io (error : IoError)
  | p2p (error : P2pError)
  | store (error : StoreError)
  | log (error : Log.LogError)
  /-- Reported by the standard library or the `hex` crate about a text or a number. -/
  | conversion
  | message (text : String)
  | context (text : String) (cause : CliError)
  deriving DecidableEq

/-- `append_log_entry`: opens the store first. -/
def appendLogEntry (raw : List UInt8) : Program StoreError Disk Unit := do
  createDirAll.mapErr .io
  Store.appendLogEntry raw

/-- The checks on an envelope from a peer. -/
def checkReceived (raw : List UInt8) : Except CliError DropBody := do
  let signed ← (SignedDrop.decode raw).mapError .core
  (signed.verify prim).mapError fun e => .context "peer sent an invalid signature" (.core e)
  let body ← signed.body.mapError .core
  check (body.powOk prim signed.signer) (.message "peer sent a drop with invalid proof-of-work")
  pure body

/-- Asking for the chunks with `chunkAt`, storing them, and appending to the log. -/
def receiveChunks (id : DropId) (raw : List UInt8) (count : UInt32)
    (chunkAt : Nat → Except CliError (List UInt8)) : Program CliError Disk Unit := do
  let _ ← createDirAll.ok
  forM (List.range count.toNat) fun index => do
    let chunk ← .ofExcept (chunkAt index)
    (write (.chunk id index) chunk).mapErr .io
  let _ ← (appendLogEntry raw).ok
  pure ()

/-- What both fetches do with an envelope: check it, store it under `id`, then fetch the rest. -/
def receiveDrop (id : DropId) (raw : List UInt8) (chunkAt : Nat → Except CliError (List UInt8)) :
    Program CliError Disk Unit := do
  let body ← .ofExcept (checkReceived prim raw)
  let _ ← createDirAll.ok
  (write (.drop id) raw).mapErr fun e => .context "writing fetched drop" (.io e)
  receiveChunks id raw body.chunkCount chunkAt

/-- The chunk `fetch` asks for at one turn of its loop. -/
def chunkFrom (peer : Peer) (id : DropId) (index : Nat) : Except CliError (List UInt8) := do
  let chunk ← (fetchChunk peer id (UInt32.ofNat index)).mapError fun e =>
    .context ("fetching chunk " ++ toString index) (.io e)
  okOr chunk (.message ("peer is missing chunk " ++ toString index))

/-- `fetch`. -/
def fetch (peer : Peer) (peerText idText : String) : Program CliError Disk Unit := do
  let id ← .ofExcept ((DropId.fromHex idText).mapError .core)
  let reply ← .ofExcept ((Node.fetch peer id).mapError fun e =>
    .context ("fetching " ++ idText ++ " from " ++ peerText) (.io e))
  let raw ← .ofExcept (okOr reply (.message ("peer does not have drop " ++ idText)))
  receiveDrop prim id raw (chunkFrom peer id)

/-- The chunk `p2p_fetch` asks for at one turn of its loop. -/
def p2pChunkFrom (peer : P2pPeer) (id : DropId) (index : Nat) : Except CliError (List UInt8) := do
  let chunk ← (p2pFetchChunk peer id (UInt32.ofNat index)).mapError .p2p
  okOr chunk (.message ("peer is missing chunk " ++ toString index))

/-- `p2p_fetch`. Parsing the address gives the peer. -/
def p2pFetch (address : Option P2pPeer) (peerText idText : String) :
    Program CliError Disk Unit := do
  let peer ← .ofExcept (okOr address (.message ("invalid multiaddr: " ++ peerText)))
  let id ← .ofExcept ((DropId.fromHex idText).mapError .core)
  let reply ← .ofExcept ((p2pFetchDrop peer id).mapError .p2p)
  let raw ← .ofExcept (okOr reply (.message ("peer does not have drop " ++ idText)))
  receiveDrop prim id raw (p2pChunkFrom peer id)

/-! ## Accepted envelopes -/

variable {prim}

/-- What an accepted envelope has passed. -/
theorem checkReceived_ok_iff {raw : List UInt8} {body : DropBody} :
    checkReceived prim raw = .ok body ↔
      ∃ signed, SignedDrop.decode raw = .ok signed ∧ signed.verify prim = .ok () ∧
        signed.body = .ok body ∧ body.powOk prim signed.signer = true := by
  unfold checkReceived
  simp only [bind_ok_iff, mapError_ok_iff, check_ok_iff, pure_ok_iff]
  constructor
  · rintro ⟨signed, hdecode, ⟨⟩, hverify, _, hbody, ⟨⟩, hpow, rfl⟩
    exact ⟨signed, hdecode, hverify, hbody, hpow⟩
  · rintro ⟨signed, hdecode, hverify, hbody, hpow⟩
    exact ⟨signed, hdecode, (), hverify, body, hbody, (), hpow, rfl⟩

/-- A fetch that is sent an envelope goes on to `receiveDrop`. -/
theorem exec_fetch {peer : Peer} {id : DropId} {raw : List UInt8} {idText peerText : String}
    (hid : DropId.fromHex idText = .ok id) (hreply : Node.fetch peer id = .ok (some raw))
    (disk : Disk) :
    (fetch prim peer peerText idText).exec disk =
      (receiveDrop prim id raw (chunkFrom peer id)).exec disk := by
  unfold fetch
  rw [Program.exec_ofExcept_bind (mapError_ok_iff.mpr hid),
    Program.exec_ofExcept_bind (mapError_ok_iff.mpr hreply),
    Program.exec_ofExcept_bind (okOr_ok_iff.mpr rfl)]

/-- One turn of the loop over the chunks. -/
def receiveChunk (id : DropId) (chunkAt : Nat → Except CliError (List UInt8)) (index : Nat) :
    Program CliError Disk Unit := do
  let chunk ← .ofExcept (chunkAt index)
  (write (.chunk id index) chunk).mapErr .io

/-- The end of `receiveChunks`: an error of the log is dropped. -/
def logReceived (raw : List UInt8) : Program CliError Disk Unit := do
  let _ ← (appendLogEntry raw).ok
  pure ()

theorem receiveChunks_eq (id : DropId) (raw : List UInt8) (count : UInt32)
    (chunkAt : Nat → Except CliError (List UInt8)) :
    receiveChunks id raw count chunkAt = (do
      let _ ← createDirAll.ok
      forM (List.range count.toNat) (receiveChunk id chunkAt)
      logReceived raw) := rfl

/-! ## Invariants -/

section Invariant

variable {I : Disk → Prop} {id : DropId}

theorem keeps_logReceived (hlog : Allows I .logEntries) (raw : List UInt8) :
    Keeps I (logReceived raw) fun _ => True := by
  have happend : Keeps I (appendLogEntry raw) fun _ => True :=
    (hlog.createDirAll.mapErr _).bind fun _ _ => keeps_appendLogEntry hlog raw
  exact happend.ok.bind fun _ _ => Keeps.pure trivial

theorem keeps_chunkLoop (hchunk : ∀ index, Allows I (.chunk id index))
    (chunkAt : Nat → Except CliError (List UInt8)) (count : Nat) :
    Keeps I (forM (List.range count) (receiveChunk id chunkAt)) fun _ => True := by
  refine Keeps.forM _ fun index _ => ?_
  exact (Keeps.ofExcept _).bind fun _ _ => ((hchunk index).write _).mapErr _

theorem keeps_receiveChunks (hchunk : ∀ index, Allows I (.chunk id index))
    (hlog : Allows I .logEntries) (raw : List UInt8) (count : UInt32)
    (chunkAt : Nat → Except CliError (List UInt8)) :
    Keeps I (receiveChunks id raw count chunkAt) fun _ => True := by
  rw [receiveChunks_eq]
  refine hlog.createDirAll.ok.bind fun _ _ => ?_
  refine (keeps_chunkLoop hchunk chunkAt count.toNat).bind fun _ _ => ?_
  exact keeps_logReceived hlog raw

/-- What follows the envelope leaves all envelopes as they are. -/
theorem lookup_drop_receiveChunks (raw : List UInt8) (count : UInt32)
    (chunkAt : Nat → Except CliError (List UInt8)) (disk : Disk) (other : DropId) :
    ((receiveChunks id raw count chunkAt).exec disk).2.dir.lookup (.drop other) =
      disk.dir.lookup (.drop other) :=
  (keeps_receiveChunks (I := fun disk' => disk'.dir.lookup (.drop other) = _)
    (fun _ => (ignores_lookup (by nofun) _).always) (ignores_lookup (by nofun) _).always
    raw count chunkAt disk rfl).1

theorem keeps_receiveDrop {raw : List UInt8} (hchunk : ∀ index, Allows I (.chunk id index))
    (hlog : Allows I .logEntries)
    (hdrop : ∀ body, checkReceived prim raw = .ok body →
      Keeps I (write (.drop id) raw) fun _ => True)
    (chunkAt : Nat → Except CliError (List UInt8)) :
    Keeps I (receiveDrop prim id raw chunkAt) fun _ => True := by
  refine (Keeps.ofExcept _).bind fun body hbody => ?_
  refine hlog.createDirAll.ok.bind fun _ _ => ?_
  refine ((hdrop body hbody).mapErr _).bind fun _ _ => ?_
  exact keeps_receiveChunks hchunk hlog raw body.chunkCount chunkAt

end Invariant

/-! ## What is stored -/

section Stored

variable {id : DropId} {chunkAt : Nat → Except CliError (List UInt8)}

/-- The chunk that is received at `index`, if every request up to there is answered with one. -/
def sentAt (chunkAt : Nat → Except CliError (List UInt8)) (index : Nat) : Option (List UInt8) :=
  if ∀ earlier < index, (chunkAt earlier).isOk then (chunkAt index).toOption else none

theorem sentAt_of_isOk {index : Nat} (h : ∀ earlier < index, (chunkAt earlier).isOk) :
    sentAt chunkAt index = (chunkAt index).toOption := if_pos h

/-- Where all chunks are received, each of them is. -/
theorem sentAt_of_all {count index : Nat} (h : ∀ earlier < count, (chunkAt earlier).isOk)
    (hindex : index < count) :
    ∃ chunk, chunkAt index = .ok chunk ∧ sentAt chunkAt index = some chunk := by
  have hsent := sentAt_of_isOk fun earlier he => h earlier (Nat.lt_trans he hindex)
  have hok := h index hindex
  cases hchunk : chunkAt index with
  | error e =>
    rw [hchunk] at hok
    exact absurd hok nofun
  | ok chunk => exact ⟨chunk, rfl, by rw [hsent, hchunk]; rfl⟩

/-- A turn, on a disk that fails no call. -/
theorem exec_receiveChunk {disk : Disk} (hquiet : disk.Quiet) (index : Nat) :
    ∃ r disk', (receiveChunk id chunkAt index).exec disk = (r, disk') ∧ disk'.Quiet ∧
      r.isOk = (chunkAt index).isOk ∧
      ∀ other, disk'.dir.lookup (.chunk id other) =
        if other = index then (chunkAt index).toOption.or (disk.dir.lookup (.chunk id other))
        else disk.dir.lookup (.chunk id other) := by
  unfold receiveChunk
  cases hchunk : chunkAt index with
  | error e =>
    refine ⟨_, disk, Program.exec_bind_error rfl _, hquiet, rfl, fun other => ?_⟩
    exact (ite_self _).symm
  | ok chunk =>
    refine ⟨.ok (), ⟨disk.dir.insert (.chunk id index) chunk, disk.outcomes.tail⟩, ?_,
      hquiet.tail _, rfl, fun other => ?_⟩
    · rw [Program.exec_ofExcept_bind rfl]
      exact Program.exec_mapErr_ok (exec_call hquiet _ _)
    · by_cases heq : other = index
      · rw [if_pos heq, heq, AList.lookup_insert]
        rfl
      · rw [if_neg heq, AList.lookup_insert_ne fun h => heq (File.chunk.inj h).2]

/-- The loop over the first `count` chunks, on a disk that fails no call: it returns if all of them
are received, and those before the first that is not are stored. -/
theorem exec_chunkLoop {disk : Disk} (hquiet : disk.Quiet) (count : Nat) :
    ∃ r disk', (forM (List.range count) (receiveChunk id chunkAt)).exec disk = (r, disk') ∧
      disk'.Quiet ∧ (r.isOk ↔ ∀ index < count, (chunkAt index).isOk) ∧
      ∀ index, disk'.dir.lookup (.chunk id index) =
        if index < count then (sentAt chunkAt index).or (disk.dir.lookup (.chunk id index))
        else disk.dir.lookup (.chunk id index) := by
  induction count with
  | zero => exact ⟨_, _, rfl, hquiet, ⟨fun _ => nofun, fun _ => rfl⟩, fun _ => rfl⟩
  | succ count ih =>
    obtain ⟨r, disk', hexec, hquiet', hok, hlookup⟩ := ih
    rw [List.range_succ, List.forM_append]
    cases r with
    | error e =>
      -- a chunk before this one was not received, and nothing more is stored
      have hsome : ¬ ∀ index < count, (chunkAt index).isOk := fun h => absurd (hok.mpr h) nofun
      refine ⟨_, disk', Program.exec_bind_error hexec _, hquiet', ?_, fun index => ?_⟩
      · exact iff_of_false nofun fun h => hsome fun index hi => h index (Nat.lt_succ_of_lt hi)
      · rw [hlookup]
        rcases lt_trichotomy index count with hlt | rfl | hgt
        · rw [if_pos hlt, if_pos (Nat.lt_succ_of_lt hlt)]
        · rw [if_neg (lt_irrefl _), if_pos (Nat.lt_succ_self _), sentAt, if_neg hsome,
            Option.none_or]
        · rw [if_neg (by omega), if_neg (by omega)]
    | ok u =>
      have hall := hok.mp rfl
      obtain ⟨r', disk'', hturn, hquiet'', hok', hlookup'⟩ :=
        @exec_receiveChunk id chunkAt disk' hquiet' count
      have hexec' : (forM (List.range count) (receiveChunk id chunkAt) >>= fun _ =>
          forM [count] (receiveChunk id chunkAt)).exec disk = (r', disk'') := by
        rw [Program.exec_bind_ok hexec, List.forM_cons, List.forM_nil, bind_pure_unit, hturn]
      refine ⟨r', disk'', hexec', hquiet'', ?_, fun index => ?_⟩
      · rw [hok', Nat.forall_lt_succ_right]
        exact ⟨fun h => ⟨hall, h⟩, fun h => h.2⟩
      · rw [hlookup', hlookup]
        rcases lt_trichotomy index count with hlt | rfl | hgt
        · rw [if_neg hlt.ne, if_pos hlt, if_pos (Nat.lt_succ_of_lt hlt)]
        · rw [if_pos rfl, if_neg (lt_irrefl _), if_pos (Nat.lt_succ_self _), sentAt_of_isOk hall]
        · rw [if_neg hgt.ne', if_neg (by omega), if_neg (by omega)]

/-- An envelope whose length fits is logged. -/
theorem exec_logReceived {raw : List UInt8} (hraw : Fits 4 raw) {disk : Disk}
    (hquiet : disk.Quiet) :
    ∃ disk', (logReceived raw).exec disk = (.ok (), disk') ∧
      logBytes disk'.dir = logBytes disk.dir ++ record 4 raw := by
  have happends : AppendsLog (appendLogEntry raw) ([] ++ record 4 raw) :=
    (AppendsLog.createDirAll.mapErr _).bind (appendsLog_appendLogEntry hraw)
  have hreturns : Returns Disk.Quiet (appendLogEntry raw) :=
    ((returns_call _ _).mapErr _).bind fun _ => returns_appendLogEntry hraw
  obtain ⟨⟨⟩, disk', hexec, -⟩ := hreturns disk hquiet
  have hwhole := happends.whole disk
  rw [hexec] at hwhole
  refine ⟨disk', ?_, hwhole rfl⟩
  have hdropped : ((appendLogEntry raw).ok : Program CliError Disk (Option Unit)).exec disk =
      (.ok (some ()), disk') := by
    rw [Program.ok, Program.exec_step, hexec]
    rfl
  unfold logReceived
  rw [Program.exec_bind_ok hdropped]
  rfl

/-- If the chunks are stored and the fetch goes on, all of them were received. -/
theorem isOk_of_exec_receiveChunks {disk disk' : Disk} (hquiet : disk.Quiet) {raw : List UInt8}
    {count : UInt32} (h : (receiveChunks id raw count chunkAt).exec disk = (.ok (), disk')) :
    ∀ index < count.toNat, (chunkAt index).isOk := by
  obtain ⟨made, hmade⟩ := @exec_createDirAll_ok CliError disk
  obtain ⟨r, looped, hloop, -, hok, -⟩ :=
    @exec_chunkLoop id chunkAt _ (hquiet.tail disk.dir) count.toNat
  rw [receiveChunks_eq, Program.exec_bind_ok hmade] at h
  obtain ⟨u, _, hreturned, -⟩ := Program.exec_bind_eq_ok h
  obtain rfl := congrArg Prod.fst (hloop.symm.trans hreturned)
  exact hok.mp rfl

/-- The chunks that are received are stored, and when all are, the envelope is logged. -/
theorem exec_receiveChunks {disk : Disk} (hquiet : disk.Quiet) (raw : List UInt8)
    (count : UInt32) :
    ∃ r disk', (receiveChunks id raw count chunkAt).exec disk = (r, disk') ∧
      (∀ index < count.toNat, disk'.dir.lookup (.chunk id index) =
        (sentAt chunkAt index).or (disk.dir.lookup (.chunk id index))) ∧
      ((∀ index < count.toNat, (chunkAt index).isOk) → Fits 4 raw →
        r = .ok () ∧ logBytes disk'.dir = logBytes disk.dir ++ record 4 raw) := by
  obtain ⟨made, hmade⟩ := @exec_createDirAll_ok CliError disk
  obtain ⟨r, looped, hloop, hquiet', hok, hlookup⟩ :=
    @exec_chunkLoop id chunkAt _ (hquiet.tail disk.dir) count.toNat
  rw [receiveChunks_eq, Program.exec_bind_ok hmade]
  refine ⟨_, _, rfl, fun index hindex => ?_, fun hall hraw => ?_⟩
  · -- the log entry touches no chunk
    let there (disk' : Disk) : Prop := disk'.dir.lookup (.chunk id index) =
      (sentAt chunkAt index).or (disk.dir.lookup (.chunk id index))
    have hlog : Allows there .logEntries := (ignores_lookup (by nofun) _).always
    have hlooped : there ((forM (List.range count.toNat) (receiveChunk id chunkAt)).exec
        ⟨disk.dir, disk.outcomes.tail⟩).2 := by
      rw [hloop]
      exact (hlookup index).trans (if_pos hindex)
    exact Keeps.after_bind hlooped fun _ => keeps_logReceived hlog raw
  · obtain ⟨⟨⟩, rfl⟩ := isOk_iff.mp (hok.mpr hall)
    obtain ⟨logged, hlogged, hbytes⟩ := exec_logReceived hraw hquiet'
    -- no chunk touches the log
    have hkept : Keeps (fun disk' => logBytes disk'.dir = logBytes disk.dir)
        (forM (List.range count.toNat) (receiveChunk id chunkAt)) fun _ => True :=
      keeps_chunkLoop (fun _ => (ignores_logBytes (by nofun) _).always) chunkAt count.toNat
    have hsame : logBytes looped.dir = logBytes disk.dir := hkept.after (by rfl) hloop
    have hexec : (forM (List.range count.toNat) (receiveChunk id chunkAt) >>= fun _ =>
        logReceived raw).exec ⟨disk.dir, disk.outcomes.tail⟩ = (.ok (), logged) := by
      rw [Program.exec_bind_ok hloop, hlogged]
    refine ⟨congrArg Prod.fst hexec, ?_⟩
    rw [← hsame, ← hbytes]
    exact congrArg (logBytes ·.2.dir) hexec

/-- An accepted envelope is stored first, under the id that was asked for. -/
theorem exec_receiveDrop {raw : List UInt8} {body : DropBody}
    (hbody : checkReceived prim raw = .ok body) {disk : Disk}
    (hquiet : Disk.Quiet ⟨disk.dir, disk.outcomes.tail⟩) :
    (receiveDrop prim id raw chunkAt).exec disk =
      (receiveChunks id raw body.chunkCount chunkAt).exec
        ⟨disk.dir.insert (.drop id) raw, disk.outcomes.tail.tail⟩ := by
  obtain ⟨made, hmade⟩ := @exec_createDirAll_ok CliError disk
  have hwrite : (write (.drop id) raw).exec ⟨disk.dir, disk.outcomes.tail⟩ =
      (.ok (), ⟨disk.dir.insert (.drop id) raw, disk.outcomes.tail.tail⟩) := exec_call hquiet _ _
  unfold receiveDrop
  rw [Program.exec_ofExcept_bind hbody, Program.exec_bind_ok hmade,
    Program.exec_bind_ok (Program.exec_mapErr_ok hwrite)]

end Stored

end Keepstone.Cli
