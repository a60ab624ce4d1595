import Keepstone.Cli.Completeness
import Keepstone.Cli.Loading

/-!
# Handing a drop on (`crates/cli/src/main.rs:655-737, 849-869`)

`serve` loads the envelopes and chunks of a directory into memory and answers requests from there;
`push` hands one drop of a directory to a relay, which does the same. Either way another directory
can then `fetch` it. `push` asks for the files of the drop by their paths, and `serve` for whatever
reads as one of them.

Results:
* `exec_push`: what a relay holds after a push;
* `delivers_of_served`: a peer that serves a drop delivers it;
* `delivers_relayPeer_iff`: a relay delivers a drop exactly when it holds it as it is;
* **`transfer_lossless`**: pushed, a drop arrives as it was sent, and is logged once; served, it
  does exactly when no other file is read as a part of it.
-/

namespace Keepstone.Cli

open Keepstone.Lib Keepstone.Crypto Keepstone.Core Keepstone.Store Keepstone.Node

variable (prim : Primitives)

/-! ## Pushing -/

/-- The path of a chunk in the directory that the user calls `dirText`. -/
def chunkPath (dirText : String) (id : DropId) (index : Nat) : String :=
  dirText ++ "/chunks/" ++ id.toHex ++ "/" ++ toString index ++ ".bin"

/-- The chunk at `index` of a drop is pushed. -/
def pushStored (dir : Dir) (dirText : String) (id : DropId) (index : Nat) :
    Program CliError MemoryStore Unit := do
  let data ← .ofExcept (okOr (dir.lookup (.chunk id index))
    (.context ("reading " ++ chunkPath dirText id index) (.io .system)))
  let confirmed ← (pushChunk prim id (UInt32.ofNat index) data).mapErr .io
  .ofExcept (check confirmed (.message ("peer rejected chunk " ++ toString index)))

/-- `push` to a relay, on the relay's store. -/
def push (dir : Dir) (dirText idText : String) : Program CliError MemoryStore Unit := do
  let id ← .ofExcept ((DropId.fromHex idText).mapError .core)
  let raw ← .ofExcept (okOr (dir.lookup (.drop id))
    (.context ("no such drop: " ++ idText) (.io .system)))
  let signed ← .ofExcept ((SignedDrop.decode raw).mapError .core)
  let body ← .ofExcept (signed.body.mapError .core)
  let confirmed ← (pushDrop prim raw).mapErr .io
  .ofExcept (check confirmed (.message "peer rejected the drop"))
  forM (List.range body.chunkCount.toNat) (pushStored prim dir dirText id)

theorem uint32_ofNat_inj {m n : Nat} (hm : m < 2 ^ 32) (hn : n < 2 ^ 32)
    (h : UInt32.ofNat m = UInt32.ofNat n) : m = n := by
  have hnat := congrArg UInt32.toNat h
  rwa [UInt32.toNat_ofNat_of_lt' hm, UInt32.toNat_ofNat_of_lt' hn] at hnat

/-! ## Delivering -/

/-- A drop that can be handed on: it is under its hash, passes the checks of a fetch, has its
chunks, and fits the frames of the messages that will carry it. -/
structure Sendable (dir : Dir) (id : DropId) (raw : List UInt8) (body : DropBody) : Prop where
  /-- The envelope is there. -/
  stored : dir.lookup (.drop id) = some raw
  /-- It is under its hash. -/
  address : DropId.of prim raw = id
  /-- It verifies, with valid work. -/
  accepted : ∃ signed, SignedDrop.decode raw = .ok signed ∧ signed.verify prim = .ok () ∧
    signed.body = .ok body ∧ body.powOk prim signed.signer = true
  /-- Its chunks are there. -/
  chunks : ∀ index < body.chunkCount.toNat, ∃ data, dir.lookup (.chunk id index) = some data
  /-- The envelope fits a frame. -/
  fits : ∀ message ∈ [Message.drop raw, .put raw], message.encode.length ≤ maxFrame
  /-- Each chunk fits a frame. -/
  chunkFits : ∀ index < body.chunkCount.toNat, ∀ data, dir.lookup (.chunk id index) = some data →
    ∀ message ∈ [Message.chunk id (UInt32.ofNat index) data,
      .putChunk id (UInt32.ofNat index) data], message.encode.length ≤ maxFrame

/-- Fetching `id` from `peer` into `dir'` returns, leaves there the envelope and the chunks that
`dir` has, and adds the envelope to the log. -/
def Delivers (peer : Peer) (peerText idText : String) (id : DropId) (raw : List UInt8)
    (count : Nat) (dir dir' : Dir) : Prop :=
  ∃ disk, (fetch prim peer peerText idText).exec ⟨dir', []⟩ = (.ok (), disk) ∧
    disk.dir.lookup (.drop id) = dir.lookup (.drop id) ∧
    (∀ index < count, disk.dir.lookup (.chunk id index) = dir.lookup (.chunk id index)) ∧
    logEntries disk.dir = logEntries dir' ++ [raw]

section Delivering

variable {prim} {dir dir' : Dir} {id : DropId} {raw : List UInt8} {body : DropBody}

/-- The log takes every envelope that fits a frame. -/
theorem Sendable.fits_log (h : Sendable prim dir id raw body) : Fits 4 raw := by
  have hle := h.fits _ List.mem_cons_self
  have hbytes : raw.length ≤ (Message.drop raw).encode.length := by
    rw [Message.encode, tagged, Encoder.bytes]
    simp only [List.length_append]
    omega
  have hmax : maxFrame < 256 ^ 4 := by decide
  exact (hbytes.trans hle).trans_lt hmax

/-- **A peer that serves a drop delivers it.** -/
theorem delivers_of_served {peer : Peer} {idText : String} (hid : DropId.fromHex idText = .ok id)
    (h : Sendable prim dir id raw body) (hlog : WholeLog dir')
    (hfetch : Node.fetch peer id = .ok (some raw))
    (hchunk : ∀ index < body.chunkCount.toNat, ∀ data, dir.lookup (.chunk id index) = some data →
      fetchChunk peer id (UInt32.ofNat index) = .ok (some data)) (peerText : String) :
    Delivers prim peer peerText idText id raw body.chunkCount.toNat dir dir' := by
  have hbody : checkReceived prim raw = .ok body := checkReceived_ok_iff.mpr h.accepted
  have hsent : ∀ index < body.chunkCount.toNat, ∀ data, dir.lookup (.chunk id index) = some data →
      chunkFrom peer id index = .ok data := by
    intro index hindex data hdata
    unfold chunkFrom
    rw [hchunk index hindex data hdata]
    rfl
  have hall : ∀ index < body.chunkCount.toNat, (chunkFrom peer id index).isOk := by
    intro index hindex
    obtain ⟨data, hdata⟩ := h.chunks index hindex
    rw [hsent index hindex data hdata]
    rfl
  have hquiet := quiet_nil (dir'.insert (.drop id) raw)
  obtain ⟨r, disk, hexec, hlookup, hlogged⟩ :=
    @exec_receiveChunks id (chunkFrom peer id) _ hquiet raw body.chunkCount
  obtain ⟨rfl, hbytes⟩ := hlogged hall h.fits_log
  have hreceived : (fetch prim peer peerText idText).exec ⟨dir', []⟩ = (.ok (), disk) := by
    rw [exec_fetch hid hfetch, ← hexec]
    exact exec_receiveDrop hbody (quiet_nil dir')
  refine ⟨disk, hreceived, ?_, fun index hindex => ?_, ?_⟩
  · have hkept := @lookup_drop_receiveChunks id raw body.chunkCount (chunkFrom peer id)
      ⟨dir'.insert (.drop id) raw, []⟩ id
    rw [hexec] at hkept
    rw [hkept, AList.lookup_insert, h.stored]
  · obtain ⟨data, hdata⟩ := h.chunks index hindex
    obtain ⟨chunk, hok, hat⟩ := sentAt_of_all hall hindex
    obtain rfl := Except.ok.inj (hok.symm.trans (hsent index hindex data hdata))
    rw [hlookup index hindex, hat, hdata]
    rfl
  · have hsame : logBytes (dir'.insert (.drop id) raw) = logBytes dir' :=
      ignores_logBytes (by nofun) _ dir' raw rfl
    exact (hlog.append h.fits_log (by rw [hbytes, hsame])).1

/-! ## Pushing a drop -/

/-- The loop of `push` over the chunks. -/
theorem exec_pushLoop {dirText : String} {count : Nat}
    (hchunks : ∀ index < count, ∃ data, dir.lookup (.chunk id index) = some data ∧
      (Message.putChunk id (UInt32.ofNat index) data).encode.length ≤ maxFrame)
    (hcount : count ≤ 2 ^ 32) (store : MemoryStore) :
    ∃ store', (forM (List.range count) (pushStored prim dir dirText id)).exec store =
      (.ok (), store') ∧ store'.getDrop id = store.getDrop id ∧
      ∀ index < count, store'.getChunk id (UInt32.ofNat index) =
        dir.lookup (.chunk id index) := by
  induction count with
  | zero => exact ⟨store, rfl, rfl, fun _ hindex => absurd hindex (Nat.not_lt_zero _)⟩
  | succ count ih =>
    obtain ⟨store', hexec, hdrop, hheld⟩ :=
      ih (fun index hindex => hchunks index (Nat.lt_succ_of_lt hindex)) (Nat.le_of_succ_le hcount)
    obtain ⟨data, hdata, hle⟩ := hchunks count (Nat.lt_succ_self count)
    have hturn : (pushStored prim dir dirText id count).exec store' =
        (.ok (), store'.putChunk id (UInt32.ofNat count) data) := by
      unfold pushStored
      rw [Program.exec_ofExcept_bind (okOr_ok_iff.mpr hdata),
        Program.exec_bind_ok (Program.exec_mapErr_ok (exec_pushChunk hle store'))]
      rfl
    refine ⟨store'.putChunk id (UInt32.ofNat count) data, ?_, hdrop, fun index hindex => ?_⟩
    · rw [List.range_succ, List.forM_append, Program.exec_bind_ok hexec, List.forM_cons,
        List.forM_nil, bind_pure_unit, hturn]
    · rw [MemoryStore.getChunk_putChunk]
      by_cases heq : index = count
      · rw [heq, if_pos rfl, hdata]
      · have hne : (id, UInt32.ofNat index) ≠ (id, UInt32.ofNat count) := fun h =>
          heq (uint32_ofNat_inj (by omega) (by omega) (Prod.mk.inj h).2)
        rw [if_neg hne, hheld index (by omega)]

/-- **What a relay holds after a push**, whatever it held before. -/
theorem exec_push_from {idText : String} (hid : DropId.fromHex idText = .ok id)
    (h : Sendable prim dir id raw body) (dirText : String) (held : MemoryStore) :
    ∃ store, (push prim dir dirText idText).exec held = (.ok (), store) ∧
      store.getDrop id = some raw ∧
      ∀ index < body.chunkCount.toNat, store.getChunk id (UInt32.ofNat index) =
        dir.lookup (.chunk id index) := by
  obtain ⟨signed, hdec, hverify, hbody, -⟩ := h.accepted
  have hpushed := @exec_pushDrop prim raw ⟨signed, hdec, hverify⟩
    (h.fits _ (List.mem_cons_of_mem _ List.mem_cons_self)) held
  rw [h.address] at hpushed
  have hchunks : ∀ index < body.chunkCount.toNat, ∃ data,
      dir.lookup (.chunk id index) = some data ∧
        (Message.putChunk id (UInt32.ofNat index) data).encode.length ≤ maxFrame := by
    intro index hindex
    obtain ⟨data, hdata⟩ := h.chunks index hindex
    exact ⟨data, hdata,
      h.chunkFits index hindex data hdata _ (List.mem_cons_of_mem _ List.mem_cons_self)⟩
  obtain ⟨store, hloop, hdrop, hheld⟩ := @exec_pushLoop prim dir id dirText _ hchunks
    body.chunkCount.toNat_lt.le (held.putDrop id raw)
  refine ⟨store, ?_, ?_, hheld⟩
  · unfold push
    rw [Program.exec_ofExcept_bind (mapError_ok_iff.mpr hid),
      Program.exec_ofExcept_bind (okOr_ok_iff.mpr h.stored),
      Program.exec_ofExcept_bind (mapError_ok_iff.mpr hdec),
      Program.exec_ofExcept_bind (mapError_ok_iff.mpr hbody),
      Program.exec_bind_ok (Program.exec_mapErr_ok hpushed),
      Program.exec_ofExcept_bind ((check_ok_iff (u := ())).mpr rfl), hloop]
  · rw [hdrop, MemoryStore.getDrop_putDrop, if_pos rfl]

/-- In particular an empty one. -/
theorem exec_push {idText : String} (hid : DropId.fromHex idText = .ok id)
    (h : Sendable prim dir id raw body) (dirText : String) :
    ∃ store, (push prim dir dirText idText).exec .new = (.ok (), store) ∧
      store.getDrop id = some raw ∧
      ∀ index < body.chunkCount.toNat, store.getChunk id (UInt32.ofNat index) =
        dir.lookup (.chunk id index) := exec_push_from hid h dirText .new

/-- **A relay that holds a drop delivers it.** -/
theorem delivers_of_held {store : MemoryStore} {idText : String}
    (hid : DropId.fromHex idText = .ok id) (h : Sendable prim dir id raw body)
    (hlog : WholeLog dir') (hdrop : store.getDrop id = some raw)
    (hchunk : ∀ index < body.chunkCount.toNat, ∀ data, dir.lookup (.chunk id index) = some data →
      store.getChunk id (UInt32.ofNat index) = some data) (peerText : String) :
    Delivers prim (relayPeer prim store) peerText idText id raw body.chunkCount.toNat dir dir' := by
  refine delivers_of_served hid h hlog ?_ (fun index hindex data hdata => ?_) peerText
  · refine (fetch_relayPeer_iff store id _).mpr ⟨hdrop.symm, fun bytes hbytes => ?_⟩
    obtain rfl := Option.some.inj (hdrop.symm.trans hbytes)
    exact h.fits _ List.mem_cons_self
  · have hheld := hchunk index hindex data hdata
    refine (fetchChunk_relayPeer_iff store id _ _).mpr ⟨hheld.symm, fun bytes hbytes => ?_⟩
    obtain rfl := Option.some.inj (hheld.symm.trans hbytes)
    exact h.chunkFits index hindex data hdata _ List.mem_cons_self

/-- What a fetch that returns was sent. -/
theorem sent_of_fetch {peer : Peer} {peerText idText : String}
    (hid : DropId.fromHex idText = .ok id) {disk : Disk}
    (h : (fetch prim peer peerText idText).exec ⟨dir', []⟩ = (.ok (), disk)) :
    ∃ raw body, Node.fetch peer id = .ok (some raw) ∧ checkReceived prim raw = .ok body ∧
      disk.dir.lookup (.drop id) = some raw ∧
      ∀ index < body.chunkCount.toNat, ∃ chunk, chunkFrom peer id index = .ok chunk ∧
        disk.dir.lookup (.chunk id index) = some chunk := by
  obtain ⟨id', _, hparsed, hasked⟩ := Program.exec_bind_eq_ok h
  obtain ⟨hparse, rfl⟩ := Program.exec_ofExcept_eq_ok hparsed
  obtain rfl := Except.ok.inj (hid.symm.trans (mapError_ok_iff.mp hparse))
  obtain ⟨reply, _, hreplied, hfound⟩ := Program.exec_bind_eq_ok hasked
  obtain ⟨hreply, rfl⟩ := Program.exec_ofExcept_eq_ok hreplied
  obtain ⟨raw, _, hsent, hreceived⟩ := Program.exec_bind_eq_ok hfound
  obtain ⟨hraw, rfl⟩ := Program.exec_ofExcept_eq_ok hsent
  obtain rfl := okOr_ok_iff.mp hraw
  obtain ⟨body, _, hchecked, -⟩ := Program.exec_bind_eq_ok hreceived
  obtain ⟨hbody, rfl⟩ := Program.exec_ofExcept_eq_ok hchecked
  rw [exec_receiveDrop hbody (quiet_nil dir')] at hreceived
  have hdrop := @lookup_drop_receiveChunks id raw body.chunkCount (chunkFrom peer id)
    ⟨dir'.insert (.drop id) raw, []⟩ id
  have hall := isOk_of_exec_receiveChunks (quiet_nil _) hreceived
  obtain ⟨r, last, hexec, hlookup, -⟩ := @exec_receiveChunks id (chunkFrom peer id) _
    (quiet_nil (dir'.insert (.drop id) raw)) raw body.chunkCount
  obtain ⟨rfl, rfl⟩ := Prod.mk.inj (hexec.symm.trans hreceived)
  rw [hexec, AList.lookup_insert] at hdrop
  refine ⟨raw, body, mapError_ok_iff.mp hreply, hbody, hdrop, fun index hindex => ?_⟩
  obtain ⟨chunk, hok, hat⟩ := sentAt_of_all hall hindex
  exact ⟨chunk, hok, by rw [hlookup index hindex, hat]; rfl⟩

/-- **A relay delivers a drop exactly when it holds it as it is.** -/
theorem delivers_relayPeer_iff {store : MemoryStore} {idText : String}
    (hid : DropId.fromHex idText = .ok id) (h : Sendable prim dir id raw body)
    (hlog : WholeLog dir') (peerText : String) :
    Delivers prim (relayPeer prim store) peerText idText id raw body.chunkCount.toNat dir dir' ↔
      HoldsAs store dir id raw body.chunkCount.toNat := by
  constructor
  · rintro ⟨disk, hfetch, hdrop, hchunks, -⟩
    obtain ⟨sent, body', hsent, hbody', hstored, hall⟩ := sent_of_fetch hid hfetch
    obtain rfl : raw = sent := by
      rw [hstored, h.stored] at hdrop
      exact (Option.some.inj hdrop).symm
    have hbody : checkReceived prim raw = .ok body := checkReceived_ok_iff.mpr h.accepted
    obtain rfl := Except.ok.inj (hbody.symm.trans hbody')
    refine ⟨((fetch_relayPeer_iff store id _).mp hsent).1.symm, fun index hindex => ?_⟩
    obtain ⟨chunk, hchunk, hat⟩ := hall index hindex
    obtain ⟨found, hfound, hchunk⟩ := bind_ok_iff.mp hchunk
    rw [mapError_ok_iff] at hfound
    obtain rfl := okOr_ok_iff.mp hchunk
    rw [← ((fetchChunk_relayPeer_iff store id _ _).mp hfound).1, ← hchunks index hindex, hat]
  · rintro ⟨hdrop, hheld⟩
    exact delivers_of_held hid h hlog hdrop
      (fun index hindex data hdata => (hheld index hindex).trans hdata) peerText

end Delivering

/-- **When a transfer is lossless.** A drop that one directory pushes to an empty relay is fetched
from there by another as it was sent, and is logged there once. One that it serves is, in whatever
order its files are listed, exactly if no other file with other bytes is read as its envelope or as
one of its chunks. -/
theorem transfer_lossless (prim : Primitives) (listing : Listing) (dir dir' : Dir) (id : DropId)
    (raw : List UInt8) (body : DropBody) (dirText peerText idText : String)
    (hid : DropId.fromHex idText = .ok id) (hshows : listing.Shows dir)
    (h : Sendable prim dir id raw body) (hlog : WholeLog dir') :
    ((∀ order, listing.Reorders order →
        Delivers prim (relayPeer prim (loadStore prim order)) peerText idText id raw
          body.chunkCount.toNat dir dir') ↔
      listing.Unaliased prim dir id raw body.chunkCount.toNat) ∧
    ∃ store, (push prim dir dirText idText).exec .new = (.ok (), store) ∧
      Delivers prim (relayPeer prim store) peerText idText id raw body.chunkCount.toNat dir
        dir' := by
  constructor
  · have hholds := holds_loadStore_iff hshows h.stored h.address body.chunkCount.toNat_lt.le
      h.chunks
    simp only [← hholds, delivers_relayPeer_iff hid h hlog]
  · obtain ⟨store, hpush, hdrop, hheld⟩ := exec_push hid h dirText
    exact ⟨store, hpush, (delivers_relayPeer_iff hid h hlog peerText).mpr ⟨hdrop, hheld⟩⟩

/-! ## A known directory -/

namespace KnownTransfer

/-- The known drop. -/
def id : DropId := KnownAnswers.drop.id KnownAnswers.primitives

/-- The directory of its recipient. -/
def dir : Dir := knownDir id KnownAnswers.chunk

theorem lookup_drop_iff {other : DropId} {raw : List UInt8} :
    dir.lookup (.drop other) = some raw ↔ other = id ∧ raw = KnownAnswers.drop.raw := by
  by_cases hid : other = id
  · subst hid
    rw [dir, (lookup_knownDir id KnownAnswers.chunk).2.1]
    exact ⟨fun h => ⟨rfl, (Option.some.inj h).symm⟩, fun h => congrArg some h.2.symm⟩
  · unfold dir knownDir
    rw [AList.lookup_insert_ne (by simp), AList.lookup_insert_ne (by simpa using hid),
      AList.lookup_insert_ne (by simp)]
    exact iff_of_false (Option.some_ne_none raw).symm fun h => hid h.1

theorem lookup_chunk_iff {other : DropId} {index : Nat} {data : List UInt8} :
    dir.lookup (.chunk other index) = some data ↔
      other = id ∧ index = 0 ∧ data = KnownAnswers.chunk := by
  by_cases hfile : other = id ∧ index = 0
  · obtain ⟨rfl, rfl⟩ := hfile
    rw [dir, (lookup_knownDir id KnownAnswers.chunk).2.2]
    exact ⟨fun h => ⟨rfl, rfl, (Option.some.inj h).symm⟩, fun h => congrArg some h.2.2.symm⟩
  · unfold dir knownDir
    rw [AList.lookup_insert_ne (by simpa using hfile), AList.lookup_insert_ne (by simp),
      AList.lookup_insert_ne (by simp)]
    exact iff_of_false (Option.some_ne_none data).symm fun h => hfile ⟨h.1, h.2.1⟩

/-- It can be handed on. -/
theorem sendable : Sendable KnownAnswers.primitives dir id KnownAnswers.drop.raw
    KnownAnswers.body := by
  obtain ⟨hdec, hverify, hbody⟩ := known_drop_accepted
  refine ⟨lookup_drop_iff.mpr ⟨rfl, rfl⟩, rfl, ⟨_, hdec, hverify, hbody, known_drop_work⟩, ?_,
    by decide +kernel, ?_⟩
  · intro index hindex
    obtain rfl := Nat.lt_one_iff.mp hindex
    exact ⟨_, lookup_chunk_iff.mpr ⟨rfl, rfl, rfl⟩⟩
  · intro index hindex data hdata
    obtain ⟨-, rfl, rfl⟩ := lookup_chunk_iff.mp hdata
    decide +kernel

/-- The name of the directory of its chunks in capital letters. -/
def capitals : Name := utf8 (String.ofList (id.toHex.toList.map Char.toUpper))

theorem idOfName_capitals : idOfName capitals = some id := by decide +kernel

/-- The directory as the system may list it, with a directory in capital letters that has a chunk of
its own. -/
def listing (other : List UInt8) : Listing where
  drops := [(dropName id, KnownAnswers.drop.raw)]
  chunks :=
    [(chunksName id, [(chunkName 0, KnownAnswers.chunk)]), (capitals, [(chunkName 0, other)])]

theorem shows_listing (other : List UInt8) : (listing other).Shows dir := by
  constructor
  · intro id' raw
    rw [lookup_drop_iff]
    simp only [listing, List.mem_singleton, Prod.mk.injEq, dropName_inj]
  · intro id' index data
    have hcapitals : chunksName id' ≠ capitals := by
      intro hname
      have hid := congrArg idOfName hname
      rw [idOfName_chunksName, idOfName_capitals] at hid
      rw [Option.some.inj hid] at hname
      exact absurd hname (by decide +kernel)
    rw [lookup_chunk_iff]
    simp only [listing, List.mem_cons, List.not_mem_nil, or_false, Prod.mk.injEq, hcapitals,
      false_and, chunksName_inj]
    constructor
    · rintro ⟨files, ⟨rfl, rfl⟩, hfile⟩
      obtain ⟨hname, rfl⟩ := Prod.mk.inj (List.mem_singleton.mp hfile)
      exact ⟨rfl, chunkName_inj.mp hname, rfl⟩
    · rintro ⟨rfl, rfl, rfl⟩
      exact ⟨_, ⟨rfl, rfl⟩, List.mem_singleton_self _⟩

/-- With the same bytes in both it is served, whichever is listed first, and it is pushed to an
empty relay, and fetched from either into an empty directory. -/
theorem known_drop_transferred :
    (∀ order ∈ [listing KnownAnswers.chunk,
          ⟨(listing KnownAnswers.chunk).drops, (listing KnownAnswers.chunk).chunks.reverse⟩],
        Delivers KnownAnswers.primitives
          (relayPeer KnownAnswers.primitives (loadStore KnownAnswers.primitives order)) "peer"
          id.toHex id KnownAnswers.drop.raw 1 dir ∅) ∧
      ∃ store disk,
        (push KnownAnswers.primitives dir "here" id.toHex).exec .new = (.ok (), store) ∧
        (fetch KnownAnswers.primitives (relayPeer KnownAnswers.primitives store) "peer"
          id.toHex).exec ⟨∅, []⟩ = (.ok (), disk) ∧
        disk.dir.lookup (.drop id) = some KnownAnswers.drop.raw ∧
        disk.dir.lookup (.chunk id 0) = some KnownAnswers.chunk ∧
        logEntries disk.dir = [KnownAnswers.drop.raw] := by
  obtain ⟨hserved, store, hpush, disk, hfetch, hdrop, hchunks, hlog⟩ :=
    transfer_lossless KnownAnswers.primitives (listing KnownAnswers.chunk) dir ∅ id
      KnownAnswers.drop.raw KnownAnswers.body "here" "peer" id.toHex (DropId.fromHex_toHex id)
      (shows_listing _) sendable rfl
  have hunaliased : (listing KnownAnswers.chunk).Unaliased KnownAnswers.primitives dir id
      KnownAnswers.drop.raw 1 := by
    constructor
    · intro file hfile _ _
      rw [List.mem_singleton.mp hfile]
    · intro directory hdirectory _ file hfile index hindex _
      obtain rfl := Nat.lt_one_iff.mp hindex
      simp only [listing, List.mem_cons, List.not_mem_nil, or_false] at hdirectory
      rcases hdirectory with rfl | rfl
      · rw [List.mem_singleton.mp hfile]
        exact lookup_chunk_iff.mpr ⟨rfl, rfl, rfl⟩
      · rw [List.mem_singleton.mp hfile]
        exact lookup_chunk_iff.mpr ⟨rfl, rfl, rfl⟩
  have hrefl : List.Forall₂ (fun d d' => d.1 = d'.1 ∧ d.2.Perm d'.2)
      (listing KnownAnswers.chunk).chunks (listing KnownAnswers.chunk).chunks :=
    List.forall₂_same.mpr fun _ _ => ⟨rfl, .rfl⟩
  refine ⟨fun order horder => hserved.mpr hunaliased order ?_, store, disk, hpush, hfetch,
    hdrop.trans (lookup_drop_iff.mpr ⟨rfl, rfl⟩),
    (hchunks 0 (by decide)).trans (lookup_chunk_iff.mpr ⟨rfl, rfl, rfl⟩), hlog⟩
  simp only [List.mem_cons, List.not_mem_nil, or_false] at horder
  rcases horder with rfl | rfl
  · exact ⟨.rfl, _, hrefl, .rfl⟩
  · exact ⟨.rfl, _, hrefl, (List.reverse_perm _).symm⟩

/-- With another byte in the second, that is served for the chunk: the drop does not arrive as it
is, though its own directory holds its chunk and no other file. -/
theorem known_capitals_served :
    (listing [9]).Shows dir ∧
      Sendable KnownAnswers.primitives dir id KnownAnswers.drop.raw KnownAnswers.body ∧
      (∀ files, (chunksName id, files) ∈ (listing [9]).chunks →
        files = [(chunkName 0, KnownAnswers.chunk)]) ∧
      WholeLog ∅ ∧
      fetchChunk (relayPeer KnownAnswers.primitives
        (loadStore KnownAnswers.primitives (listing [9]))) id 0 = .ok (some [9]) ∧
      ¬ Delivers KnownAnswers.primitives
        (relayPeer KnownAnswers.primitives (loadStore KnownAnswers.primitives (listing [9]))) "peer"
        id.toHex id KnownAnswers.drop.raw 1 dir ∅ := by
  have hheld : (loadStore KnownAnswers.primitives (listing [9])).getChunk id 0 = some [9] := by
    have hlast : loadedChunk id 0 (capitals, chunkName 0, [9]) = some [9] := by
      have hindex : indexOf (chunkName 0) = some 0 := indexOf_chunkName (by decide)
      simp only [loadedChunk, idOfName_capitals, hindex, and_self, if_true]
    have hfiles : filesOf (listing [9]).chunks =
        [(chunksName id, chunkName 0, KnownAnswers.chunk)] ++ [(capitals, chunkName 0, [9])] := by
      simp [filesOf, listing]
    rw [getChunk_loadStore, hfiles, findSome?_reverse_concat hlast]
  refine ⟨shows_listing [9], sendable, ?_, rfl, ?_, ?_⟩
  · intro files hfiles
    have hcapitals : chunksName id ≠ capitals := by decide +kernel
    simpa [listing, hcapitals] using hfiles
  · refine (fetchChunk_relayPeer_iff _ id 0 _).mpr ⟨hheld.symm, fun bytes hbytes => ?_⟩
    obtain rfl := Option.some.inj (hheld.symm.trans hbytes)
    decide +kernel
  · intro hdelivers
    have hwhole : WholeLog ∅ := rfl
    have hholds := (delivers_relayPeer_iff (DropId.fromHex_toHex id) sendable hwhole "peer").mp
      hdelivers
    have hsame := (hholds.chunks 0 (by decide)).symm.trans hheld
    exact absurd (lookup_chunk_iff.mp hsame).2.2 (by decide)

end KnownTransfer

end Keepstone.Cli
