import Keepstone.Cli.Heads
import Keepstone.Cli.Hunt
import Keepstone.Cli.Transfer
import Keepstone.Node.Pushes
import Keepstone.Store.Lasting

/-!
# From the author to the recipient (`xtask/src/main.rs:71-150`)

The demonstration of the repository: an author creates a drop and pushes it to a relay, a recipient
fetches it from there, opens it and verifies it against its own log. The relay may hold anything
before the push, and may be told anything by anyone between the push and the fetch except chunks of
this drop, which it would store in place of the author's.

Results:
* `sendable_of_created`: what `create_drop` has stored can be pushed and fetched;
* `getDrop_run`: an envelope stays at a relay, or is replaced by another with the same id;
* **`drop_arrives`**: who fetches the drop has it as it was stored, and verifies it;
* **`message_delivered`**: who fetches the drop opens it to the message exactly if it is addressed
  to it, and verifies it.
-/

namespace Keepstone.Cli

open Keepstone.Lib Keepstone.Crypto Keepstone.Core Keepstone.Store Keepstone.Node

variable {prim : Primitives}

/-! ## What was created can be sent -/

/-- A chunk is at most 16 bytes longer than what is in it. -/
theorem length_chunk_le (lengths : LengthLaws prim) {contentKey : Bytes 32} {plaintext : List UInt8}
    {framing : Framing} {index : Nat} {call : SealCall}
    (h : ChunkCall prim contentKey plaintext framing index call) :
    call.ciphertext.length ≤ 65552 := by
  have hdata : call.data.length ≤ 65536 := by
    rw [h.data, chunkData, List.length_take]
    exact min_le_left _ _
  have hsealed := h.sealed
  unfold aeadSeal at hsealed
  split at hsealed
  case h_1 ciphertext hencrypt =>
    obtain rfl := Except.ok.inj hsealed
    rw [lengths.aead _ _ _ _ _ hencrypt]
    omega
  case h_2 => cases hsealed

section Sending

variable {args : CreateArgs} {draws : Draws} {author dir : Dir} {prepared : Prepared}
  {devices : List Device} {wrapped : List WrappedKey} {created : CreatedDrop}
  {signed : SignedDrop} {body : DropBody}

/-- A chunk message is little longer than its chunk. -/
theorem chunkMessage_le (id : DropId) (index : UInt32) {data : List UInt8}
    (hdata : data.length ≤ 65552) :
    ∀ message ∈ [Message.chunk id index data, .putChunk id index data],
      message.encode.length ≤ maxFrame := by
  intro message hmessage
  have hpayload : message.payload.length ≤ 36 + 65552 := by
    rcases List.mem_pair.mp hmessage with rfl | rfl
    all_goals
      simp only [Message.payload, idIndex, List.length_append, List.Vector.toList_length,
        length_beBytes]
      omega
  have hle := length_tagged_le message.tag message.payload
  rw [← message.encode_eq] at hle
  unfold maxFrame
  omega

/-- **What `create_drop` has stored can be sent**, if the envelope fits a frame. -/
theorem sendable_of_created (laws : SignatureLaws prim) (lengths : LengthLaws prim)
    (h : Prepares prim args draws author prepared devices wrapped)
    (hcreated : Created prim draws prepared created dir signed body)
    (hfits : signed.raw.length + 27 ≤ maxFrame) :
    Sendable prim dir created.id signed.raw body := by
  have hcount : body.chunkCount.toNat = prepared.chunks.length := by
    rw [h.length_chunks, ← hcreated.framing]
    rfl
  have hstored : ∀ index (hindex : index < prepared.chunks.length),
      dir.lookup (.chunk created.id index) = some prepared.chunks[index] := hcreated.chunks
  obtain ⟨-, -, -, hcalls⟩ := streamEncrypt_ok_iff.mp h.encrypted
  refine ⟨hcreated.envelope, hcreated.id.symm, ?_, fun index hindex => ?_,
    fun message hmessage => ?_, fun index hindex data hdata => ?_⟩
  · exact ⟨signed, hcreated.decode, hcreated.verified laws, hcreated.carries, hcreated.pow⟩
  · exact ⟨_, hstored index (hcount ▸ hindex)⟩
  · have hpayload : message.payload = signed.raw := by
      rcases List.mem_pair.mp hmessage with rfl | rfl
      · rfl
      · rfl
    have hle := length_tagged_le message.tag message.payload
    rw [← message.encode_eq, hpayload] at hle
    omega
  · have hlt : index < prepared.chunks.length := hcount ▸ hindex
    obtain ⟨call, hcall, hchunk⟩ := hcalls index hlt
    obtain rfl := Option.some.inj ((hstored index hlt).symm.trans hdata)
    rw [← hchunk]
    exact chunkMessage_le _ _ (length_chunk_le lengths hcall)

end Sending

/-! ## What stays at a relay -/

/-- **An envelope stays at a relay**, or is replaced by one with the same id. -/
theorem getDrop_run {id : DropId} {relay : Relay} {raw : List UInt8} (events : List Event)
    (hraw : relay.store.getDrop id = some raw) (hid : DropId.of prim raw = id) :
    ∃ raw', (relay.run prim events).store.getDrop id = some raw' ∧ DropId.of prim raw' = id := by
  induction events generalizing relay raw with
  | nil => exact ⟨raw, hraw, hid⟩
  | cons event events ih =>
    rw [run_cons]
    rcases getDrop_step relay event id with ⟨raw', -, -, hid', hget⟩ | hsame
    · exact ih hget hid'
    · exact ih (hsame.trans hraw) hid

/-- What a relay holds as a chunk, if every chunk it is offered there is the one it has. -/
theorem getChunk_run {id : DropId} {index : UInt32} {relay : Relay} {events : List Event}
    {data : List UInt8} (hdata : relay.store.getChunk id index = some data)
    (hoffered : ∀ other ∈ offeredChunks prim id index relay events, other = data) :
    (relay.run prim events).store.getChunk id index = some data := by
  rw [run_getChunk, hdata]
  cases hlast : (offeredChunks prim id index relay events).getLast? with
  | none => rfl
  | some other =>
    obtain rfl := hoffered other (List.mem_of_getLast? hlast)
    rfl

/-- The relay holds what was pushed to it. -/
theorem held_of_push {dir : Dir} {id : DropId} {raw : List UInt8} {body : DropBody}
    (h : Sendable prim dir id raw body) {dirText : String} {store store' : MemoryStore}
    (hpush : (push prim dir dirText id.toHex).exec store = (.ok (), store')) :
    store'.getDrop id = some raw := by
  obtain ⟨pushed, hexec, hdrop, -⟩ := exec_push_from (DropId.fromHex_toHex id) h dirText store
  obtain rfl : pushed = store' := congrArg Prod.snd (hexec.symm.trans hpush)
  exact hdrop

/-! ## What the recipient has -/

section Receiving

variable {dir : Dir} {id : DropId} {generated : Identity} {now : UInt64}

/-- `log_identity` can be called on this directory: the key is there, or can be created. -/
def KeyUsable (dir : Dir) : Prop := dir.lookup .logKey = none ∨ ∃ log, LoadsLogKey dir log

theorem KeyUsable.exec (h : KeyUsable dir) (generated : Identity) :
    ∃ log disk, (Store.logIdentity generated).exec ⟨dir, []⟩ = (.ok log, disk) := by
  rcases h with hnone | ⟨log, hloads⟩
  · exact ⟨generated, _, exec_logIdentity_of_none generated hnone⟩
  · exact ⟨log, _, exec_logIdentity_of_loads hloads generated⟩

/-- **A drop that is stored and logged is verified.** -/
theorem exec_verify_of_logged {raw : List UInt8} {signed : SignedDrop} {body : DropBody}
    (hread : readDrop dir id = .ok (signed, body)) (hverified : signed.verify prim = .ok ())
    (hlogged : raw ∈ logEntries dir) (hid : DropId.of prim raw = id) (hkey : KeyUsable dir) :
    ∃ v disk, (verify prim generated now id).exec ⟨dir, []⟩ = (.ok v, disk) ∧
      v.signature = true ∧ v.inclusion = true := by
  have hhash : prim.sha256 raw = id.bytes := congrArg DropId.bytes hid
  obtain ⟨index, hindex⟩ : ∃ index, (logEntries dir).findIdx?
      (fun entry => prim.sha256 entry = id.bytes) = some index := by
    rw [← Option.isSome_iff_exists, List.findIdx?_isSome, List.any_eq_true]
    exact ⟨raw, hlogged, decide_eq_true hhash⟩
  obtain ⟨hlt, -⟩ := List.findIdx?_eq_some_iff_getElem.mp hindex
  obtain ⟨hproof, -⟩ := @inclusion_of_index prim _ _ _ (List.getElem?_eq_getElem hlt)
  obtain ⟨log, disk, hlog⟩ := hkey.exec generated
  have hreadDrop : (Program.reads fun disk : Disk => readDrop disk.dir id).exec ⟨dir, []⟩ =
      (.ok (signed, body), ⟨dir, []⟩) := Program.exec_reads_ok hread
  have hreadLog : (Program.reads fun disk : Disk =>
      (.ok (logEntries disk.dir) : Except StoreError _)).exec ⟨dir, []⟩ =
        (.ok (logEntries dir), ⟨dir, []⟩) := Program.exec_reads_ok rfl
  have hexec : (verify prim generated now id).exec ⟨dir, []⟩ = _ :=
    (Program.exec_bind_ok hreadDrop _).trans <|
      (Program.exec_bind_ok hreadLog _).trans <|
      (Program.exec_ofExcept_bind (okOr_ok_iff.mpr hindex) _ _).trans <|
      (Program.exec_ofExcept_bind (mapError_ok_iff.mpr hproof) _ _).trans <|
      Program.exec_bind_ok hlog _
  obtain ⟨raw', signed', entry, hraw', hdecode', -, -, hsignature, hinclusion⟩ := exec_verify hexec
  obtain ⟨raw, hraw, hdecode, -⟩ := readDrop_ok_iff.mp hread
  obtain rfl := Option.some.inj (hraw.symm.trans hraw')
  obtain rfl := Except.ok.inj (hdecode.symm.trans hdecode')
  exact ⟨_, _, hexec, hsignature.trans (isOk_iff.mpr hverified), hinclusion⟩

/-- A fetch writes neither the keys of the device nor the key of its log, and no call of it fails
where none does. -/
theorem keeps_fetch {I : Disk → Prop} (hchunk : ∀ id index, Allows I (.chunk id index))
    (hlog : Allows I .logEntries) (hdrop : ∀ id, Allows I (.drop id)) (peer : Peer)
    (peerText idText : String) : Keeps I (fetch prim peer peerText idText) fun _ => True := by
  refine (Keeps.ofExcept _).bind fun id _ => ?_
  refine (Keeps.ofExcept _).bind fun reply _ => ?_
  refine (Keeps.ofExcept _).bind fun raw _ => ?_
  exact keeps_receiveDrop (hchunk id) hlog (fun _ _ => (hdrop id).write raw) _

/-- What a fetch leaves where it wrote nothing. -/
theorem lookup_of_fetch {peer : Peer} {peerText idText : String} {disk disk' : Disk}
    {r : Except CliError Unit} (hexec : (fetch prim peer peerText idText).exec disk = (r, disk'))
    {file : File} (hlog : file ≠ .logEntries) (hdrop : ∀ id, file ≠ .drop id)
    (hchunk : ∀ id index, file ≠ .chunk id index) :
    disk'.dir.lookup file = disk.dir.lookup file := by
  have hother : ∀ other, file ≠ other →
      Allows (fun d : Disk => d.dir.lookup file = disk.dir.lookup file) other :=
    fun other hne => (ignores_lookup hne _).always
  exact (keeps_fetch (fun _ _ => hother _ (hchunk _ _)) (hother _ hlog)
    (fun _ => hother _ (hdrop _)) peer peerText idText).after rfl hexec

/-- The identity is what its file says. -/
theorem identity_congr {dir' : Dir} (h : dir'.lookup .identity = dir.lookup .identity) :
    identity dir' = identity dir := by
  rw [identity, identity, readToString, readToString, h]

/-- The hybrid keypair is what its file says. -/
theorem hybrid_congr {dir' : Dir} (h : dir'.lookup .hybrid = dir.lookup .hybrid) :
    hybrid prim dir' = hybrid prim dir := by
  rw [hybrid, hybrid, readToString, readToString, h]

end Receiving

/-! ## The whole way -/

/-- What the fetch of a drop leaves: the drop as it was stored, and the keys as they were. The
signature of the drop and its inclusion in the log are verified. -/
structure Arrived (prim : Primitives) (created : CreatedDrop) (stored dir dir' : Dir) : Prop where
  drop : dir'.lookup (.drop created.id) = stored.lookup (.drop created.id)
  chunk : ∀ index < created.chunks.toNat,
    dir'.lookup (.chunk created.id index) = stored.lookup (.chunk created.id index)
  identity : Store.identity dir' = Store.identity dir
  hybrid : Store.hybrid prim dir' = Store.hybrid prim dir
  verified : ∀ generated now, ∃ v disk,
    (verify prim generated now created.id).exec ⟨dir', []⟩ = (.ok v, disk) ∧
      v.signature = true ∧ v.inclusion = true

/-- **A drop arrives.** What `create_drop` has stored is pushed to a relay in any state, and fetched
from it after any other events at which nobody offers it other chunks of the drop. Then the drop is
there; or the relay holds another envelope with the same id, that is two byte strings with one
SHA-256 digest. -/
theorem drop_arrives (laws : SignatureLaws prim) (lengths : LengthLaws prim)
    {cellAt : Float → Float → UInt8 → Except CoreError String} {now : UInt64} {args : CreateArgs}
    {draws : Draws} {disk disk' : Disk} {created : CreatedDrop}
    (hcreate : (createDrop prim cellAt now args draws).exec disk = (.ok created, disk'))
    {raw : List UInt8} (hraw : disk'.dir.lookup (.drop created.id) = some raw)
    (hfits : raw.length + 27 ≤ maxFrame) (relay : Relay) (dirText : String) :
    ∃ store, (push prim disk'.dir dirText created.id.toHex).exec relay.store = (.ok (), store) ∧
      ∀ later : List Event,
        (∀ index < created.chunks.toNat, ∀ other ∈ offeredChunks prim created.id
          (UInt32.ofNat index) { relay with store } later,
          disk'.dir.lookup (.chunk created.id index) = some other) →
        (∃ raw', (Relay.run prim { relay with store } later).store.getDrop created.id = some raw' ∧
          Collides prim.sha256 [raw] [raw']) ∨
        ∀ dir, WholeLog dir → KeyUsable dir → ∀ peerText, ∃ dir',
          (fetch prim (relayPeer prim (Relay.run prim { relay with store } later).store) peerText
            created.id.toHex).exec ⟨dir, []⟩ = (.ok (), ⟨dir', []⟩) ∧
          Arrived prim created disk'.dir dir dir' := by
  obtain ⟨prepared, signed, body, hprepared, hcreated⟩ := exec_createDrop hcreate
  obtain ⟨devices, wrapped, hprepares⟩ := prepareDrop_ok_iff.mp hprepared
  obtain rfl := Option.some.inj (hcreated.envelope.symm.trans hraw)
  have hsendable := sendable_of_created laws lengths hprepares hcreated hfits
  have hcount : body.chunkCount = created.chunks := by
    rw [hcreated.count, ← hcreated.framing]
    rfl
  obtain ⟨store, hpush, hdrop, hchunks⟩ :=
    exec_push_from (DropId.fromHex_toHex created.id) hsendable dirText relay.store
  refine ⟨store, hpush, fun later hoffered => ?_⟩
  obtain ⟨raw', hheld, hid⟩ := @getDrop_run prim _ { relay with store } _ later hdrop
    hsendable.address
  have hhash : prim.sha256 signed.raw = prim.sha256 raw' :=
    congrArg DropId.bytes (hsendable.address.trans hid.symm)
  rcases eq_or_collides List.mem_cons_self List.mem_cons_self hhash with rfl | hcollides
  case inr => exact .inl ⟨raw', hheld, hcollides⟩
  case inl =>
    refine .inr fun dir hlog hkey peerText => ?_
    have hchunksHeld : ∀ index < body.chunkCount.toNat, ∀ data,
        disk'.dir.lookup (.chunk created.id index) = some data →
        (Relay.run prim { relay with store } later).store.getChunk created.id
          (UInt32.ofNat index) = some data := by
      intro index hindex data hdata
      refine getChunk_run ((hchunks index hindex).trans hdata) fun other hother => ?_
      have hsame := hoffered index (hcount ▸ hindex) other hother
      exact Option.some.inj (hsame.symm.trans hdata)
    obtain ⟨⟨dir', outcomes⟩, hfetch, hsameDrop, hsameChunks, hlogged⟩ :=
      delivers_of_held (DropId.fromHex_toHex created.id) hsendable hlog hheld hchunksHeld peerText
    have hquiet : outcomes = [] :=
      (keeps_fetch (fun _ _ => KnownHunt.allows_nil _) (KnownHunt.allows_nil _)
        (fun _ => KnownHunt.allows_nil _) _ _ _).after rfl hfetch
    subst hquiet
    have hidentity : dir'.lookup .identity = dir.lookup .identity :=
      lookup_of_fetch hfetch nofun nofun nofun
    have hhybrid : dir'.lookup .hybrid = dir.lookup .hybrid :=
      lookup_of_fetch hfetch nofun nofun nofun
    have hlogKey : dir'.lookup .logKey = dir.lookup .logKey :=
      lookup_of_fetch hfetch nofun nofun nofun
    have hchunk : ∀ index < created.chunks.toNat,
        dir'.lookup (.chunk created.id index) = disk'.dir.lookup (.chunk created.id index) :=
      fun index hindex => hsameChunks index (hcount ▸ hindex)
    refine ⟨dir', hfetch, hsameDrop, hchunk, ?_, ?_, fun generated now => ?_⟩
    · exact identity_congr hidentity
    · exact hybrid_congr hhybrid
    · have hholds := hcreated.of_lookup hprepares hsameDrop hchunk
      refine exec_verify_of_logged hholds.readDrop (hcreated.verified laws) ?_ hsendable.address ?_
      · rw [hlogged]
        exact List.mem_append_right _ List.mem_cons_self
      · refine hkey.imp (hlogKey.trans ·) (Exists.imp ?_)
        rintro log ⟨text, htext, hparsed⟩
        exact ⟨text, by rw [← htext, readToString, readToString, hlogKey], hparsed⟩

/-- What fetching, opening and verifying the drop comes to for a recipient: the fetch returns, the
drop opens to the message exactly if it is addressed to the recipient, and its signature and its
inclusion in the recipient's log are verified. -/
def Receives (prim : Primitives) (store : MemoryStore) (args : CreateArgs) (devices : List Device)
    (id : DropId) (dir : Dir) : Prop :=
  ∀ peerText, ∃ dir', (fetch prim (relayPeer prim store) peerText id.toHex).exec ⟨dir, []⟩ =
      (.ok (), ⟨dir', []⟩) ∧
    (openDrop prim dir' id = .ok args.plaintext ↔ Addressed prim dir args.hybridMode devices) ∧
    ∀ generated now, ∃ v disk, (verify prim generated now id).exec ⟨dir', []⟩ = (.ok v, disk) ∧
      v.signature = true ∧ v.inclusion = true

theorem Addressed.congr {dir dir' : Dir} {hybridMode : Bool} {devices : List Device}
    (hidentity : identity dir' = identity dir) (hhybrid : hybrid prim dir' = hybrid prim dir) :
    Addressed prim dir' hybridMode devices ↔ Addressed prim dir hybridMode devices := by
  rw [Addressed, Addressed, hidentity, hhybrid]

/-- **A message is delivered.** Where its drop arrives, the recipient receives it, if the algorithms
are ideal for it. -/
theorem message_delivered (prim : Primitives) (laws : SignatureLaws prim)
    (lengths : LengthLaws prim) {cellAt : Float → Float → UInt8 → Except CoreError String}
    {now : UInt64} {args : CreateArgs} {draws : Draws} {disk disk' : Disk} {created : CreatedDrop}
    (hcreate : (createDrop prim cellAt now args draws).exec disk = (.ok created, disk'))
    {devices : List Device} (hdevices : resolve disk.dir args = .ok devices) {raw : List UInt8}
    (hraw : disk'.dir.lookup (.drop created.id) = some raw) (hfits : raw.length + 27 ≤ maxFrame)
    (relay : Relay) (dirText : String) :
    ∃ store, (push prim disk'.dir dirText created.id.toHex).exec relay.store = (.ok (), store) ∧
      ∀ later : List Event,
        (∀ index < created.chunks.toNat, ∀ other ∈ offeredChunks prim created.id
          (UInt32.ofNat index) { relay with store } later,
          disk'.dir.lookup (.chunk created.id index) = some other) →
        (∃ raw', (Relay.run prim { relay with store } later).store.getDrop created.id = some raw' ∧
          Collides prim.sha256 [raw] [raw']) ∨
        ∀ dir, WholeLog dir → KeyUsable dir → Ideal prim args draws devices dir →
          Receives prim (Relay.run prim { relay with store } later).store args devices created.id
            dir := by
  obtain ⟨prepared, signed, body, hprepared, hcreated⟩ := exec_createDrop hcreate
  obtain ⟨devices', wrapped, hprepares⟩ := prepareDrop_ok_iff.mp hprepared
  obtain rfl : devices = devices' := Except.ok.inj (hdevices.symm.trans hprepares.resolved)
  obtain ⟨store, hpush, hlater⟩ := drop_arrives laws lengths hcreate hraw hfits relay dirText
  refine ⟨store, hpush, fun later hoffered => (hlater later hoffered).imp_right ?_⟩
  intro harrives dir hlog hkey ideal peerText
  obtain ⟨dir', hfetch, harrived⟩ := harrives dir hlog hkey peerText
  have hideal := ideal.of_same_keys rfl harrived.identity harrived.hybrid
  have hholds := hcreated.of_lookup hprepares harrived.drop harrived.chunk
  refine ⟨dir', hfetch, ?_, harrived.verified⟩
  rw [← Addressed.congr harrived.identity harrived.hybrid]
  exact ⟨hholds.addressed_of_openDrop hprepares hideal,
    hholds.openDrop_of_addressed laws hprepares hideal⟩

/-! ### The known message -/

namespace KnownMessage

open Keepstone.Core.KnownAnswers
open KnownAuthor (args draws device lengthLaws)

/-- The envelope of a classical drop to a few devices is small. -/
theorem length_raw {count : Nat} (hle : count ≤ minTags) {created : CreatedDrop} {disk : Disk}
    (hcreate : (createDrop sending KnownAuthor.cellAt 0 (args count false) draws).exec
      ⟨KnownAuthor.dir, []⟩ = (.ok created, disk)) {raw : List UInt8}
    (hraw : disk.dir.lookup (.drop created.id) = some raw) : raw.length ≤ 65536 := by
  rw [createDrop_eq_untilSigned] at hcreate
  obtain ⟨⟨_, _, _⟩, _, hsigned, hcreate⟩ := Program.exec_bind_eq_ok hcreate
  obtain ⟨⟨⟩, _, hstored, hcreate⟩ := Program.exec_bind_eq_ok hcreate
  obtain ⟨rfl, rfl⟩ := Program.exec_pure_eq_ok hcreate
  obtain rfl := Option.some.inj
    ((exec_storeDrop (Program.exec_mapErr_eq_ok hstored)).2.1.symm.trans hraw)
  obtain ⟨prepared, _, hprepared, hsigned⟩ := Program.exec_bind_eq_ok hsigned
  obtain ⟨powNonce, _, -, hsigned⟩ := Program.exec_bind_eq_ok hsigned
  obtain ⟨cell, _, hcell, hsigned⟩ := Program.exec_bind_eq_ok hsigned
  obtain ⟨made, _, hbody, hsigned⟩ := Program.exec_bind_eq_ok hsigned
  obtain ⟨signed, _, hsign, hsigned⟩ := Program.exec_bind_eq_ok hsigned
  obtain ⟨htriple, -⟩ := Program.exec_pure_eq_ok hsigned
  obtain ⟨rfl, hpair⟩ := Prod.mk.inj htriple
  obtain ⟨rfl, rfl⟩ := Prod.mk.inj hpair
  obtain ⟨devices, wrapped, h⟩ := prepareDrop_ok_iff.mp
    (mapError_ok_iff.mp (Program.exec_reads_eq_ok hprepared).1)
  have hmade := mapError_ok_iff.mp (Program.exec_ofExcept_eq_ok hbody).1
  obtain rfl := Except.ok.inj (mapError_ok_iff.mp (Program.exec_ofExcept_eq_ok hcell).1)
  have hclassical : prepared.hybridMode = false :=
    h.mode.trans (KnownAuthor.hybridMode_args count false)
  have hsign' := Program.exec_mapErr_eq_ok hsign
  rw [signBody, hclassical, if_neg Bool.false_ne_true] at hsign'
  obtain ⟨rfl, -⟩ := Program.exec_pure_eq_ok hsign'
  have hdevices : devices = List.replicate count device :=
    Except.ok.inj (h.resolved.symm.trans (KnownAuthor.resolve_dir count false))
  have hshapes := h.shapes lengthLaws
  rw [hdevices, List.length_replicate] at hshapes
  have hentries := length_entries_le hshapes
  have htags : minTags = 16 := rfl
  have hcanonical := length_toCanonical_le made
  have htext : (utf8 body.cell).length ≤ 15 := by decide +kernel
  rw [(bodyOf_ok hmade).1, (bodyOf_place hmade).1] at hcanonical
  have hle := length_encodeEnvelope_le made.suite sigEd25519
    (prepared.identity.signingPublic sending) [] made.toCanonical
    (prepared.identity.sign sending (signingInput made.toCanonical)).toList
  rw [List.Vector.toList_length, List.length_nil] at hle
  exact hle.trans (by omega)

/-- The recipient's directory: its identity, and nothing else. -/
def dir : Dir := AList.insert .identity (textBytes (identityText recipient)) ∅

theorem identity_dir : identity dir = .ok recipient :=
  identity_saved (AList.lookup_insert _)

theorem lookup_dir {file : File} (hfile : file ≠ .identity) : dir.lookup file = none := by
  rw [dir, AList.lookup_insert_ne hfile, AList.lookup_empty]

theorem device_recipient : device.1 = recipient.ecdhPublic sending := by decide +kernel

theorem ideal : Ideal sending (args 1 false) draws [device] dir := by
  have hholder := @known_ideal recipient (drop.id sending) drop.raw (fun _ => by decide +kernel)
    (fun hne => absurd device_recipient hne) ⟨.invalidPublicKey, by decide +kernel⟩
    fun _ _ _ => device_recipient
  refine hholder.of_same_keys rfl ?_ ?_
  · rw [identity_dir, identity_holderDir]
  · rw [hybrid_holderDir, hybrid, readToString, lookup_dir (by simp)]
    rfl

theorem addressed : Addressed sending dir (args 1 false).hybridMode [device] := by
  refine ⟨recipient, device, identity_dir, List.mem_singleton_self _, device_recipient,
    fun hmode => ?_⟩
  exact absurd ((KnownAuthor.hybridMode_args 1 false).symm.trans hmode) nofun

/-- Somebody asks the relay for a tree head in between. -/
theorem known_message_delivered : ∃ created stored store,
    (createDrop sending KnownAuthor.cellAt 0 (args 1 false) draws).exec ⟨KnownAuthor.dir, []⟩ =
      (.ok created, stored) ∧
    (push sending stored.dir "alice" created.id.toHex).exec .new = (.ok (), store) ∧
    let relay := Relay.run sending ⟨store, ∅⟩ [.message 1 .getSth]
    ∃ dir', (fetch sending (relayPeer sending relay.store) "relay" created.id.toHex).exec
        ⟨dir, []⟩ = (.ok (), ⟨dir', []⟩) ∧
      openDrop sending dir' created.id = .ok (utf8 "hello") := by
  obtain ⟨created, stored, hcreate⟩ :=
    KnownAuthor.exists_created Nat.one_ne_zero (by decide : 1 ≤ minTags) false
  obtain ⟨prepared, signed, body', hprepared, hcreated⟩ := exec_createDrop hcreate
  have hlen := length_raw (by decide : 1 ≤ minTags) hcreate hcreated.envelope
  have hfits : signed.raw.length + 27 ≤ maxFrame := by
    unfold maxFrame
    omega
  obtain ⟨store, hpush, hlater⟩ := message_delivered sending sendingLaws lengthLaws hcreate
    (KnownAuthor.resolve_dir 1 false) hcreated.envelope hfits .start "alice"
  refine ⟨created, stored, store, hcreate, hpush, ?_⟩
  intro relay
  rcases hlater [.message 1 .getSth] (fun _ _ _ hother => absurd hother List.not_mem_nil) with
    ⟨raw', hheld, a, ha, b, hb, hne, -⟩ | hreceives
  · -- the relay holds what was pushed
    obtain ⟨devices, wrapped, hprepares⟩ := prepareDrop_ok_iff.mp hprepared
    have hdrop := held_of_push
      (sendable_of_created sendingLaws lengthLaws hprepares hcreated hfits) hpush
    obtain rfl := Option.some.inj (hdrop.symm.trans hheld)
    exact absurd ((List.mem_singleton.mp ha).trans (List.mem_singleton.mp hb).symm) hne
  · have hempty : logBytes dir = [] := by
      rw [logBytes, lookup_dir (by simp)]
      rfl
    have hlog : WholeLog dir := by
      rw [WholeLog, hempty, logEntries, lookup_dir (by simp)]
      rfl
    obtain ⟨dir', hfetch, hopens, -⟩ :=
      hreceives dir hlog (.inl (lookup_dir (by simp))) ideal "relay"
    exact ⟨dir', hfetch, hopens.mpr addressed⟩

end KnownMessage

end Keepstone.Cli
