import Keepstone.Core.Envelope
import Keepstone.Node.Net

/-!
# The peer protocol on the wire (`crates/node/src/protocol.rs`, `send` and `recv` of `net.rs`)

A message is `[tag, payload]` in canonical CBOR, and a frame is its length in four bytes and then
the message. A connection, seen from the reader, is the bytes still to come before the peer
closes.

The CBOR layer has one spelling for each pair of a tag and a payload; what is left to the
messages is how each tag reads its payload. Four of the fourteen kinds read only the front of it
(`Message.Lax`), and this is all there is to say about spellings (`decode_ok_iff`).

Results:
* **`decode_ok_iff`**: what is decoded as which message;
* **`frames_received`**: messages sent one after the other are received as they were sent;
* **`decode_canonical_iff`**: which bytes are a second spelling of a message.
-/

namespace Keepstone.Node

open Keepstone.Lib Keepstone.Core Keepstone.Store

/-- `NodeError`. -/
inductive NodeError where
  | notFound
  | protocol (message : String)
  deriving DecidableEq

/-- `MAX_FRAME`. -/
def maxFrame : Nat := 8 * 1024 * 1024

/-! ## Messages -/

/-- `TAG_HELLO`. -/
def tagHello : UInt64 := 0
/-- `TAG_WANT`. -/
def tagWant : UInt64 := 1
/-- `TAG_DROP`. -/
def tagDrop : UInt64 := 2
/-- `TAG_MISSING`. -/
def tagMissing : UInt64 := 3
/-- `TAG_BYE`. -/
def tagBye : UInt64 := 4
/-- `TAG_WANT_CHUNK`. -/
def tagWantChunk : UInt64 := 5
/-- `TAG_CHUNK`. -/
def tagChunk : UInt64 := 6
/-- `TAG_PRESENCE`. -/
def tagPresence : UInt64 := 7
/-- `TAG_ATTESTATION`. -/
def tagAttestation : UInt64 := 8
/-- `TAG_PUT`. -/
def tagPut : UInt64 := 9
/-- `TAG_STORED`. -/
def tagStored : UInt64 := 10
/-- `TAG_PUT_CHUNK`. -/
def tagPutChunk : UInt64 := 11
/-- `TAG_GET_STH`. -/
def tagGetSth : UInt64 := 12
/-- `TAG_STH`. -/
def tagSth : UInt64 := 13

/-- The tag and the payload, as every arm of `Message::encode` writes them. -/
def tagged (tag : UInt64) (payload : List UInt8) : List UInt8 :=
  Encoder.array 2 ++ Encoder.uint tag ++ Encoder.bytes payload

/-- An id and a big-endian index, with which three of the payloads begin. -/
def idIndex (id : DropId) (index : UInt32) : List UInt8 :=
  id.bytes.toList ++ beBytes 4 index.toNat

/-- `Message::encode`. -/
def Message.encode : Message → List UInt8
  | .hello version => tagged tagHello [version]
  | .want id => tagged tagWant id.bytes.toList
  | .drop raw => tagged tagDrop raw
  | .missing id => tagged tagMissing id.bytes.toList
  | .wantChunk id index => tagged tagWantChunk (idIndex id index)
  | .chunk id index data => tagged tagChunk (idIndex id index ++ data)
  | .presence bytes => tagged tagPresence bytes
  | .attestation bytes => tagged tagAttestation bytes
  | .put raw => tagged tagPut raw
  | .putChunk id index data => tagged tagPutChunk (idIndex id index ++ data)
  | .stored id => tagged tagStored id.bytes.toList
  | .getSth => tagged tagGetSth []
  | .sth bytes => tagged tagSth bytes
  | .bye => tagged tagBye []

/-- `id_from`. -/
def idFrom (payload : List UInt8) : Except NodeError DropId := do
  let bytes ← okOr (tryBytes 32 payload) (.protocol "id length")
  pure ⟨bytes⟩

/-- `id_index_from`. -/
def idIndexFrom (payload : List UInt8) : Except NodeError (DropId × UInt32) := do
  if payload.length < 36 then throw (.protocol "chunk header")
  let id ← idFrom (payload.take 32)
  let index ← okOr (tryBytes 4 ((payload.drop 32).take 4)) (.protocol "chunk index")
  pure (id, UInt32.ofNat (beNat index.toList))

/-- The array header, the tag and the payload of `Message::decode`. -/
def readTagged : Reader NodeError (UInt64 × List UInt8) := do
  let arity ← Decoder.array.mapErr fun _ => .protocol "arity"
  Reader.ensure (arity = 2) (.protocol "arity")
  let tag ← Decoder.uint.mapErr fun _ => .protocol "tag"
  let payload ← Decoder.bytes.mapErr fun _ => .protocol "payload"
  pure (tag, payload)

/-- The `match` of `Message::decode`. -/
def interpret (tag : UInt64) (payload : List UInt8) : Except NodeError Message :=
  if tag = tagHello then do
    let version ← okOr payload.head? (.protocol "hello")
    pure (.hello version)
  else if tag = tagWant then do
    let id ← idFrom payload
    pure (.want id)
  else if tag = tagDrop then pure (.drop payload)
  else if tag = tagMissing then do
    let id ← idFrom payload
    pure (.missing id)
  else if tag = tagWantChunk then do
    let (id, index) ← idIndexFrom payload
    pure (.wantChunk id index)
  else if tag = tagChunk then do
    let (id, index) ← idIndexFrom payload
    pure (.chunk id index (payload.drop 36))
  else if tag = tagPresence then pure (.presence payload)
  else if tag = tagAttestation then pure (.attestation payload)
  else if tag = tagPut then pure (.put payload)
  else if tag = tagPutChunk then do
    let (id, index) ← idIndexFrom payload
    pure (.putChunk id index (payload.drop 36))
  else if tag = tagStored then do
    let id ← idFrom payload
    pure (.stored id)
  else if tag = tagGetSth then pure .getSth
  else if tag = tagSth then pure (.sth payload)
  else if tag = tagBye then pure .bye
  else throw (.protocol "unknown tag")

/-- `Message::decode`. -/
def Message.decode (bytes : List UInt8) : Except NodeError Message := do
  let whole : Reader NodeError (UInt64 × List UInt8) := do
    let tagPayload ← readTagged
    Decoder.finish.mapErr fun _ => .protocol "trailing"
    pure tagPayload
  let (tag, payload) ← (whole ⟨bytes, 0⟩).1
  interpret tag payload

/-! ## Frames -/

/-- `frame`. -/
def frame (message : Message) : Except NodeError (List UInt8) :=
  let body := message.encode
  if maxFrame < body.length then throw (.protocol "frame too large")
  else if 2 ^ 32 ≤ body.length then throw (.protocol "frame too large")
  else pure (beBytes 4 body.length ++ body)

/-- `send`: the bytes given to `write_all`. -/
def send (message : Message) : Except IoError (List UInt8) :=
  (frame message).mapError fun _ => .message "frame"

/-- `recv` on the bytes that are still to come, and the bytes left after it. `read_exact` fails
when the stream ends first. -/
def recv (stream : List UInt8) : Except IoError (Option Message) × List UInt8 :=
  if stream.length < 4 then (.ok none, [])
  else
    let len := beNat (stream.take 4)
    let rest := stream.drop 4
    if maxFrame < len then (.error (.message "frame too large"), rest)
    else if rest.length < len then (.error .system, [])
    else
      match Message.decode (rest.take len) with
      | .error _ => (.error (.message "protocol"), rest.drop len)
      | .ok message => (.ok (some message), rest.drop len)

/-- The results of `n` calls of `recv` one after the other. -/
def recvTimes : Nat → List UInt8 → List (Except IoError (Option Message))
  | 0, _ => []
  | n + 1, stream => (recv stream).1 :: recvTimes n (recv stream).2

/-! ## What is decoded -/

theorem idFrom_ok_iff {payload : List UInt8} {id : DropId} :
    idFrom payload = .ok id ↔ payload = id.bytes.toList := by
  unfold idFrom
  simp only [bind_ok_iff, okOr_ok_iff, tryBytes_eq_some_iff, pure_ok_iff]
  constructor
  · rintro ⟨bytes, rfl, rfl⟩
    rfl
  · rintro rfl
    exact ⟨id.bytes, rfl, rfl⟩

@[simp] theorem length_idIndex (id : DropId) (index : UInt32) : (idIndex id index).length = 36 := by
  rw [idIndex, List.length_append, id.bytes.toList_length, length_beBytes]

theorem ofNat_beNat_eq_iff {bytes : List UInt8} (hlen : bytes.length = 4) {index : UInt32} :
    UInt32.ofNat (beNat bytes) = index ↔ bytes = beBytes 4 index.toNat := by
  have hlt : beNat bytes < 2 ^ 32 := by
    have := beNat_lt bytes
    rwa [hlen] at this
  constructor
  · rintro rfl
    rw [UInt32.toNat_ofNat_of_lt' hlt, ← hlen, beBytes_beNat]
  · rintro rfl
    rw [beNat_beBytes index.toNat_lt, UInt32.ofNat_toNat]

theorem idIndexFrom_ok_iff {payload : List UInt8} {id : DropId} {index : UInt32} :
    idIndexFrom payload = .ok (id, index) ↔ idIndex id index <+: payload := by
  unfold idIndexFrom
  by_cases hshort : payload.length < 36
  · rw [if_pos hshort]
    refine iff_of_false nofun fun h => ?_
    have := h.length_le
    rw [length_idIndex] at this
    omega
  · have hindex : ((payload.drop 32).take 4).length = 4 := by
      rw [List.length_take, List.length_drop]
      omega
    have hsplit : payload.take 36 = payload.take 32 ++ (payload.drop 32).take 4 :=
      List.take_add (i := 32) (j := 4)
    have hid : id.bytes.toList.length = (payload.take 32).length := by
      rw [id.bytes.toList_length, List.length_take]
      omega
    rw [if_neg hshort, List.prefix_iff_eq_take, length_idIndex, hsplit, idIndex]
    simp only [bind_ok_iff, idFrom_ok_iff, okOr_ok_iff, tryBytes_eq_some_iff, pure_ok_iff]
    constructor
    · rintro ⟨_, hid', bytes, hbytes, heq⟩
      obtain ⟨rfl, hindex'⟩ := Prod.mk.inj heq
      rw [← hbytes, ofNat_beNat_eq_iff hindex] at hindex'
      rw [hid', hindex']
    · intro h
      obtain ⟨hid, hindex'⟩ := List.append_inj h hid
      refine ⟨id, hid.symm, bytesOf _ hindex, rfl, ?_⟩
      rw [toList_bytesOf, (ofNat_beNat_eq_iff hindex).mpr hindex'.symm]

/-- The tag of a message. -/
def Message.tag : Message → UInt64
  | .hello _ => tagHello
  | .want _ => tagWant
  | .drop _ => tagDrop
  | .missing _ => tagMissing
  | .wantChunk _ _ => tagWantChunk
  | .chunk _ _ _ => tagChunk
  | .presence _ => tagPresence
  | .attestation _ => tagAttestation
  | .put _ => tagPut
  | .putChunk _ _ _ => tagPutChunk
  | .stored _ => tagStored
  | .getSth => tagGetSth
  | .sth _ => tagSth
  | .bye => tagBye

/-- The payload of a message. -/
def Message.payload : Message → List UInt8
  | .hello version => [version]
  | .want id | .missing id | .stored id => id.bytes.toList
  | .drop bytes | .presence bytes | .attestation bytes | .put bytes | .sth bytes => bytes
  | .wantChunk id index => idIndex id index
  | .chunk id index data | .putChunk id index data => idIndex id index ++ data
  | .getSth | .bye => []

/-- The kinds of which the decoder reads only the front of the payload. -/
def Message.Lax : Message → Prop
  | .hello _ | .wantChunk _ _ | .getSth | .bye => True
  | _ => False

theorem Message.encode_eq (m : Message) : m.encode = tagged m.tag m.payload := by
  cases m <;> rfl

/-- The payloads that the decoder reads as the message's. -/
def Message.Reads (m : Message) (payload : List UInt8) : Prop :=
  m.payload <+: payload ∧ (m.Lax ∨ payload = m.payload)

theorem Message.reads_payload (m : Message) : m.Reads m.payload := ⟨List.prefix_rfl, Or.inr rfl⟩

theorem reads_of_interpret {tag : UInt64} {payload : List UInt8} {m : Message}
    (h : interpret tag payload = .ok m) : tag = m.tag ∧ m.Reads payload := by
  unfold interpret at h
  by_cases hello : tag = tagHello
  · rw [if_pos hello] at h
    obtain ⟨version, hhead, h⟩ := bind_ok_iff.mp h
    obtain rfl := pure_ok_iff.mp h
    rw [okOr_ok_iff, List.head?_eq_some_iff] at hhead
    obtain ⟨rest, rfl⟩ := hhead
    exact ⟨hello, ⟨rest, rfl⟩, Or.inl trivial⟩
  rw [if_neg hello] at h
  by_cases want : tag = tagWant
  · rw [if_pos want] at h
    obtain ⟨id, hid, h⟩ := bind_ok_iff.mp h
    obtain rfl := pure_ok_iff.mp h
    rw [idFrom_ok_iff.mp hid]
    exact ⟨want, Message.reads_payload (.want id)⟩
  rw [if_neg want] at h
  by_cases drop : tag = tagDrop
  · rw [if_pos drop] at h
    obtain rfl := pure_ok_iff.mp h
    exact ⟨drop, Message.reads_payload (.drop payload)⟩
  rw [if_neg drop] at h
  by_cases missing : tag = tagMissing
  · rw [if_pos missing] at h
    obtain ⟨id, hid, h⟩ := bind_ok_iff.mp h
    obtain rfl := pure_ok_iff.mp h
    rw [idFrom_ok_iff.mp hid]
    exact ⟨missing, Message.reads_payload (.missing id)⟩
  rw [if_neg missing] at h
  by_cases wantChunk : tag = tagWantChunk
  · rw [if_pos wantChunk] at h
    obtain ⟨⟨id, index⟩, hid, h⟩ := bind_ok_iff.mp h
    obtain rfl := pure_ok_iff.mp h
    exact ⟨wantChunk, idIndexFrom_ok_iff.mp hid, Or.inl trivial⟩
  rw [if_neg wantChunk] at h
  by_cases chunk : tag = tagChunk
  · rw [if_pos chunk] at h
    obtain ⟨⟨id, index⟩, hid, h⟩ := bind_ok_iff.mp h
    obtain rfl := pure_ok_iff.mp h
    obtain ⟨data, rfl⟩ := idIndexFrom_ok_iff.mp hid
    rw [List.drop_left' (length_idIndex id index)]
    exact ⟨chunk, Message.reads_payload (.chunk id index data)⟩
  rw [if_neg chunk] at h
  by_cases presence : tag = tagPresence
  · rw [if_pos presence] at h
    obtain rfl := pure_ok_iff.mp h
    exact ⟨presence, Message.reads_payload (.presence payload)⟩
  rw [if_neg presence] at h
  by_cases attestation : tag = tagAttestation
  · rw [if_pos attestation] at h
    obtain rfl := pure_ok_iff.mp h
    exact ⟨attestation, Message.reads_payload (.attestation payload)⟩
  rw [if_neg attestation] at h
  by_cases put : tag = tagPut
  · rw [if_pos put] at h
    obtain rfl := pure_ok_iff.mp h
    exact ⟨put, Message.reads_payload (.put payload)⟩
  rw [if_neg put] at h
  by_cases putChunk : tag = tagPutChunk
  · rw [if_pos putChunk] at h
    obtain ⟨⟨id, index⟩, hid, h⟩ := bind_ok_iff.mp h
    obtain rfl := pure_ok_iff.mp h
    obtain ⟨data, rfl⟩ := idIndexFrom_ok_iff.mp hid
    rw [List.drop_left' (length_idIndex id index)]
    exact ⟨putChunk, Message.reads_payload (.putChunk id index data)⟩
  rw [if_neg putChunk] at h
  by_cases stored : tag = tagStored
  · rw [if_pos stored] at h
    obtain ⟨id, hid, h⟩ := bind_ok_iff.mp h
    obtain rfl := pure_ok_iff.mp h
    rw [idFrom_ok_iff.mp hid]
    exact ⟨stored, Message.reads_payload (.stored id)⟩
  rw [if_neg stored] at h
  by_cases getSth : tag = tagGetSth
  · rw [if_pos getSth] at h
    obtain rfl := pure_ok_iff.mp h
    exact ⟨getSth, List.nil_prefix, Or.inl trivial⟩
  rw [if_neg getSth] at h
  by_cases sth : tag = tagSth
  · rw [if_pos sth] at h
    obtain rfl := pure_ok_iff.mp h
    exact ⟨sth, Message.reads_payload (.sth payload)⟩
  rw [if_neg sth] at h
  by_cases bye : tag = tagBye
  · rw [if_pos bye] at h
    obtain rfl := pure_ok_iff.mp h
    exact ⟨bye, List.nil_prefix, Or.inl trivial⟩
  rw [if_neg bye] at h
  exact absurd h nofun

theorem interpret_of_reads {payload : List UInt8} {m : Message} (h : m.Reads payload) :
    interpret m.tag payload = .ok m := by
  obtain ⟨hfront, hall⟩ := h
  have hid (id : DropId) : idFrom id.bytes.toList = .ok id := idFrom_ok_iff.mpr rfl
  have hindexed (id : DropId) (index : UInt32) (data : List UInt8) :
      idIndexFrom (idIndex id index ++ data) = .ok (id, index) :=
    idIndexFrom_ok_iff.mpr ⟨data, rfl⟩
  have hdata (id : DropId) (index : UInt32) (data : List UInt8) :
      (idIndex id index ++ data).drop 36 = data := List.drop_left' (length_idIndex id index)
  cases m with
  | hello version =>
    obtain ⟨rest, rfl⟩ := hfront
    rfl
  | wantChunk id index =>
    obtain ⟨rest, rfl⟩ := hfront
    exact bind_ok_iff.mpr ⟨_, hindexed id index rest, rfl⟩
  | getSth => rfl
  | bye => rfl
  | want id | missing id | stored id =>
    obtain rfl := hall.resolve_left fun h => h
    exact bind_ok_iff.mpr ⟨_, hid _, rfl⟩
  | chunk id index data | putChunk id index data =>
    obtain rfl := hall.resolve_left fun h => h
    refine bind_ok_iff.mpr ⟨_, hindexed id index data, pure_ok_iff.mpr ?_⟩
    rw [Message.payload, hdata]
  | drop bytes | presence bytes | attestation bytes | put bytes | sth bytes =>
    obtain rfl := hall.resolve_left fun h => h
    rfl

/-- **How a tag reads its payload.** -/
theorem interpret_ok_iff {tag : UInt64} {payload : List UInt8} {m : Message} :
    interpret tag payload = .ok m ↔ tag = m.tag ∧ m.Reads payload := by
  constructor
  · exact reads_of_interpret
  · rintro ⟨rfl, h⟩
    exact interpret_of_reads h

theorem exact_readTagged :
    Exact readTagged (fun _ => True) fun tagPayload => tagged tagPayload.1 tagPayload.2 := by
  have hpayload (tag : UInt64) : Exact
      (do let payload ← Decoder.bytes.mapErr fun _ => NodeError.protocol "payload"
          pure (tag, payload))
      (fun tagPayload => True ∧ tagPayload.1 = tag)
      fun tagPayload => Encoder.bytes tagPayload.2 := by
    refine ((Decoder.exact_bytes.mapErr _).map (tag, ·) fun _ _ => rfl).congr (fun _ _ => rfl)
      fun tagPayload _ => ?_
    constructor
    · rintro ⟨payload, -, rfl⟩
      exact ⟨trivial, rfl⟩
    · rintro ⟨-, rfl⟩
      exact ⟨tagPayload.2, trivial, rfl⟩
  refine ((Decoder.exact_array.mapErr _).expect (by decide) _
    ((Decoder.exact_uint.mapErr _).field Prod.fst hpayload)).congr (fun tagPayload _ => ?_)
      fun _ _ => Iff.rfl
  rw [tagged, List.append_assoc]

/-- **What is decoded**: a tag and a payload that this tag reads as the message. -/
theorem decode_ok_iff {s : List UInt8} (hs : s.length < 2 ^ 64) {m : Message} :
    Message.decode s = .ok m ↔ ∃ payload, s = tagged m.tag payload ∧ m.Reads payload := by
  have hfinish (c c' : Cursor) :
      (Decoder.finish.mapErr fun _ => NodeError.protocol "trailing") c = (.ok (), c') ↔
        c.pos = c.input.length ∧ c' = c :=
    Reader.mapErr_ok_iff.trans (Decoder.finish_ok_iff c c')
  have hwhole (tag : UInt64) (payload : List UInt8) :=
    exact_readTagged.run_end_iff (a := (tag, payload)) hfinish hs
  unfold Message.decode
  rw [bind_ok_iff]
  constructor
  · rintro ⟨⟨tag, payload⟩, hread, h⟩
    obtain ⟨rfl, hreads⟩ := interpret_ok_iff.mp h
    exact ⟨payload, ((hwhole _ _).mp hread).2, hreads⟩
  · rintro ⟨payload, rfl, hreads⟩
    exact ⟨(m.tag, payload), (hwhole _ _).mpr ⟨trivial, rfl⟩, interpret_of_reads hreads⟩

theorem decode_encode {m : Message} (hlen : m.encode.length < 2 ^ 64) :
    Message.decode m.encode = .ok m :=
  (decode_ok_iff hlen).mpr ⟨m.payload, m.encode_eq, m.reads_payload⟩

/-! ## What is received -/

theorem frame_error_iff {m : Message} :
    (∃ e, frame m = .error e) ↔ maxFrame < m.encode.length := by
  unfold frame
  by_cases hlarge : maxFrame < m.encode.length
  · simp only [if_pos hlarge]
    exact iff_of_true ⟨_, rfl⟩ hlarge
  · have hfits : ¬ 2 ^ 32 ≤ m.encode.length := by
      unfold maxFrame at hlarge
      omega
    simp only [if_neg hlarge, if_neg hfits]
    exact iff_of_false nofun hlarge

theorem frame_of_le {m : Message} (hle : m.encode.length ≤ maxFrame) :
    frame m = .ok (beBytes 4 m.encode.length ++ m.encode) := by
  have hfits : ¬ 2 ^ 32 ≤ m.encode.length := by
    unfold maxFrame at hle
    omega
  unfold frame
  simp only [if_neg (Nat.not_lt.mpr hle), if_neg hfits]
  rfl

/-- What `recv` makes of four bytes and the rest. -/
theorem recv_header {header rest : List UInt8} (hlen : header.length = 4) :
    recv (header ++ rest) =
      if maxFrame < beNat header then (.error (.message "frame too large"), rest)
      else if rest.length < beNat header then (.error .system, [])
      else
        match Message.decode (rest.take (beNat header)) with
        | .error _ => (.error (.message "protocol"), rest.drop (beNat header))
        | .ok message => (.ok (some message), rest.drop (beNat header)) := by
  have hlong : ¬ (header ++ rest).length < 4 := by
    rw [List.length_append]
    omega
  unfold recv
  rw [if_neg hlong, List.take_left' hlen, List.drop_left' hlen]

/-- **A frame is received as the message**, and what follows it is left. -/
theorem recv_frame {m : Message} (hle : m.encode.length ≤ maxFrame) (rest : List UInt8) :
    recv (beBytes 4 m.encode.length ++ m.encode ++ rest) = (.ok (some m), rest) := by
  have hmax : maxFrame < 256 ^ 4 := by decide
  have hnat : beNat (beBytes 4 m.encode.length) = m.encode.length :=
    beNat_beBytes (hle.trans_lt hmax)
  have hlong : ¬ (m.encode ++ rest).length < m.encode.length := by
    rw [List.length_append]
    omega
  rw [List.append_assoc, recv_header (length_beBytes ..), hnat, if_neg (Nat.not_lt.mpr hle),
    if_neg hlong, List.take_left, List.drop_left,
    decode_encode (hle.trans_lt (hmax.trans (by decide)))]

/-- **A received message was framed**: the stream began with the length of a body within the limit,
and the body, which decodes as the message. -/
theorem exists_frame_of_recv {stream rest : List UInt8} {m : Message}
    (h : recv stream = (.ok (some m), rest)) :
    ∃ body, body.length ≤ maxFrame ∧ Message.decode body = .ok m ∧
      stream = beBytes 4 body.length ++ body ++ rest := by
  by_cases hshort : stream.length < 4
  · rw [recv, if_pos hshort] at h
    exact absurd (congrArg Prod.fst h) nofun
  · obtain ⟨header, tail, rfl, hheader⟩ : ∃ header tail, stream = header ++ tail ∧
        header.length = 4 := by
      refine ⟨stream.take 4, stream.drop 4, (List.take_append_drop 4 stream).symm, ?_⟩
      rw [List.length_take]
      omega
    rw [recv_header hheader] at h
    split at h
    case isTrue => exact absurd (congrArg Prod.fst h) nofun
    case isFalse hfits =>
      split at h
      case isTrue => exact absurd (congrArg Prod.fst h) nofun
      case isFalse hwhole =>
        split at h
        case h_1 => exact absurd (congrArg Prod.fst h) nofun
        case h_2 message hdecode =>
          obtain ⟨hmessage, rfl⟩ := Prod.mk.inj h
          obtain rfl := Option.some.inj (Except.ok.inj hmessage)
          have hlen : (tail.take (beNat header)).length = beNat header := by
            rw [List.length_take]
            omega
          refine ⟨tail.take (beNat header), by omega, hdecode, ?_⟩
          rw [hlen, ← hheader, beBytes_beNat, List.append_assoc, List.take_append_drop]

/-- The length in a header is refused when it exceeds the limit, whatever follows. -/
theorem recv_refuses_iff {header rest : List UInt8} (hlen : header.length = 4) :
    (recv (header ++ rest)).1 = .error (.message "frame too large") ↔
      maxFrame < beNat header := by
  rw [recv_header hlen]
  by_cases hlarge : maxFrame < beNat header
  · rw [if_pos hlarge]
    exact iff_of_true rfl hlarge
  · rw [if_neg hlarge]
    refine iff_of_false ?_ hlarge
    split
    · exact nofun
    · split
      · intro h
        exact absurd (IoError.message.inj (Except.error.inj h)) (by decide)
      · exact nofun

theorem recvTimes_nil (n : Nat) : recvTimes n [] = List.replicate n (.ok none) := by
  induction n with
  | zero => rfl
  | succ n ih => exact congrArg (_ :: ·) ih

/-- Frames one after the other are received as the messages, and then the end of the stream for
as long as one asks. -/
theorem recvTimes_frames {ms : List Message} (hle : ∀ m ∈ ms, m.encode.length ≤ maxFrame)
    (n : Nat) :
    recvTimes (ms.length + n)
        (ms.map fun m => beBytes 4 m.encode.length ++ m.encode).flatten =
      ms.map (fun m => .ok (some m)) ++ List.replicate n (.ok none) := by
  induction ms with
  | nil =>
    rw [List.length_nil, Nat.zero_add]
    exact recvTimes_nil n
  | cons m ms ih =>
    obtain ⟨hm, hms⟩ := List.forall_mem_cons.mp hle
    rw [List.length_cons, Nat.add_right_comm, List.map_cons, List.flatten_cons, recvTimes,
      recv_frame hm, ih hms, List.map_cons, List.cons_append]

theorem mapM_frame_of_le {ms : List Message} (hle : ∀ m ∈ ms, m.encode.length ≤ maxFrame) :
    ms.mapM frame = .ok (ms.map fun m => beBytes 4 m.encode.length ++ m.encode) := by
  rw [mapM_ok_iff, List.forall₂_map_right_iff, List.forall₂_same]
  exact fun m hm => frame_of_le (hle m hm)

/-- A message is too large to be framed exactly when a header with its length is refused. A length
that no header can hold is refused too. -/
theorem frame_refuses_iff {m : Message} :
    (∃ e, frame m = .error e) ↔
      ∀ header rest, header.length = 4 → beNat header = m.encode.length →
        (recv (header ++ rest)).1 = .error (.message "frame too large") := by
  rw [frame_error_iff]
  constructor
  · intro hlarge header rest hlen hnat
    rw [recv_refuses_iff hlen, hnat]
    exact hlarge
  · intro h
    by_contra hle
    have hfits : m.encode.length < 256 ^ 4 := by
      unfold maxFrame at hle
      omega
    have hnat := beNat_beBytes hfits
    have hrefused := h _ [] (length_beBytes ..) hnat
    rw [recv_refuses_iff (length_beBytes ..), hnat] at hrefused
    exact hle hrefused

/-- **The protocol decodes what it encodes**, over whole streams: each message; a list of messages
framed one after the other, which is received as that list and then a clean end; and sender and
receiver have the same limit. A message is one that fits an address space. -/
theorem frames_received :
    (∀ m : Message, m.encode.length < 2 ^ 64 → Message.decode m.encode = .ok m) ∧
      (∀ ms : List Message, (∀ m ∈ ms, m.encode.length ≤ maxFrame) →
        ∃ framed, ms.mapM frame = .ok framed ∧
          ∀ n, recvTimes (ms.length + n) framed.flatten =
            ms.map (fun m => .ok (some m)) ++ List.replicate n (.ok none)) ∧
      ∀ m : Message, (∃ e, frame m = .error e) ↔
        ∀ header rest, header.length = 4 → beNat header = m.encode.length →
          (recv (header ++ rest)).1 = .error (.message "frame too large") := by
  refine ⟨fun m => decode_encode, fun ms hle => ?_, fun m => frame_refuses_iff⟩
  exact ⟨_, mapM_frame_of_le hle, recvTimes_frames hle⟩

/-- A greeting, a chunk and a goodbye. -/
theorem known_frames_received :
    let ms : List Message := [.hello 1, .chunk ⟨List.Vector.replicate 32 7⟩ 258 [1, 2, 3], .bye]
    ∃ framed, ms.mapM frame = .ok framed ∧
      recvTimes 4 framed.flatten = ms.map (fun m => .ok (some m)) ++ [.ok none] := by
  intro ms
  obtain ⟨framed, hframed, h⟩ := frames_received.2.1 ms (by decide +kernel)
  exact ⟨framed, hframed, h 1⟩

/-! ## One spelling -/

/-- The payload has nothing after what its tag reads. -/
def Trimmed (tag : UInt64) (payload : List UInt8) : Prop :=
  (tag = tagHello → payload.length ≤ 1) ∧
    (tag = tagWantChunk → payload.length ≤ 36) ∧
    (tag = tagGetSth ∨ tag = tagBye → payload = [])

instance (tag : UInt64) (payload : List UInt8) : Decidable (Trimmed tag payload) :=
  inferInstanceAs (Decidable (_ ∧ _ ∧ _))

/-- Thirty-six bytes are an id and an index. -/
theorem exists_idIndex {payload : List UInt8} (hlen : 36 ≤ payload.length) :
    ∃ id index, idIndex id index <+: payload := by
  have hid : (payload.take 32).length = 32 := by
    rw [List.length_take]
    omega
  have hindex : ((payload.drop 32).take 4).length = 4 := by
    rw [List.length_take, List.length_drop]
    omega
  refine ⟨⟨bytesOf _ hid⟩, UInt32.ofNat (beNat ((payload.drop 32).take 4)), ?_⟩
  rw [idIndex, toList_bytesOf, ← (ofNat_beNat_eq_iff hindex).mp rfl,
    ← List.take_add (i := 32) (j := 4)]
  exact List.take_prefix 36 payload

/-- A payload is trimmed when it is the payload of whatever message it is read as. -/
theorem trimmed_iff {tag : UInt64} {payload : List UInt8} :
    Trimmed tag payload ↔ ∀ m : Message, tag = m.tag → m.Reads payload → payload = m.payload := by
  constructor
  · rintro ⟨hhello, hwantChunk, hempty⟩ m rfl ⟨hfront, hall⟩
    cases m with
    | hello version => exact (hfront.eq_of_length_le (hhello rfl)).symm
    | wantChunk id index =>
      refine (hfront.eq_of_length_le ?_).symm
      rw [Message.payload, length_idIndex]
      exact hwantChunk rfl
    | getSth => exact hempty (Or.inl rfl)
    | bye => exact hempty (Or.inr rfl)
    | _ => exact hall.resolve_left fun h => h
  · intro h
    refine ⟨?_, ?_, ?_⟩
    · rintro rfl
      cases payload with
      | nil => exact Nat.zero_le 1
      | cons version rest =>
        have := h (.hello version) rfl ⟨⟨rest, rfl⟩, Or.inl trivial⟩
        rw [this]
        exact le_rfl
    · rintro rfl
      by_contra hlong
      have hheader : 36 ≤ payload.length := by omega
      obtain ⟨id, index, hfront⟩ := exists_idIndex hheader
      have := h (.wantChunk id index) rfl ⟨hfront, Or.inl trivial⟩
      rw [this, Message.payload, length_idIndex] at hlong
      omega
    · rintro (rfl | rfl)
      · exact h .getSth rfl ⟨List.nil_prefix, Or.inl trivial⟩
      · exact h .bye rfl ⟨List.nil_prefix, Or.inl trivial⟩

theorem tagged_inj {tag tag' : UInt64} {payload payload' : List UInt8}
    (hlen : (tagged tag payload).length < 2 ^ 64) :
    tagged tag payload = tagged tag' payload' ↔ tag = tag' ∧ payload = payload' := by
  constructor
  · intro h
    obtain ⟨c, hc, -⟩ := (exact_readTagged.run_iff hlen (a := (tag, payload))).mpr ⟨trivial, rfl⟩
    obtain ⟨c', hc', -⟩ := (exact_readTagged.run_iff hlen (a := (tag', payload'))).mpr ⟨trivial, h⟩
    rw [hc] at hc'
    exact Prod.mk.inj (Except.ok.inj (Prod.mk.inj hc').1)
  · rintro ⟨rfl, rfl⟩
    rfl

/-- **Second spellings**: bytes are decoded only as the message that encodes to them exactly when
the payload in them is trimmed. -/
theorem decode_canonical_iff (s : List UInt8) (hs : s.length < 2 ^ 64) :
    (∀ m, Message.decode s = .ok m → m.encode = s) ↔
      ∀ tag payload, s = tagged tag payload → Trimmed tag payload := by
  constructor
  · rintro h tag payload rfl
    rw [trimmed_iff]
    rintro m rfl hreads
    have hencode := h m ((decode_ok_iff hs).mpr ⟨payload, rfl, hreads⟩)
    rw [m.encode_eq, eq_comm, tagged_inj hs] at hencode
    exact hencode.2
  · intro h m hm
    obtain ⟨payload, rfl, hreads⟩ := (decode_ok_iff hs).mp hm
    rw [m.encode_eq, ← trimmed_iff.mp (h _ _ rfl) m rfl hreads]

/-- A chunk request as it is encoded. -/
theorem known_request_canonical :
    let m := Message.wantChunk ⟨List.Vector.replicate 32 7⟩ 258
    ∀ m', Message.decode m.encode = .ok m' → m'.encode = m.encode := by
  intro m
  have hlen : m.encode.length < 2 ^ 64 := by decide +kernel
  refine (decode_canonical_iff m.encode hlen).mpr fun tag payload h => ?_
  obtain ⟨rfl, rfl⟩ := (tagged_inj hlen).mp h
  decide +kernel

/-- A goodbye with a byte after it is a goodbye. -/
theorem padded_bye_decoded :
    let s : List UInt8 := [0x82, 0x04, 0x41, 0x00]
    Message.decode s = .ok .bye ∧ Message.bye.encode ≠ s :=
  ⟨rfl, by decide +kernel⟩

end Keepstone.Node
