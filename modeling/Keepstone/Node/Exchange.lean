import Keepstone.Node.Serving
import Keepstone.Node.Witness

/-!
# One request over libp2p (`crates/p2p/src/lib.rs:66-137, 209-227, 278-350, 592-604`)

On a libp2p stream a message has no length in front: `write_message` writes it and closes the
stream, and `read_message` reads to the end, in whatever pieces the bytes come. TCP puts the length
in front and leaves the stream open. The limit is the same.

A request that cannot be read, or whose response cannot, is an `OutboundFailure`; `request` passes
over that event and waits until it times out.

Results:
* `readMessage_deliver`: what is read depends on the bytes of the stream alone;
* **`transports_read_alike`**: libp2p reads from a stream what TCP receives in a frame, for all
  bytes;
* **`fetch_transports_agree`**: a relay serves the same over both, and what;
* **`presence_transports_agree`**: a witness attests the same over both.
-/

namespace Keepstone.Node

open Keepstone.Lib Keepstone.Crypto Keepstone.Core Keepstone.Store

/-! ## The codec -/

/-- What a read puts into a buffer of 8192 bytes. -/
abbrev Piece := { bytes : List UInt8 // bytes.length ≤ 8192 }

/-- What a read from the stream gives; no bytes are the end of the stream. -/
inductive Incoming where
  | bytes (piece : Piece)
  | failed (error : IoError)

/-- How a reading ends that gives no message. -/
inductive ReadEnd where
  | error (error : IoError)
  /-- It waits for more than has come. -/
  | waits
  deriving DecidableEq

/-- The loop of `read_message`, with what is in `buf`, and the decoding after it. -/
def readMessage : List UInt8 → List Incoming → Except ReadEnd Message
  | _, [] => .error .waits
  | _, .failed e :: _ => .error (.error e)
  | buf, .bytes piece :: rest =>
    if piece.val = [] then (Message.decode buf).mapError fun _ => .error (.message "protocol")
    else if maxFrame < (buf ++ piece.val).length then
      .error (.error (.message "frame too large"))
    else readMessage (buf ++ piece.val) rest

/-- `write_message`: the bytes of the stream, which is then closed. -/
def writeMessage (message : Message) : List UInt8 := message.encode

/-- A way in which streams may come in pieces. -/
structure Cut where
  /-- The pieces of a stream. -/
  pieces : List UInt8 → List Piece
  flat_pieces : ∀ stream, (pieces stream).flatMap Subtype.val = stream
  ne_nil : ∀ stream, ∀ piece ∈ pieces stream, piece.val ≠ []

/-- One byte at a time. -/
def Cut.singles : Cut where
  pieces stream := stream.map fun byte => ⟨[byte], by simp⟩
  flat_pieces stream := by
    rw [List.flatMap_map]
    exact List.flatMap_singleton' stream
  ne_nil stream piece h := by
    obtain ⟨byte, -, rfl⟩ := List.mem_map.mp h
    exact List.cons_ne_nil _ _

/-- The reads from a stream that comes in pieces, and then ends. -/
def Cut.deliver (cut : Cut) (stream : List UInt8) : List Incoming :=
  (cut.pieces stream).map .bytes ++ [.bytes ⟨[], Nat.zero_le _⟩]

/-- What the bytes of a stream say. -/
def messageOf (stream : List UInt8) : Except ReadEnd Message :=
  if maxFrame < stream.length then .error (.error (.message "frame too large"))
  else (Message.decode stream).mapError fun _ => .error (.message "protocol")

theorem readMessage_pieces {pieces : List Piece} (hne : ∀ piece ∈ pieces, piece.val ≠ [])
    {buf : List UInt8} (hbuf : buf.length ≤ maxFrame) :
    readMessage buf (pieces.map .bytes ++ [.bytes ⟨[], Nat.zero_le _⟩]) =
      messageOf (buf ++ pieces.flatMap Subtype.val) := by
  induction pieces generalizing buf with
  | nil =>
    rw [List.flatMap_nil, List.append_nil, messageOf, if_neg (Nat.not_lt.mpr hbuf)]
    rfl
  | cons piece pieces ih =>
    obtain ⟨hpiece, hpieces⟩ := List.forall_mem_cons.mp hne
    rw [List.map_cons, List.cons_append, readMessage, if_neg hpiece, List.flatMap_cons,
      ← List.append_assoc]
    by_cases hlarge : maxFrame < (buf ++ piece.val).length
    · have hwhole : maxFrame < (buf ++ piece.val ++ pieces.flatMap Subtype.val).length := by
        rw [List.length_append]
        omega
      rw [if_pos hlarge, messageOf, if_pos hwhole]
    · rw [if_neg hlarge]
      exact ih hpieces (Nat.not_lt.mp hlarge)

/-- **How a stream is cut does not matter.** -/
theorem readMessage_deliver (cut : Cut) (stream : List UInt8) :
    readMessage [] (cut.deliver stream) = messageOf stream := by
  have hread := @readMessage_pieces _ (cut.ne_nil stream) [] (Nat.zero_le _)
  rwa [cut.flat_pieces, List.nil_append] at hread

theorem messageOf_ok_iff {stream : List UInt8} {m : Message} :
    messageOf stream = .ok m ↔ stream.length ≤ maxFrame ∧ Message.decode stream = .ok m := by
  unfold messageOf
  split
  case isTrue hlarge => exact iff_of_false nofun fun h => absurd h.1 (Nat.not_le.mpr hlarge)
  case isFalse hsmall => rw [mapError_ok_iff, and_iff_right (Nat.not_lt.mp hsmall)]

theorem messageOf_encode (m : Message) :
    messageOf m.encode =
      if maxFrame < m.encode.length then .error (.error (.message "frame too large")) else .ok m := by
  unfold messageOf
  split
  case isTrue => rfl
  case isFalse hsmall =>
    have hframe : maxFrame < 2 ^ 64 := by decide
    rw [decode_encode (by omega)]
    rfl

/-- A frame of any bytes is received when they decode within the limit. -/
theorem recv_bytes_ok_iff {stream : List UInt8} (hlen : stream.length < 256 ^ 4)
    (rest : List UInt8) {m : Message} :
    recv (beBytes 4 stream.length ++ stream ++ rest) = (.ok (some m), rest) ↔
      stream.length ≤ maxFrame ∧ Message.decode stream = .ok m := by
  have hlong : ¬ (stream ++ rest).length < stream.length := by
    rw [List.length_append]
    omega
  rw [List.append_assoc, recv_header (length_beBytes ..), beNat_beBytes hlen, if_neg hlong,
    List.take_left, List.drop_left]
  split
  case isTrue hlarge => exact iff_of_false (by simp) fun h => absurd h.1 (Nat.not_le.mpr hlarge)
  case isFalse hsmall =>
    rw [and_iff_right (Nat.not_lt.mp hsmall)]
    cases Message.decode stream with
    | error e => simp
    | ok m' => simp

/-- **Both transports read alike.** Whatever the bytes of a stream are and however they come,
libp2p reads a message from them exactly when TCP receives it in a frame of these bytes, and leaves
what follows. So a message is carried by both or by neither. -/
theorem transports_read_alike (cut : Cut) (m : Message) :
    (∀ stream : List UInt8, stream.length < 256 ^ 4 →
      (readMessage [] (cut.deliver stream) = .ok m ↔
        ∀ rest, recv (beBytes 4 stream.length ++ stream ++ rest) = (.ok (some m), rest))) ∧
    (readMessage [] (cut.deliver (writeMessage m)) = .ok m ↔ ∃ bytes, send m = .ok bytes) := by
  refine ⟨fun stream hlen => ?_, ?_⟩
  · simp only [readMessage_deliver, messageOf_ok_iff, recv_bytes_ok_iff hlen, forall_const]
  · rw [readMessage_deliver, writeMessage, messageOf_encode]
    by_cases hlarge : maxFrame < m.encode.length
    · obtain ⟨e, he⟩ := Service.exists_send_error hlarge
      rw [if_pos hlarge, he]
      exact iff_of_false nofun nofun
    · rw [if_neg hlarge]
      exact iff_of_true rfl ⟨_, Service.send_of_le (Nat.not_lt.mp hlarge)⟩

/-! ## A request and its response -/

/-- `request` to a peer that answers: the request and the response each on its half of a stream. -/
def exchange (there back : Cut) (answer : Message → Message) : P2pPeer := fun request =>
  match readMessage [] (there.deliver (writeMessage request)) with
  | .error _ => .error .timeout
  | .ok request =>
    match readMessage [] (back.deliver (writeMessage (answer request))) with
    | .error _ => .error .timeout
    | .ok response => .ok response

/-- **What a request comes to**: the answer, if it fits. -/
theorem exchange_eq (there back : Cut) (answer : Message → Message) {request : Message}
    (hrequest : request.encode.length ≤ maxFrame) :
    exchange there back answer request =
      if maxFrame < (answer request).encode.length then .error .timeout else .ok (answer request) := by
  unfold exchange writeMessage
  rw [readMessage_deliver, messageOf_encode, if_neg (Nat.not_lt.mpr hrequest)]
  simp only [readMessage_deliver, messageOf_encode]
  by_cases hlarge : maxFrame < (answer request).encode.length
  · simp only [if_pos hlarge]
  · simp only [if_neg hlarge]

/-! ## Fetching -/

variable {prim : Primitives}

/-- **A relay serves the same over TCP and libp2p**, however the bytes come in pieces: envelopes and
chunks, absent ones, and no others than it holds. What does not fit a frame is served over
neither. -/
theorem fetch_transports_agree (prim : Primitives) (there back : Cut) (store : MemoryStore)
    (id : DropId) :
    (∀ result, (fetch (relayPeer prim store) id = .ok result ↔
        Fetched (store.getDrop id) .drop result) ∧
      (p2pFetchDrop (exchange there back (p2pRespond store)) id = .ok result ↔
        Fetched (store.getDrop id) .drop result)) ∧
    ∀ index result, (fetchChunk (relayPeer prim store) id index = .ok result ↔
        Fetched (store.getChunk id index) (.chunk id index) result) ∧
      (p2pFetchChunk (exchange there back (p2pRespond store)) id index = .ok result ↔
        Fetched (store.getChunk id index) (.chunk id index) result) := by
  have hmissing : ¬ maxFrame < (Message.missing id).encode.length :=
    Nat.not_lt.mpr (missing_le id)
  refine ⟨fun result => ⟨fetch_relayPeer_iff store id result, ?_⟩,
    fun index result => ⟨fetchChunk_relayPeer_iff store id index result, ?_⟩⟩
  · unfold p2pFetchDrop Fetched
    rw [exchange_eq _ _ _ (want_le id)]
    cases hheld : store.getDrop id with
    | none =>
      have hreply : p2pRespond store (.want id) = .missing id := by simp only [p2pRespond, hheld]
      simp [hreply, hmissing, bind, Except.bind, pure, Except.pure, eq_comm]
    | some raw =>
      have hreply : p2pRespond store (.want id) = .drop raw := by simp only [p2pRespond, hheld]
      by_cases hlarge : maxFrame < (Message.drop raw).encode.length
      · simp [hreply, hlarge, bind, Except.bind]
      · simp [hreply, hlarge, Nat.not_lt.mp hlarge, bind, Except.bind, pure, Except.pure, eq_comm]
  · unfold p2pFetchChunk Fetched
    rw [exchange_eq _ _ _ (wantChunk_le id index)]
    cases hheld : store.getChunk id index with
    | none =>
      have hreply : p2pRespond store (.wantChunk id index) = .missing id := by
        simp only [p2pRespond, hheld]
      simp [hreply, hmissing, bind, Except.bind, pure, Except.pure, eq_comm]
    | some data =>
      have hreply : p2pRespond store (.wantChunk id index) = .chunk id index data := by
        simp only [p2pRespond, hheld]
      by_cases hlarge : maxFrame < (Message.chunk id index data).encode.length
      · simp [hreply, hlarge, bind, Except.bind]
      · simp [hreply, hlarge, Nat.not_lt.mp hlarge, bind, Except.bind, pure, Except.pure, eq_comm]

/-! ## Asking for presence -/

/-- **A witness attests the same over TCP and libp2p**: it signs the requests about its own cell,
and for no other gives an attestation. -/
theorem presence_transports_agree (prim : Primitives) (there back : Cut) (host : Host)
    {request : PresenceRequest} (hcell : (utf8 request.cell).length + 243 ≤ maxFrame) :
    let result := if request.cell = host.witness.cell then some (host.attestation prim request)
      else none
    requestPresence (host.peer prim) request = .ok result ∧
      p2pRequestPresence (exchange there back
        (host.witness.p2pRespond prim (host.clock host.readings))) request = .ok result := by
  refine ⟨requestPresence_peer hcell host, ?_⟩
  unfold p2pRequestPresence
  rw [exchange_eq _ _ _ (presence_le hcell)]
  have hdecode := fromCanonical_request hcell
  by_cases hown : request.cell = host.witness.cell
  · have hanswer : host.witness.p2pRespond prim (host.clock host.readings)
        (.presence request.toCanonical) =
          .attestation (host.attestation prim request).toCanonical := by
      simp only [Witness.p2pRespond, hdecode, if_pos hown, Host.attestation]
    have hsmall := attestation_le hcell (a := host.attestation prim request) rfl
    rw [hanswer, if_neg (Nat.not_lt.mpr hsmall), if_pos hown]
    simp only [bind, Except.bind,
      fromCanonical_attestation hcell (a := host.attestation prim request) rfl]
    rfl
  · have hanswer : host.witness.p2pRespond prim (host.clock host.readings)
        (.presence request.toCanonical) = .bye := by
      simp only [Witness.p2pRespond, hdecode, if_neg hown]
    have hsmall : Message.bye.encode.length ≤ maxFrame :=
      encode_le_of_payload (by simp [Message.payload])
    rw [hanswer, if_neg (Nat.not_lt.mpr hsmall), if_neg hown]
    rfl

/-- A known host. -/
def KnownWitnesses.host : Host := ⟨KnownWitnesses.witnesses true, fun _ => 900, 0⟩

/-- It attests the known request, the bytes of which come one at a time. -/
theorem known_presence_agrees :
    let attestation := KnownWitnesses.host.attestation KnownAnswers.primitives KnownAnswers.request
    requestPresence (KnownWitnesses.host.peer KnownAnswers.primitives) KnownAnswers.request =
        .ok (some attestation) ∧
      p2pRequestPresence (exchange .singles .singles
        (KnownWitnesses.host.witness.p2pRespond KnownAnswers.primitives 900))
        KnownAnswers.request = .ok (some attestation) :=
  presence_transports_agree KnownAnswers.primitives .singles .singles KnownWitnesses.host
    (by decide +kernel)

end Keepstone.Node
