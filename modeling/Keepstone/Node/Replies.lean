import Keepstone.Node.Serving

/-!
# Replies fit a frame (`crates/node/src/net.rs:25-126`, `crates/node/src/protocol.rs:73-146, 213-230`)

`recv` takes no frame above `MAX_FRAME` and `send` makes none. A relay takes an envelope in one
kind of message and serves it in another, so what came in has to go out again under another tag;
all tags in use have heads of one byte.

`Served` is a relay with any number of connections, each given by the bytes it will carry. One turn
is one turn of the loop of `respond` on one connection.

Results:
* `Served.store_run_eq_respondAll`: one connection alone is served as by `respondAll`;
* `encode_le_of_recv`: a received message can be sent on as it is;
* `servable_respond`: what one turn keeps, and that its reply can be sent;
* **`run_replies_fit`**: whatever was accepted can be served.
-/

namespace Keepstone.Node

open Keepstone.Lib Keepstone.Crypto Keepstone.Core Keepstone.Store

/-! ## Connections -/

/-- A relay and its connections. -/
structure Served where
  /-- The store. -/
  store : MemoryStore
  /-- What each connection has still to carry; `none` when its task has ended. -/
  streams : Nat → Option (List UInt8)

namespace Served

/-- A message that the connection at `i` delivers next. -/
def Receives (served : Served) (i : Nat) (message : Message) : Prop :=
  ∃ stream rest, served.streams i = some stream ∧ recv stream = (.ok (some message), rest)

variable (prim : Primitives)

/-- One turn of the loop of `net::respond` on the connection at `i`. -/
def turn (served : Served) (i : Nat) : Served :=
  match served.streams i with
  | none => served
  | some stream =>
    match recv stream with
    | (.ok (some message), rest) =>
      let (reply, store, goesOn) := respond prim served.store message
      let next := match send reply with
        | .ok _ => if goesOn then some rest else none
        | .error _ => none
      ⟨store, Function.update served.streams i next⟩
    | _ => ⟨served.store, Function.update served.streams i none⟩

/-- Turn after turn. -/
def run (served : Served) (schedule : List Nat) : Served := schedule.foldl (turn prim) served

/-- A relay that has just started, and the bytes its connections will carry. -/
def start (streams : Nat → List UInt8) : Served := ⟨.new, fun i => some (streams i)⟩

variable {prim} {served : Served} {i : Nat}

/-- A turn on a connection that delivers a message answers it. -/
theorem turn_store_of_receives {message : Message} (h : served.Receives i message) :
    (turn prim served i).store = (respond prim served.store message).2.1 := by
  obtain ⟨stream, rest, hstream, hrecv⟩ := h
  simp only [turn, hstream, hrecv]

/-- Other turns leave the store as it is. -/
theorem turn_store_of_not_receives (h : ∀ message, ¬ served.Receives i message) :
    (turn prim served i).store = served.store := by
  unfold turn
  cases hstream : served.streams i with
  | none => rfl
  | some stream =>
    dsimp only
    cases hrecv : recv stream with
    | mk received rest =>
      cases received with
      | error e => rfl
      | ok message =>
        cases message with
        | none => rfl
        | some message => exact absurd ⟨stream, rest, hstream, hrecv⟩ (h message)

/-- What answering a received message keeps, a run keeps. -/
theorem run_invariant {J : MemoryStore → Prop}
    (hrespond : ∀ served i message, Receives served i message → J served.store →
      J (respond prim served.store message).2.1) (schedule : List Nat) (h : J served.store) :
    J (run prim served schedule).store := by
  unfold run
  induction schedule generalizing served with
  | nil => exact h
  | cons i schedule ih =>
    refine ih ?_
    by_cases hreceives : ∃ message, served.Receives i message
    · obtain ⟨message, hmessage⟩ := hreceives
      rw [turn_store_of_receives hmessage]
      exact hrespond served i message hmessage h
    · rw [turn_store_of_not_receives (not_exists.mp hreceives)]
      exact h

theorem run_append (served : Served) (first second : List Nat) :
    run prim served (first ++ second) = run prim (run prim served first) second :=
  List.foldl_append

/-- **One connection alone is served as by `respondAll`.** -/
theorem store_run_eq_respondAll {stream : List UInt8} (hstream : served.streams i = some stream) :
    (run prim served (List.replicate stream.length i)).store =
      (respondAll prim served.store stream).2 := by
  have hended : ∀ (fuel : Nat) (served : Served), served.streams i = none →
      (run prim served (List.replicate fuel i)).store = served.store := by
    intro fuel
    induction fuel with
    | zero => exact fun _ _ => rfl
    | succ fuel ih =>
      intro served hnone
      have hturn : turn prim served i = served := by simp only [turn, hnone]
      rw [List.replicate_succ, run, List.foldl_cons, hturn]
      exact ih served hnone
  unfold respondAll Service.serve
  generalize stream.length = fuel
  induction fuel generalizing served stream with
  | zero => rfl
  | succ fuel ih =>
    rw [List.replicate_succ, run, List.foldl_cons, Service.loop]
    change (run prim (turn prim served i) (List.replicate fuel i)).store = _
    cases hrecv : recv stream with
    | mk received rest =>
      cases received with
      | error e =>
        simp only [turn, hstream, hrecv]
        exact hended fuel _ (Function.update_self ..)
      | ok message =>
        cases message with
        | none =>
          simp only [turn, hstream, hrecv]
          exact hended fuel _ (Function.update_self ..)
        | some message =>
          cases hrespond : respond prim served.store message with
          | mk reply rest' =>
            obtain ⟨store, goesOn⟩ := rest'
            simp only [turn, hstream, hrecv, hrespond]
            cases hsend : send reply with
            | error e => exact hended fuel _ (Function.update_self ..)
            | ok bytes =>
              cases goesOn with
              | false => exact hended fuel _ (Function.update_self ..)
              | true => exact ih (Function.update_self ..)

end Served

/-! ## Messages that came in go out again -/

/-- A longer payload has a longer encoding. -/
theorem length_tagged_mono {tag : UInt64} {payload payload' : List UInt8}
    (h : payload.length ≤ payload'.length) :
    (tagged tag payload).length ≤ (tagged tag payload').length := by
  have hbytes := Decoder.length_bytes_mono h
  simp only [tagged, List.length_append]
  omega

/-- **A received message fits a frame.** Its canonical encoding is no longer than what came in. -/
theorem encode_le_of_recv {stream rest : List UInt8} {m : Message}
    (h : recv stream = (.ok (some m), rest)) : m.encode.length ≤ maxFrame := by
  obtain ⟨body, hbody, hdecode, -⟩ := exists_frame_of_recv h
  have hlt : body.length < 2 ^ 64 := hbody.trans_lt (by decide)
  obtain ⟨payload, rfl, hpre, -⟩ := (decode_ok_iff hlt).mp hdecode
  rw [m.encode_eq]
  exact (length_tagged_mono hpre.length_le).trans hbody

/-- Heads of the tags in use have one byte. -/
theorem length_tagged_eq {tag tag' : UInt64} (h : tag < 24) (h' : tag' < 24)
    (payload : List UInt8) : (tagged tag payload).length = (tagged tag' payload).length := by
  have hone : ∀ t : UInt64, t < 24 → (Encoder.uint t).length = 1 := by
    intro t ht
    rw [Encoder.uint, Encoder.head, if_pos ht, List.length_singleton]
  simp only [tagged, List.length_append, hone tag h, hone tag' h']

theorem length_encode_drop (raw : List UInt8) :
    (Message.drop raw).encode.length = (Message.put raw).encode.length :=
  length_tagged_eq (by decide) (by decide) raw

theorem length_encode_chunk (id : DropId) (index : UInt32) (data : List UInt8) :
    (Message.chunk id index data).encode.length =
      (Message.putChunk id index data).encode.length :=
  length_tagged_eq (by decide) (by decide) _

/-! ## What a relay holds -/

/-- Everything the store holds fits the frame it is served in. -/
structure Servable (store : MemoryStore) : Prop where
  /-- Envelopes. -/
  drops : ∀ id raw, store.getDrop id = some raw → (Message.drop raw).encode.length ≤ maxFrame
  /-- Chunks. -/
  chunks : ∀ id index data, store.getChunk id index = some data →
    (Message.chunk id index data).encode.length ≤ maxFrame

theorem servable_new : Servable .new := ⟨nofun, nofun⟩

theorem Servable.putDrop {store : MemoryStore} (h : Servable store) {raw : List UInt8}
    (hraw : (Message.drop raw).encode.length ≤ maxFrame) (id : DropId) :
    Servable (store.putDrop id raw) := by
  refine ⟨fun id' raw' hget => ?_, fun id' index data => h.chunks id' index data⟩
  rw [MemoryStore.getDrop_putDrop] at hget
  split at hget
  case isTrue =>
    obtain rfl := Option.some.inj hget
    exact hraw
  case isFalse => exact h.drops id' raw' hget

theorem Servable.putChunk {store : MemoryStore} (h : Servable store) {id : DropId}
    {index : UInt32} {data : List UInt8}
    (hdata : (Message.chunk id index data).encode.length ≤ maxFrame) :
    Servable (store.putChunk id index data) := by
  refine ⟨fun id' raw => h.drops id' raw, fun id' index' data' hget => ?_⟩
  rw [MemoryStore.getChunk_putChunk] at hget
  split at hget
  case isTrue heq =>
    obtain ⟨rfl, rfl⟩ := Prod.mk.inj heq
    obtain rfl := Option.some.inj hget
    exact hdata
  case isFalse => exact h.chunks id' index' data' hget

theorem bye_le : Message.bye.encode.length ≤ maxFrame := by decide

variable {prim : Primitives} {store : MemoryStore}

/-- **One turn**: on a message that came in a frame the store stays servable, and the reply fits. -/
theorem servable_respond (h : Servable store) {message : Message}
    (hmessage : message.encode.length ≤ maxFrame) :
    Servable (respond prim store message).2.1 ∧
      (respond prim store message).1.encode.length ≤ maxFrame := by
  cases message with
  | hello version => exact ⟨h, hmessage⟩
  | want id =>
    simp only [respond]
    cases hget : store.getDrop id with
    | none => exact ⟨h, missing_le id⟩
    | some raw => exact ⟨h, h.drops id raw hget⟩
  | wantChunk id index =>
    simp only [respond]
    cases hget : store.getChunk id index with
    | none => exact ⟨h, missing_le id⟩
    | some data => exact ⟨h, h.chunks id index data hget⟩
  | put raw =>
    have hraw : (Message.drop raw).encode.length ≤ maxFrame := by rwa [length_encode_drop]
    by_cases hauth : Authentic prim raw
    · rw [respond_put_of_authentic hauth, storeGossip_of_authentic hauth]
      exact ⟨h.putDrop hraw _, stored_le _⟩
    · rw [respond_put_of_not_authentic hauth, storeGossip_of_not_authentic hauth]
      exact ⟨h, bye_le⟩
  | putChunk id index data =>
    have hdata : (Message.chunk id index data).encode.length ≤ maxFrame := by
      rwa [length_encode_chunk]
    exact ⟨h.putChunk hdata, stored_le id⟩
  | _ => exact ⟨h, bye_le⟩

/-- Envelopes are replaced, never removed. -/
theorem getDrop_respond (message : Message) {id : DropId} (h : (store.getDrop id).isSome) :
    ((respond prim store message).2.1.getDrop id).isSome := by
  cases message with
  | want id' =>
    simp only [respond]
    split <;> exact h
  | wantChunk id' index =>
    simp only [respond]
    split <;> exact h
  | put raw =>
    by_cases hauth : Authentic prim raw
    · rw [respond_put_of_authentic hauth, storeGossip_of_authentic hauth,
        MemoryStore.getDrop_putDrop]
      split
      · rfl
      · exact h
    · rw [respond_put_of_not_authentic hauth, storeGossip_of_not_authentic hauth]
      exact h
  | _ => exact h

/-- Chunks are replaced, never removed. -/
theorem getChunk_respond (message : Message) {id : DropId} {index : UInt32}
    (h : (store.getChunk id index).isSome) :
    ((respond prim store message).2.1.getChunk id index).isSome := by
  cases message with
  | want id' =>
    simp only [respond]
    split <;> exact h
  | wantChunk id' index' =>
    simp only [respond]
    split <;> exact h
  | put raw =>
    by_cases hauth : Authentic prim raw
    · rw [respond_put_of_authentic hauth, storeGossip_of_authentic hauth]
      exact h
    · rw [respond_put_of_not_authentic hauth, storeGossip_of_not_authentic hauth]
      exact h
  | putChunk id' index' data =>
    simp only [respond, MemoryStore.getChunk_putChunk]
    split
    · rfl
    · exact h
  | _ => exact h

/-- A confirmed envelope is held under the confirmed id. -/
theorem getDrop_of_stored {raw : List UInt8} {id : DropId}
    (h : (respond prim store (.put raw)).1 = .stored id) :
    ((respond prim store (.put raw)).2.1.getDrop id).isSome := by
  by_cases hauth : Authentic prim raw
  · rw [respond_put_of_authentic hauth] at h ⊢
    obtain rfl := Message.stored.inj h
    rw [storeGossip_of_authentic hauth, MemoryStore.getDrop_putDrop, if_pos rfl]
    rfl
  · rw [respond_put_of_not_authentic hauth] at h
    exact absurd h nofun

namespace Served

variable {served : Served} {streams : Nat → List UInt8}

theorem servable_run (schedule : List Nat) :
    Servable (run prim (start streams) schedule).store := by
  refine run_invariant (fun served i message hreceives h => ?_) schedule servable_new
  obtain ⟨stream, rest, -, hrecv⟩ := hreceives
  exact (servable_respond h (encode_le_of_recv hrecv)).1

/-- The store after a run that goes on after a turn that answered `message`. -/
theorem run_after {before after : List Nat} {i : Nat} {message : Message}
    {J : MemoryStore → Prop} (hreceives : (run prim served before).Receives i message)
    (hrespond : ∀ store message, J store → J (respond prim store message).2.1)
    (h : J (respond prim (run prim served before).store message).2.1) :
    J (run prim served (before ++ i :: after)).store := by
  rw [run_append]
  have hturn : J (turn prim (run prim served before) i).store := by
    rw [turn_store_of_receives hreceives]
    exact h
  exact run_invariant (fun served i message _ => hrespond served.store message) after hturn

end Served

/-- **Whatever was accepted can be served.** In every run of a relay over any connections, a request
for an envelope or a chunk that was accepted before is answered with one, which fits a frame; and
so does every reply to a message that is received. -/
theorem run_replies_fit (prim : Primitives) (streams : Nat → List UInt8) :
    let reached := Served.run prim (Served.start streams)
    (∀ (before after : List Nat) (i : Nat) (raw : List UInt8) (id : DropId),
      (reached before).Receives i (.put raw) →
      (respond prim (reached before).store (.put raw)).1 = .stored id →
      ∃ held bytes,
        (respond prim (reached (before ++ i :: after)).store (.want id)).1 = .drop held ∧
        (Message.drop held).encode.length ≤ maxFrame ∧ send (.drop held) = .ok bytes) ∧
    (∀ (before after : List Nat) (i : Nat) (id : DropId) (index : UInt32) (data : List UInt8),
      (reached before).Receives i (.putChunk id index data) →
      ∃ held bytes,
        (respond prim (reached (before ++ i :: after)).store (.wantChunk id index)).1 =
          .chunk id index held ∧
        (Message.chunk id index held).encode.length ≤ maxFrame ∧
        send (.chunk id index held) = .ok bytes) ∧
    ∀ (schedule : List Nat) (i : Nat) (message : Message), (reached schedule).Receives i message →
      ∃ bytes, send (respond prim (reached schedule).store message).1 = .ok bytes := by
  intro reached
  refine ⟨?_, ?_, ?_⟩
  · intro before after i raw id hreceives hstored
    have hheld : ((reached (before ++ i :: after)).store.getDrop id).isSome :=
      Served.run_after (J := fun store => (store.getDrop id).isSome) hreceives
        (fun _ message h => getDrop_respond message h) (getDrop_of_stored hstored)
    obtain ⟨held, hget⟩ := Option.isSome_iff_exists.mp hheld
    have hle := (Served.servable_run (before ++ i :: after)).drops id held hget
    obtain ⟨bytes, hsend⟩ := exists_send hle
    exact ⟨held, bytes, by simp only [respond, hget], hle, hsend⟩
  · intro before after i id index data hreceives
    have hheld : ((reached (before ++ i :: after)).store.getChunk id index).isSome := by
      refine Served.run_after (J := fun store => (store.getChunk id index).isSome) hreceives
        (fun _ message h => getChunk_respond message h) ?_
      simp only [respond, MemoryStore.getChunk_putChunk, if_true, Option.isSome_some]
    obtain ⟨held, hget⟩ := Option.isSome_iff_exists.mp hheld
    have hle := (Served.servable_run (before ++ i :: after)).chunks id index held hget
    obtain ⟨bytes, hsend⟩ := exists_send hle
    exact ⟨held, bytes, by simp only [respond, hget], hle, hsend⟩
  · intro schedule i message hreceives
    obtain ⟨stream, rest, -, hrecv⟩ := hreceives
    exact exists_send (servable_respond (Served.servable_run schedule) (encode_le_of_recv hrecv)).2

section KnownDrop

open KnownAnswers

/-- A relay that is sent the known drop and an empty chunk of it serves both. -/
theorem known_drop_replies_fit :
    let id := DropId.of primitives drop.raw
    ∃ streams : Nat → List UInt8,
      let reached := Served.run primitives (Served.start streams)
      ((reached []).Receives 0 (.put drop.raw) ∧
        ∃ held bytes, (respond primitives (reached [0]).store (.want id)).1 = .drop held ∧
          send (.drop held) = .ok bytes) ∧
      (reached []).Receives 1 (.putChunk id 0 []) ∧
        ∃ held bytes, (respond primitives (reached [1, 0]).store (.wantChunk id 0)).1 =
          .chunk id 0 held ∧ send (.chunk id 0 held) = .ok bytes := by
  intro id
  have hraw : (Message.put drop.raw).encode.length ≤ maxFrame := by decide +kernel
  have hchunk : (Message.putChunk id 0 []).encode.length ≤ maxFrame :=
    encode_le_of_payload (by simp [Message.payload, length_idIndex])
  obtain ⟨first, hfirst⟩ := exists_send hraw
  obtain ⟨second, hsecond⟩ := exists_send hchunk
  refine ⟨fun i => if i = 0 then first ++ [] else second ++ [], ?_⟩
  have hput : (Served.run primitives
      (Served.start fun i => if i = 0 then first ++ [] else second ++ []) []).Receives 0
      (.put drop.raw) :=
    ⟨_, [], rfl, recv_send hfirst []⟩
  have hputChunk : (Served.run primitives
      (Served.start fun i => if i = 0 then first ++ [] else second ++ []) []).Receives 1
      (.putChunk id 0 []) :=
    ⟨_, [], rfl, recv_send hsecond []⟩
  have hstored : (respond primitives MemoryStore.new (.put drop.raw)).1 = .stored id := by
    rw [respond_put_of_authentic known_authentic]
  obtain ⟨hdrops, hchunks, -⟩ := run_replies_fit primitives
    fun i => if i = 0 then first ++ [] else second ++ []
  obtain ⟨held, bytes, hwant, -, hsend⟩ := hdrops [] [] 0 drop.raw id hput hstored
  obtain ⟨data, bytes', hwantChunk, -, hsend'⟩ := hchunks [] [0] 1 id 0 [] hputChunk
  exact ⟨⟨hput, held, bytes, hwant, hsend⟩, hputChunk, data, bytes', hwantChunk, hsend'⟩

end KnownDrop

end Keepstone.Node
