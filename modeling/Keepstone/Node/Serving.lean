import Keepstone.Node.Relay
import Keepstone.Node.Service

/-!
# Conversations with a relay (`crates/node/src/net.rs:59-205`)

A relay is a server whose state is its store: it answers every message with `respond`, returns the
greeting and leaves at `Bye`. A client that fetches or pushes opens a connection for each request.

Results:
* **`converse_of_le`**: what a conversation comes to, when its messages fit a frame;
* `fetch_relayPeer_iff`, `fetchChunk_relayPeer_iff`: a relay serves what it holds;
* `exec_pushDrop`, `exec_pushChunk`: it holds what is pushed to it.
-/

namespace Keepstone.Node

open Keepstone.Lib Keepstone.Crypto Keepstone.Core Keepstone.Store

/-! ## The relay as a server -/

variable (prim : Primitives)

/-- `net::respond`: the bytes it sends on those a connection will carry, and the store. -/
def respondAll : MemoryStore → List UInt8 → List UInt8 × MemoryStore := Service.serve (respond prim)

/-- A client greets a relay, sends one request and hangs up: what it hears, and the relay's store
afterwards. -/
def converse : MemoryStore → Message → Connection × MemoryStore := Service.converse (respond prim)

variable {prim}

theorem respond_greets : Service.Greets (respond prim) := fun _ _ => rfl

/-- **What a conversation comes to** when both messages fit a frame. -/
theorem converse_of_le {request reply : Message} {store store' : MemoryStore}
    (hrequest : request.encode.length ≤ maxFrame)
    (hrespond : respond prim store request = (reply, store', true))
    (hreply : reply.encode.length ≤ maxFrame) :
    converse prim store request =
      (⟨.ok (), .ok (some (.hello peerVersion)), .ok (some reply)⟩, store') :=
  Service.converse_of_le respond_greets hrequest hrespond hreply

/-! ## Asking a relay -/

variable (prim) in
/-- A relay with a store, as its clients see it; the requests of a fetch leave the store as it
is. -/
def relayPeer : MemoryStore → Peer := Service.peer (respond prim)

theorem ask_relayPeer {request reply : Message} {store store' : MemoryStore}
    (hrequest : request.encode.length ≤ maxFrame)
    (hrespond : respond prim store request = (reply, store', true))
    (hreply : reply.encode.length ≤ maxFrame) :
    ask (relayPeer prim store) request = .ok (some reply) :=
  (Service.ask_peer respond_greets hrequest hrespond hreply).1

theorem want_le (id : DropId) : (Message.want id).encode.length ≤ maxFrame :=
  encode_le_of_payload (by simp [Message.payload])

theorem wantChunk_le (id : DropId) (index : UInt32) :
    (Message.wantChunk id index).encode.length ≤ maxFrame :=
  encode_le_of_payload (by simp [Message.payload, length_idIndex])

theorem stored_le (id : DropId) : (Message.stored id).encode.length ≤ maxFrame :=
  encode_le_of_payload (by simp [Message.payload])

theorem missing_le (id : DropId) : (Message.missing id).encode.length ≤ maxFrame :=
  encode_le_of_payload (by simp [Message.payload])

/-- What is fetched is what is held, if the reply fits a frame. -/
def Fetched (held : Option (List UInt8)) (reply : List UInt8 → Message)
    (result : Option (List UInt8)) : Prop :=
  result = held ∧ ∀ bytes, held = some bytes → (reply bytes).encode.length ≤ maxFrame

/-- **A relay serves the envelopes it holds**, and no others. -/
theorem fetch_relayPeer_iff (store : MemoryStore) (id : DropId) (result : Option (List UInt8)) :
    fetch (relayPeer prim store) id = .ok result ↔ Fetched (store.getDrop id) .drop result := by
  have hmissing : ¬ maxFrame < (Message.missing id).encode.length :=
    Nat.not_lt.mpr (missing_le id)
  unfold fetch relayPeer Fetched
  rw [Service.ask_peer_eq respond_greets (want_le id)]
  cases hheld : store.getDrop id with
  | none =>
    have hreply : (respond prim store (.want id)).1 = .missing id := by simp only [respond, hheld]
    simp [hreply, hmissing, bind, Except.bind, pure, Except.pure, eq_comm]
  | some raw =>
    have hreply : (respond prim store (.want id)).1 = .drop raw := by simp only [respond, hheld]
    by_cases hlarge : maxFrame < (Message.drop raw).encode.length
    · simp [hreply, hlarge, bind, Except.bind, throw, throwThe, MonadExceptOf.throw]
    · simp [hreply, hlarge, Nat.not_lt.mp hlarge, bind, Except.bind, pure, Except.pure, eq_comm]

/-- **A relay serves the chunks it holds**, and no others. -/
theorem fetchChunk_relayPeer_iff (store : MemoryStore) (id : DropId) (index : UInt32)
    (result : Option (List UInt8)) :
    fetchChunk (relayPeer prim store) id index = .ok result ↔
      Fetched (store.getChunk id index) (.chunk id index) result := by
  have hmissing : ¬ maxFrame < (Message.missing id).encode.length :=
    Nat.not_lt.mpr (missing_le id)
  unfold fetchChunk relayPeer Fetched
  rw [Service.ask_peer_eq respond_greets (wantChunk_le id index)]
  cases hheld : store.getChunk id index with
  | none =>
    have hreply : (respond prim store (.wantChunk id index)).1 = .missing id := by
      simp only [respond, hheld]
    simp [hreply, hmissing, bind, Except.bind, pure, Except.pure, eq_comm]
  | some data =>
    have hreply : (respond prim store (.wantChunk id index)).1 = .chunk id index data := by
      simp only [respond, hheld]
    by_cases hlarge : maxFrame < (Message.chunk id index data).encode.length
    · simp [hreply, hlarge, bind, Except.bind, throw, throwThe, MonadExceptOf.throw]
    · simp [hreply, hlarge, Nat.not_lt.mp hlarge, bind, Except.bind, pure, Except.pure, eq_comm]

/-! ## Pushing to a relay -/

section Pushing

variable (prim)

/-- A request to be stored: whether the relay confirms it, and the store afterwards. -/
def pushed (request : Message) : Program IoError MemoryStore Bool :=
  .step fun store =>
    (do match ← ask (relayPeer prim store) request with
        | some (.stored _) => pure true
        | _ => pure false,
      (converse prim store request).2)

/-- `net::push_drop`. -/
def pushDrop (raw : List UInt8) : Program IoError MemoryStore Bool := pushed prim (.put raw)

/-- `net::push_chunk`. -/
def pushChunk (id : DropId) (index : UInt32) (data : List UInt8) :
    Program IoError MemoryStore Bool :=
  pushed prim (.putChunk id index data)

end Pushing

theorem exec_pushed {request : Message} {store store' : MemoryStore} {id : DropId}
    (hrequest : request.encode.length ≤ maxFrame)
    (hrespond : respond prim store request = (.stored id, store', true)) :
    (pushed prim request).exec store = (.ok true, store') := by
  unfold pushed
  rw [Program.exec_step, ask_relayPeer hrequest hrespond (stored_le id),
    converse_of_le hrequest hrespond (stored_le id)]
  rfl

/-- **A relay holds the authentic envelopes that are pushed to it.** -/
theorem exec_pushDrop {raw : List UInt8} (hraw : Authentic prim raw)
    (hle : (Message.put raw).encode.length ≤ maxFrame) (store : MemoryStore) :
    (pushDrop prim raw).exec store = (.ok true, store.putDrop (DropId.of prim raw) raw) := by
  have hrespond := respond_put_of_authentic hraw store
  rw [storeGossip_of_authentic hraw] at hrespond
  exact exec_pushed hle hrespond

/-- **A relay holds the chunks that are pushed to it.** -/
theorem exec_pushChunk {id : DropId} {index : UInt32} {data : List UInt8}
    (hle : (Message.putChunk id index data).encode.length ≤ maxFrame) (store : MemoryStore) :
    (pushChunk prim id index data).exec store = (.ok true, store.putChunk id index data) :=
  exec_pushed hle rfl

end Keepstone.Node
