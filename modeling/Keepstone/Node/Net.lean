import Keepstone.Store.Directory

/-!
# Asking a peer (`crates/node/src/{protocol,net}.rs`, `crates/p2p/src/lib.rs`)

Nothing is assumed of a peer: on each connection it may be unreachable, close, or answer with any
message. The requests of one fetch are different from each other (one for the envelope, one for
each chunk index), so a peer whose answers depend on the request is as general as one whose
answers depend on everything it has seen.
-/

namespace Keepstone.Node

open Keepstone.Lib Keepstone.Core Keepstone.Store

/-- `Message`. -/
inductive Message where
  | hello (version : UInt8)
  | want (id : DropId)
  | drop (raw : List UInt8)
  | missing (id : DropId)
  | wantChunk (id : DropId) (index : UInt32)
  | chunk (id : DropId) (index : UInt32) (data : List UInt8)
  | presence (bytes : List UInt8)
  | attestation (bytes : List UInt8)
  | put (raw : List UInt8)
  | putChunk (id : DropId) (index : UInt32) (data : List UInt8)
  | stored (id : DropId)
  | getSth
  | sth (bytes : List UInt8)
  | bye
  deriving DecidableEq

/-! ## TCP -/

/-- One connection: to connect, to greet and be greeted, to send the request and receive the
reply. A receipt of `none` is a clean end of the stream. -/
structure Connection where
  /-- `TcpStream::connect`. -/
  connect : Except IoError Unit
  /-- `send` of the greeting and `recv`. -/
  greeting : Except IoError (Option Message)
  /-- `send` of the request and `recv`. -/
  reply : Except IoError (Option Message)

/-- What a peer does when it is sent a request. -/
abbrev Peer := Message → Connection

/-- The reply to a request on a connection of its own. -/
def ask (peer : Peer) (request : Message) : Except IoError (Option Message) := do
  (peer request).connect
  let _ ← (peer request).greeting
  (peer request).reply

/-- `net::fetch`. -/
def fetch (peer : Peer) (id : DropId) : Except IoError (Option (List UInt8)) := do
  match ← ask peer (.want id) with
  | some (.drop raw) => pure (some raw)
  | some (.missing _) => pure none
  | _ => throw (.message "unexpected reply")

/-- `net::fetch_chunk`. -/
def fetchChunk (peer : Peer) (id : DropId) (index : UInt32) :
    Except IoError (Option (List UInt8)) := do
  match ← ask peer (.wantChunk id index) with
  | some (.chunk _ _ data) => pure (some data)
  | some (.missing _) => pure none
  | _ => throw (.message "unexpected reply")

/-! ## libp2p -/

/-- `P2pError`. -/
inductive P2pError where
  | transport (message : String)
  | connection
  | protocol
  | timeout
  deriving DecidableEq

/-- `p2p::request` to one peer: its response to a request. -/
abbrev P2pPeer := Message → Except P2pError Message

/-- `p2p::fetch_drop`. -/
def p2pFetchDrop (peer : P2pPeer) (id : DropId) : Except P2pError (Option (List UInt8)) := do
  match ← peer (.want id) with
  | .drop bytes => pure (some bytes)
  | .missing _ => pure none
  | _ => throw .protocol

/-- `p2p::fetch_chunk`. -/
def p2pFetchChunk (peer : P2pPeer) (id : DropId) (index : UInt32) :
    Except P2pError (Option (List UInt8)) := do
  match ← peer (.wantChunk id index) with
  | .chunk _ _ bytes => pure (some bytes)
  | .missing _ => pure none
  | _ => throw .protocol

end Keepstone.Node
