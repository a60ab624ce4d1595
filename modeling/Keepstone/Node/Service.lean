import Keepstone.Node.Protocol

/-!
# The servers of a node (`crates/node/src/net.rs:59-126, 262-276, 318-352`)

`respond`, `sth_respond` and `witness_respond` are one loop: receive a message, send the answer to
it, and go on or leave. They differ in the answer. The loop ends with the stream, with a message
that cannot be read, or with an answer that cannot be sent.

A client opens a connection for each request: it greets, waits for the answer, sends the request
and waits for the reply. What it sends does not depend on what it receives, and a server answers
messages in the order they arrive, so a conversation is what the loop makes of the two frames one
after the other, on a transport that loses nothing.

Results:
* `recv_send`: what is sent is received;
* **`serve_frames`**: on the bytes of some messages a server sends the bytes of its answers, up to
  the one after which it leaves;
* `ask_peer_eq`: what a client hears that greets and asks once.
-/

namespace Keepstone.Node

open Keepstone.Lib Keepstone.Crypto Keepstone.Core Keepstone.Store

/-! ## Sending and receiving -/

theorem exists_send {m : Message} (hle : m.encode.length ≤ maxFrame) :
    ∃ bytes, send m = .ok bytes :=
  ⟨_, mapError_ok_iff.mpr (frame_of_le hle)⟩

/-- **What is sent is received**, and what follows it is left. -/
theorem recv_send {m : Message} {bytes : List UInt8} (h : send m = .ok bytes)
    (rest : List UInt8) : recv (bytes ++ rest) = (.ok (some m), rest) := by
  have hframe := mapError_ok_iff.mp h
  have hle : m.encode.length ≤ maxFrame := by
    refine Nat.not_lt.mp fun hlarge => ?_
    obtain ⟨e, he⟩ := frame_error_iff.mpr hlarge
    exact absurd (he.symm.trans hframe) nofun
  obtain rfl := Except.ok.inj ((frame_of_le hle).symm.trans hframe)
  exact recv_frame hle rest

/-- A message takes bytes. -/
theorem length_recv_lt {stream rest : List UInt8} {m : Message}
    (h : recv stream = (.ok (some m), rest)) : rest.length < stream.length := by
  obtain ⟨body, -, -, rfl⟩ := exists_frame_of_recv h
  rw [List.length_append, List.length_append, length_beBytes]
  omega

theorem length_tagged_le (tag : UInt64) (payload : List UInt8) :
    (tagged tag payload).length ≤ 27 + payload.length := by
  have harray := Decoder.length_array_le 2
  have htag := Decoder.length_uint_le tag
  have hbytes := Decoder.length_bytes_le payload
  rw [tagged, List.length_append, List.length_append]
  omega

/-- The messages that carry no more than an id and an index fit a frame. -/
theorem encode_le_of_payload {m : Message} (h : m.payload.length ≤ 36) :
    m.encode.length ≤ maxFrame := by
  have hle := length_tagged_le m.tag m.payload
  rw [← m.encode_eq] at hle
  unfold maxFrame
  omega

/-- `PROTOCOL_VERSION` of the peer protocol. -/
def peerVersion : UInt8 := 1

/-! ## Servers -/

/-- What a server makes of a message: the answer, its state, and whether its loop goes on. -/
abbrev Service (σ : Type) := σ → Message → Message × σ × Bool

namespace Service

variable {σ : Type} (service : Service σ)

/-! ## The loop -/

/-- The loop on the bytes a connection will carry, for at most `fuel` turns: the bytes it sends, and
the state. -/
def loop : Nat → σ → List UInt8 → List UInt8 × σ
  | 0, state, _ => ([], state)
  | fuel + 1, state, stream =>
    match recv stream with
    | (.ok (some message), rest) =>
      let (reply, state, goesOn) := service state message
      match send reply with
      | .ok bytes =>
        if goesOn then
          let (more, state) := loop fuel state rest
          (bytes ++ more, state)
        else (bytes, state)
      | .error _ => ([], state)
    | _ => ([], state)

/-- The whole loop. Every turn but the last takes bytes, so there are no more turns than bytes. -/
def serve (state : σ) (stream : List UInt8) : List UInt8 × σ :=
  service.loop stream.length state stream

/-- The answers to some messages, up to the one after which the loop is left. -/
def answers : σ → List Message → List Message × σ
  | state, [] => ([], state)
  | state, m :: ms =>
    let (reply, state, goesOn) := service state m
    if goesOn then
      let (more, state) := answers state ms
      (reply :: more, state)
    else ([reply], state)

variable {service}

theorem loop_nil (fuel : Nat) (state : σ) : service.loop fuel state [] = ([], state) := by
  cases fuel with
  | zero => rfl
  | succ fuel => rfl

@[simp] theorem serve_nil (state : σ) : service.serve state [] = ([], state) := rfl

/-- More turns than bytes change nothing. -/
theorem loop_of_le {fuel fuel' : Nat} {stream : List UInt8} (h : stream.length ≤ fuel)
    (h' : stream.length ≤ fuel') (state : σ) :
    service.loop fuel state stream = service.loop fuel' state stream := by
  induction fuel generalizing fuel' state stream with
  | zero => rw [List.length_eq_zero_iff.mp (Nat.le_zero.mp h), loop_nil, loop_nil]
  | succ fuel ih =>
    cases fuel' with
    | zero => rw [List.length_eq_zero_iff.mp (Nat.le_zero.mp h'), loop_nil, loop_nil]
    | succ fuel' =>
      rw [loop, loop]
      split
      case h_1 message rest hrecv =>
        have hlt := length_recv_lt hrecv
        simp only [ih (show rest.length ≤ fuel by omega) (show rest.length ≤ fuel' by omega)]
      case h_2 => rfl

/-- The bytes of a message that fits a frame. -/
def framed (m : Message) : List UInt8 := beBytes 4 m.encode.length ++ m.encode

theorem send_of_le {m : Message} (hle : m.encode.length ≤ maxFrame) :
    send m = .ok (framed m) :=
  mapError_ok_iff.mpr (frame_of_le hle)

theorem exists_send_error {m : Message} (hlarge : maxFrame < m.encode.length) :
    ∃ e, send m = .error e := by
  obtain ⟨e, he⟩ := frame_error_iff.mpr hlarge
  exact ⟨_, by rw [send, he]; rfl⟩

theorem recv_framed {m : Message} (hle : m.encode.length ≤ maxFrame) :
    recv (framed m) = (.ok (some m), []) := by
  have hrecv := recv_send (send_of_le hle) []
  rwa [List.append_nil] at hrecv

/-- **One turn**: what a message of the stream leads to. -/
theorem serve_framed {m : Message} (hm : m.encode.length ≤ maxFrame) (state : σ)
    (rest : List UInt8) :
    service.serve state (framed m ++ rest) =
      match send (service state m).1 with
      | .ok sent =>
        if (service state m).2.2 then
          (sent ++ (service.serve (service state m).2.1 rest).1,
            (service.serve (service state m).2.1 rest).2)
        else (sent, (service state m).2.1)
      | .error _ => ([], (service state m).2.1) := by
  have hrecv := recv_send (send_of_le hm) rest
  have hlt := length_recv_lt hrecv
  obtain ⟨fuel, hfuel⟩ : ∃ fuel, (framed m ++ rest).length = fuel + 1 :=
    ⟨(framed m ++ rest).length - 1, by omega⟩
  have hmore : service.loop fuel (service state m).2.1 rest =
      service.serve (service state m).2.1 rest := loop_of_le (by omega) le_rfl _
  rw [serve, hfuel, loop]
  simp only [hrecv, hmore]

/-! ## On the bytes of some messages -/

variable (service) in
/-- The answers to the messages of a connection all fit a frame. -/
def Fit (state : σ) (ms : List Message) : Prop :=
  ∀ reply ∈ (service.answers state ms).1, reply.encode.length ≤ maxFrame

theorem answers_cons (state : σ) (m : Message) (ms : List Message) :
    service.answers state (m :: ms) =
      if (service state m).2.2 then
        ((service state m).1 :: (service.answers (service state m).2.1 ms).1,
          (service.answers (service state m).2.1 ms).2)
      else ([(service state m).1], (service state m).2.1) := rfl

/-- **A server answers the messages of a connection in turn**, in whatever pieces they come: what it
sends is the bytes of its answers. -/
theorem serve_frames {ms : List Message} (hms : ∀ m ∈ ms, m.encode.length ≤ maxFrame) {state : σ}
    (hfit : service.Fit state ms) :
    service.serve state (ms.flatMap framed) =
      ((service.answers state ms).1.flatMap framed, (service.answers state ms).2) := by
  induction ms generalizing state with
  | nil => rfl
  | cons m ms ih =>
    obtain ⟨hm, hms⟩ := List.forall_mem_cons.mp hms
    unfold Fit at hfit
    rw [answers_cons] at hfit ⊢
    have hreply : (service state m).1.encode.length ≤ maxFrame := by
      refine hfit _ ?_
      split <;> exact List.mem_cons_self
    rw [List.flatMap_cons, serve_framed hm, send_of_le hreply]
    cases hon : (service state m).2.2 with
    | true =>
      simp only [hon, if_true] at hfit ⊢
      rw [ih hms fun reply hmem => hfit reply (List.mem_cons_of_mem _ hmem), List.flatMap_cons]
    | false =>
      simp only [Bool.false_eq_true, if_false, List.flatMap_cons, List.flatMap_nil,
        List.append_nil]

/-! ## Asking once -/

variable (service) in
/-- A client greets a server, sends one request and hangs up: what it hears, and the state. -/
def converse (state : σ) (request : Message) : Connection × σ :=
  match send (.hello peerVersion) with
  | .error e => (⟨.ok (), .error e, .error e⟩, state)
  | .ok hello =>
    match send request with
    | .error e =>
      let (heard, state) := service.serve state hello
      (⟨.ok (), (recv heard).1, .error e⟩, state)
    | .ok asked =>
      let (heard, state) := service.serve state (hello ++ asked)
      (⟨.ok (), (recv heard).1, (recv (recv heard).2).1⟩, state)

variable (service) in
/-- A server as its clients see it. -/
def peer (state : σ) : Peer := fun request => (service.converse state request).1

/-- A greeting is returned. -/
def Greets (service : Service σ) : Prop :=
  ∀ state version, service state (.hello version) = (.hello version, state, true)

theorem hello_le : (Message.hello peerVersion).encode.length ≤ maxFrame :=
  encode_le_of_payload (by simp [Message.payload])

/-- **What a conversation comes to** when both messages fit a frame. -/
theorem converse_of_le (hgreets : service.Greets) {request reply : Message} {state state' : σ}
    {goesOn : Bool} (hrequest : request.encode.length ≤ maxFrame)
    (hanswer : service state request = (reply, state', goesOn))
    (hreply : reply.encode.length ≤ maxFrame) :
    service.converse state request =
      (⟨.ok (), .ok (some (.hello peerVersion)), .ok (some reply)⟩, state') := by
  have hanswers : service.answers state [.hello peerVersion, request] =
      ([.hello peerVersion, reply], state') := by
    rw [answers_cons, hgreets, answers_cons, hanswer]
    cases goesOn <;> rfl
  have hfit : service.Fit state [.hello peerVersion, request] := by
    simp [Fit, hanswers, hello_le, hreply]
  have hserve := serve_frames (by simp [hello_le, hrequest]) hfit
  rw [hanswers] at hserve
  simp only [List.flatMap_cons, List.flatMap_nil, List.append_nil] at hserve
  simp only [converse, send_of_le hello_le, send_of_le hrequest, hserve,
    recv_send (send_of_le hello_le), recv_framed hreply]

/-- **What a client hears that asks once.** -/
theorem ask_peer (hgreets : service.Greets) {request reply : Message} {state state' : σ}
    {goesOn : Bool} (hrequest : request.encode.length ≤ maxFrame)
    (hanswer : service state request = (reply, state', goesOn))
    (hreply : reply.encode.length ≤ maxFrame) :
    ask (service.peer state) request = .ok (some reply) ∧
      (service.converse state request).2 = state' := by
  unfold ask peer
  rw [converse_of_le hgreets hrequest hanswer hreply]
  exact ⟨rfl, rfl⟩

/-- An answer that does not fit a frame is not sent, and the connection ends. -/
theorem ask_peer_of_large (hgreets : service.Greets) {request reply : Message} {state state' : σ}
    {goesOn : Bool} (hrequest : request.encode.length ≤ maxFrame)
    (hanswer : service state request = (reply, state', goesOn))
    (hreply : maxFrame < reply.encode.length) :
    ask (service.peer state) request = .ok none := by
  obtain ⟨e, he⟩ := exists_send_error hreply
  have hlast : service.serve state (framed request ++ []) = _ := serve_framed hrequest state []
  rw [hanswer, he, List.append_nil] at hlast
  have hserve : service.serve state (framed (.hello peerVersion) ++ framed request) = _ :=
    serve_framed hello_le state (framed request)
  rw [hgreets, send_of_le hello_le, hlast] at hserve
  simp only [if_true, List.append_nil] at hserve
  have hconverse : service.converse state request =
      (⟨.ok (), .ok (some (.hello peerVersion)), .ok none⟩, state') := by
    simp only [converse, send_of_le hello_le, send_of_le hrequest, hserve,
      recv_framed hello_le]
    rfl
  unfold ask peer
  rw [hconverse]
  rfl

/-- The answer is heard, if it fits a frame. -/
theorem ask_peer_eq (hgreets : service.Greets) {request : Message}
    (hrequest : request.encode.length ≤ maxFrame) (state : σ) :
    ask (service.peer state) request =
      .ok (if maxFrame < (service state request).1.encode.length then none
        else some (service state request).1) := by
  split
  case isTrue hlarge => exact ask_peer_of_large hgreets hrequest rfl hlarge
  case isFalse hsmall => exact (ask_peer hgreets hrequest rfl (Nat.not_lt.mp hsmall)).1

end Service

end Keepstone.Node
