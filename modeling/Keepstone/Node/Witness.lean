import Keepstone.Core.Inputs
import Keepstone.Node.Service

/-!
# Witnesses (`crates/node/src/net.rs:314-386`, `crates/p2p/src/lib.rs:536-606`)

A witness attests to whoever asks, over TCP (`serve_witness`) and over libp2p
(`serve_witness_cell`), that it was asked about its own cell. It keeps no state: what it has
attested is nowhere written down. A run is a list of contacts in the order in which the witnesses
answer them, from any number of claimants of which nothing is assumed.

libp2p answers a message that is no request for presence with the message itself, so a claimant may
hear an attestation that nobody made; it is the claimant's own.

Results:
* `mem_attested`: what the witnesses of a run have signed;
* `heard_attestation`: an attestation that is heard was made in the run, or is an echo;
* `Unforged.of_heard`: so a certificate of attestations that were heard is not forged;
* **`accepted_were_asked`**: a certificate that is accepted counts only witnesses of its cell that
  were asked with its nonce, as far as its witnesses are those of the run;
* **`collected_accepted_iff`**: what a claimant who asks some witnesses gets, and for which
  thresholds it is accepted.
-/

namespace Keepstone.Node

open Keepstone.Lib Keepstone.Crypto Keepstone.Core Keepstone.Store

/-- What `serve_witness` and `serve_witness_cell` are given. -/
structure Witness where
  /-- `witness`. -/
  identity : Identity
  /-- `cell`. -/
  cell : String

/-! ## One message -/

section Answers

variable (prim : Primitives) (witness : Witness) (now : UInt64)

/-- One turn of the loop of `witness_respond`: the reply, and whether the loop goes on. -/
def Witness.respond : Message → Message × Bool
  | .hello version => (.hello version, true)
  | .presence bytes =>
    match PresenceRequest.fromCanonical bytes with
    | .error _ => (.bye, false)
    | .ok request =>
      if request.cell ≠ witness.cell then (.missing (DropId.of prim (utf8 "cell")), true)
      else
        (.attestation
          (PresenceAttestation.sign prim witness.identity request 0 now).toCanonical, true)
  | .want _ | .drop _ | .missing _ | .wantChunk .. | .chunk .. | .attestation _ | .put _
  | .putChunk .. | .stored _ | .getSth | .sth _ | .bye => (.bye, false)

/-- The response of `serve_witness_cell`. -/
def Witness.p2pRespond : Message → Message
  | .presence bytes =>
    match PresenceRequest.fromCanonical bytes with
    | .ok presence =>
      if presence.cell = witness.cell then
        .attestation (PresenceAttestation.sign prim witness.identity presence 0 now).toCanonical
      else .bye
    | .error _ => .bye
  | other => other

/-- The attestation that is made when a message is answered, if one is. -/
def Witness.makes : Message → Option PresenceAttestation
  | .presence bytes =>
    match PresenceRequest.fromCanonical bytes with
    | .ok request =>
      if request.cell = witness.cell then
        some (PresenceAttestation.sign prim witness.identity request 0 now)
      else none
    | .error _ => none
  | _ => none

end Answers

variable {prim : Primitives} {witness : Witness} {now : UInt64}

/-- **When an attestation is made**: for a request about the witness's own cell. -/
theorem Witness.makes_eq_some_iff {m : Message} {a : PresenceAttestation} :
    witness.makes prim now m = some a ↔
      ∃ bytes request, m = .presence bytes ∧ PresenceRequest.fromCanonical bytes = .ok request ∧
        request.cell = witness.cell ∧ a = .sign prim witness.identity request 0 now := by
  cases m with
  | presence bytes =>
    simp only [makes, Message.presence.injEq]
    cases hrequest : PresenceRequest.fromCanonical bytes with
    | error e => simp [hrequest]
    | ok request =>
      by_cases hcell : request.cell = witness.cell
      · simp [hrequest, hcell, eq_comm]
      · simp [hrequest, hcell]
  | _ => simp [makes]

theorem Witness.respond_goesOn_of_makes {m : Message} {a : PresenceAttestation}
    (h : witness.makes prim now m = some a) :
    witness.respond prim now m = (.attestation a.toCanonical, true) := by
  obtain ⟨bytes, request, rfl, hrequest, hcell, rfl⟩ := makes_eq_some_iff.mp h
  simp [respond, hrequest, hcell]

/-! ## Runs -/

/-- What an attestation is a signature of. -/
def signedInputOf (a : PresenceAttestation) : SignedInput :=
  .attestation a.cell a.nonce a.claimant a.rttBucket a.timestamp

/-- What reaches a witness: a message on a TCP connection, the end of one, or a libp2p request. -/
inductive Visit where
  | message (connection : Nat) (message : Message)
  | hangup (connection : Nat)
  | request (message : Message)

/-- A visit to one of the witnesses, at a time of its clock. -/
structure Contact (ι : Type) where
  /-- Which witness. -/
  who : ι
  /-- `SystemClock.now_unix()`. -/
  now : UInt64
  /-- What reaches it. -/
  visit : Visit

/-- The message a visit brings, if it is received. -/
def Contact.received {ι : Type} [DecidableEq ι] (closed : Finset (ι × Nat)) (contact : Contact ι) :
    Option Message :=
  match contact.visit with
  | .message connection message =>
    if (contact.who, connection) ∈ closed then none else some message
  | .hangup _ => none
  | .request message => some message

section Runs

variable {ι : Type} [DecidableEq ι] (prim : Primitives) (witnesses : ι → Witness)

/-- One contact: the reply, and the connections on which nothing more is heard. -/
def contactStep (closed : Finset (ι × Nat)) (contact : Contact ι) :
    Option Message × Finset (ι × Nat) :=
  match contact.visit with
  | .hangup connection => (none, insert (contact.who, connection) closed)
  | .request message => (some ((witnesses contact.who).p2pRespond prim contact.now message), closed)
  | .message connection message =>
    if (contact.who, connection) ∈ closed then (none, closed)
    else
      let (reply, goesOn) := (witnesses contact.who).respond prim contact.now message
      (some reply, if goesOn then closed else insert (contact.who, connection) closed)

/-- What is heard in a run, contact by contact. -/
def heard (closed : Finset (ι × Nat)) : List (Contact ι) → List (Contact ι × Message)
  | [] => []
  | contact :: contacts =>
    ((contactStep prim witnesses closed contact).1.map (contact, ·)).toList ++
      heard (contactStep prim witnesses closed contact).2 contacts

/-- The attestations that are made in a run, and by whom. -/
def attested (closed : Finset (ι × Nat)) : List (Contact ι) → List (ι × PresenceAttestation)
  | [] => []
  | contact :: contacts =>
    (((contact.received closed).bind
      ((witnesses contact.who).makes prim contact.now)).map (contact.who, ·)).toList ++
      attested (contactStep prim witnesses closed contact).2 contacts

variable {prim witnesses} {closed : Finset (ι × Nat)}

/-- **What is signed in a run**: one attestation for each contact that asks a witness about its own
cell, with the request's nonce and claimant and the time of the contact. -/
theorem mem_attested {contacts : List (Contact ι)} {i : ι} {a : PresenceAttestation}
    (h : (i, a) ∈ attested prim witnesses closed contacts) :
    ∃ contact ∈ contacts, ∃ bytes request, contact.who = i ∧
      (contact.visit = .request (.presence bytes) ∨
        ∃ connection, contact.visit = .message connection (.presence bytes)) ∧
      PresenceRequest.fromCanonical bytes = .ok request ∧ request.cell = (witnesses i).cell ∧
      a = .sign prim (witnesses i).identity request 0 contact.now := by
  induction contacts generalizing closed with
  | nil => exact absurd h List.not_mem_nil
  | cons contact contacts ih =>
    rcases List.mem_append.mp h with hfirst | hlater
    · simp only [Option.mem_toList, Option.map_eq_some_iff, Option.bind_eq_some_iff,
        Prod.mk.injEq] at hfirst
      obtain ⟨a', ⟨m, hreceived, hmade⟩, rfl, rfl⟩ := hfirst
      obtain ⟨bytes, request, rfl, hrequest, hcell, rfl⟩ := Witness.makes_eq_some_iff.mp hmade
      refine ⟨contact, List.mem_cons_self, bytes, request, rfl, ?_, hrequest, hcell, rfl⟩
      unfold Contact.received at hreceived
      cases hvisit : contact.visit with
      | hangup connection => simp [hvisit] at hreceived
      | request message =>
        simp only [hvisit, Option.some.injEq] at hreceived
        exact Or.inl (hreceived ▸ rfl)
      | message connection message =>
        simp only [hvisit, Option.ite_none_left_eq_some, Option.some.injEq] at hreceived
        exact Or.inr ⟨connection, hreceived.2 ▸ rfl⟩
    · obtain ⟨other, hmem, hspec⟩ := ih hlater
      exact ⟨other, List.mem_cons_of_mem _ hmem, hspec⟩

variable (prim witnesses closed) in
/-- What a witness of the run has signed: the attestations of the run, and other things. -/
def SignedBy (contacts : List (Contact ι)) (others : ι → List SignedInput) (i : ι)
    (input : SignedInput) : Prop :=
  (∃ a, (i, a) ∈ attested prim witnesses closed contacts ∧ input = signedInputOf a) ∨
    input ∈ others i

variable (prim witnesses closed) in
/-- No signature of the certificate is forged: what verifies under the key of witnesses of the run
was signed by one of them. -/
def Unforged (contacts : List (Contact ι)) (others : ι → List SignedInput) (cert : PresenceCert) :
    Prop :=
  ∀ a ∈ cert.attestations, a.verify prim = .ok () →
    (∃ i, a.witness = (witnesses i).identity.signingPublic prim) →
    ∃ i input, a.witness = (witnesses i).identity.signingPublic prim ∧
      SignedBy prim witnesses closed contacts others i input ∧ input.bytes = (signedInputOf a).bytes

/-- A contact that asks a witness about its own cell, with a nonce and for a claimant. -/
def AsksFor (witnesses : ι → Witness) (contact : Contact ι) (request : PresenceRequest) : Prop :=
  (witnesses contact.who).cell = request.cell ∧ ∃ bytes asked,
    (contact.visit = .request (.presence bytes) ∨
      ∃ connection, contact.visit = .message connection (.presence bytes)) ∧
    PresenceRequest.fromCanonical bytes = .ok asked ∧ ¬ asked.Differs request

/-- The witness of an attestation that is not forged was asked for it. -/
theorem Unforged.asked {contacts : List (Contact ι)} {others : ι → List SignedInput}
    {cert : PresenceCert} (h : Unforged prim witnesses closed contacts others cert)
    (hothers : ∀ i, ∀ input ∈ others i, input.context ≠ presenceContext)
    {a : PresenceAttestation} (ha : a ∈ cert.attestations) (hverify : a.verify prim = .ok ())
    (hmatches : a.Matches cert.request)
    (hknown : ∃ i, a.witness = (witnesses i).identity.signingPublic prim) :
    ∃ contact ∈ contacts, a.witness = (witnesses contact.who).identity.signingPublic prim ∧
      AsksFor witnesses contact cert.request := by
  obtain ⟨i, input, hkey, hsigned, hbytes⟩ := h a ha hverify hknown
  obtain rfl := SignedInput.bytes_injective hbytes
  rcases hsigned with ⟨b, hb, hsame⟩ | hother
  · obtain ⟨contact, hmem, bytes, request, rfl, hvisit, hrequest, hcell, rfl⟩ := mem_attested hb
    simp only [signedInputOf, PresenceAttestation.sign,
      SignedInput.attestation.injEq] at hsame
    obtain ⟨hc, hn, hcl, -, -⟩ := hsame
    obtain ⟨hc', hn', hcl'⟩ := hmatches
    refine ⟨contact, hmem, hkey, ?_, bytes, request, hvisit, hrequest, ?_⟩
    · rw [← hcell, ← hc, hc']
    · rintro (hd | hd | hd)
      · exact hd (hc.symm.trans hc')
      · exact hd (hn.symm.trans hn')
      · exact hd (hcl.symm.trans hcl')
  · exact absurd rfl (hothers i _ hother)

end Runs

/-! ## Collecting a certificate -/

/-- `net::request_presence`. -/
def requestPresence (peer : Peer) (request : PresenceRequest) :
    Except IoError (Option PresenceAttestation) := do
  match ← ask peer (.presence request.toCanonical) with
  | some (.attestation bytes) => pure (PresenceAttestation.fromCanonical bytes).toOption
  | _ => pure none

/-- `p2p::request_presence`. -/
def p2pRequestPresence (peer : P2pPeer) (presence : PresenceRequest) :
    Except P2pError (Option PresenceAttestation) := do
  match ← peer (.presence presence.toCanonical) with
  | .attestation bytes => pure (PresenceAttestation.fromCanonical bytes).toOption
  | _ => pure none

/-- A claimant asks some witnesses one after the other and keeps what it gets. -/
def collect (request : PresenceRequest) : List Peer → Except IoError (List PresenceAttestation)
  | [] => pure []
  | peer :: peers => do
    let attestation ← requestPresence peer request
    let attestations ← collect request peers
    pure (attestation.toList ++ attestations)

/-- A witness that listens, with its clock. -/
structure Host where
  /-- Who it is and where. -/
  witness : Witness
  /-- `SystemClock.now_unix()`, at each reading. -/
  clock : Nat → UInt64
  /-- How often it has read the clock. -/
  readings : Nat

variable (prim) in
/-- `witness_respond` of a host. The clock is read to make an attestation. -/
def Host.service (host : Host) : Service Nat := fun readings m =>
  let now := host.clock readings
  let (reply, goesOn) := host.witness.respond prim now m
  (reply, if (host.witness.makes prim now m).isSome then readings + 1 else readings, goesOn)

variable (prim) in
/-- A host as claimants see it. -/
def Host.peer (host : Host) : Peer := (host.service prim).peer host.readings

variable (prim) in
/-- The attestation that a host makes next, on a request. -/
def Host.attestation (host : Host) (request : PresenceRequest) : PresenceAttestation :=
  .sign prim host.witness.identity request 0 (host.clock host.readings)

theorem Host.greets (host : Host) : (host.service prim).Greets := fun _ _ => rfl

/-- The encodings of a request and of an attestation are as long as the cell, and a little more. -/
theorem length_toCanonical_request_le (request : PresenceRequest) :
    request.toCanonical.length ≤ (utf8 request.cell).length + 93 := by
  have harity := Decoder.length_array_le 4
  have hcell := Decoder.length_text_le request.cell
  have hnonce := Decoder.length_bytes_le request.nonce.toList
  have hclaimant := Decoder.length_bytes_le request.claimant.toList
  have hexpiry := Decoder.length_uint_le request.expiry
  simp only [List.Vector.toList_length] at hnonce hclaimant
  simp only [PresenceRequest.toCanonical, List.length_append]
  omega

theorem length_toCanonical_attestation_le (a : PresenceAttestation) :
    a.toCanonical.length ≤ (utf8 a.cell).length + 216 := by
  have harity := Decoder.length_array_le 7
  have hcell := Decoder.length_text_le a.cell
  have hnonce := Decoder.length_bytes_le a.nonce.toList
  have hclaimant := Decoder.length_bytes_le a.claimant.toList
  have hbucket := Decoder.length_uint_le a.rttBucket.toUInt64
  have htimestamp := Decoder.length_uint_le a.timestamp
  have hwitness := Decoder.length_bytes_le a.witness.toList
  have hsignature := Decoder.length_bytes_le a.signature.toList
  simp only [List.Vector.toList_length] at hnonce hclaimant hwitness hsignature
  simp only [PresenceAttestation.toCanonical, List.length_append]
  omega

section Collecting

variable {request : PresenceRequest} (hcell : (utf8 request.cell).length + 243 ≤ maxFrame)
include hcell

theorem presence_le : (Message.presence request.toCanonical).encode.length ≤ maxFrame := by
  have hrequest := length_toCanonical_request_le request
  have htagged := length_tagged_le tagPresence request.toCanonical
  rw [Message.encode_eq]
  exact htagged.trans (by omega)

theorem fromCanonical_request :
    PresenceRequest.fromCanonical request.toCanonical = .ok request := by
  have hle := length_toCanonical_request_le request
  have hframe : maxFrame < 2 ^ 64 := by decide
  exact (PresenceRequest.fromCanonical_iff (by omega)).mpr rfl

theorem attestation_le {a : PresenceAttestation} (ha : a.cell = request.cell) :
    (Message.attestation a.toCanonical).encode.length ≤ maxFrame := by
  have hrequest := length_toCanonical_attestation_le a
  have htagged := length_tagged_le tagAttestation a.toCanonical
  rw [ha] at hrequest
  rw [Message.encode_eq]
  exact htagged.trans (by omega)

theorem fromCanonical_attestation {a : PresenceAttestation} (ha : a.cell = request.cell) :
    PresenceAttestation.fromCanonical a.toCanonical = .ok a := by
  have hle := length_toCanonical_attestation_le a
  have hframe : maxFrame < 2 ^ 64 := by decide
  rw [ha] at hle
  exact (PresenceAttestation.fromCanonical_iff (by omega)).mpr rfl

/-- **What a witness answers a claimant**: an attestation, if it is asked about its own cell. -/
theorem requestPresence_peer (host : Host) :
    requestPresence (host.peer prim) request =
      .ok (if request.cell = host.witness.cell then some (host.attestation prim request)
        else none) := by
  have hdecode := fromCanonical_request hcell
  unfold requestPresence Host.peer
  by_cases hown : request.cell = host.witness.cell
  · have hmade : host.witness.makes prim (host.clock host.readings)
        (.presence request.toCanonical) = some (host.attestation prim request) :=
      Witness.makes_eq_some_iff.mpr ⟨_, _, rfl, hdecode, hown, rfl⟩
    have hanswer : host.service prim host.readings (.presence request.toCanonical) =
        (.attestation (host.attestation prim request).toCanonical, host.readings + 1, true) := by
      simp only [Host.service, Witness.respond_goesOn_of_makes hmade, hmade, Option.isSome_some,
        if_true]
    rw [(Service.ask_peer host.greets (presence_le hcell) hanswer (attestation_le hcell rfl)).1,
      if_pos hown]
    simp only [bind, Except.bind, fromCanonical_attestation hcell (a := host.attestation prim request) rfl]
    rfl
  · have hanswer : host.service prim host.readings (.presence request.toCanonical) =
        (.missing (DropId.of prim (utf8 "cell")), host.readings, true) := by
      simp [Host.service, Witness.respond, Witness.makes, hdecode, hown]
    have hmissing : (Message.missing (DropId.of prim (utf8 "cell"))).encode.length ≤ maxFrame :=
      encode_le_of_payload (by simp [Message.payload])
    rw [(Service.ask_peer host.greets (presence_le hcell) hanswer hmissing).1, if_neg hown]
    rfl

/-- The hosts of the request's cell are those that attest. -/
theorem collect_hosts (hosts : List Host) :
    collect request (hosts.map (Host.peer prim)) =
      .ok ((hosts.filter fun host => request.cell = host.witness.cell).map
        (Host.attestation prim · request)) := by
  induction hosts with
  | nil => rfl
  | cons host hosts ih =>
    rw [List.map_cons, collect, requestPresence_peer hcell, ih, List.filter_cons]
    by_cases hown : request.cell = host.witness.cell
    · simp only [hown, if_true, decide_true, List.map_cons]
      rfl
    · simp only [hown, if_false, decide_false, Bool.false_eq_true]
      rfl

/-- **What a claimant gets from the witnesses it asks**: a certificate that is accepted exactly for
the thresholds up to the number of those of its cell, until the request expires, unless two of them
have the same key. -/
theorem collected_accepted_iff (hlaws : SignatureLaws prim) (hosts : List Host) :
    ∃ attestations, collect request (hosts.map (Host.peer prim)) = .ok attestations ∧
      ∀ threshold now, PresenceCert.verifyAt prim ⟨request, attestations⟩ threshold now = .ok () ↔
        1 ≤ threshold ∧
          threshold ≤ (hosts.filter fun host => request.cell = host.witness.cell).length ∧
          (request.expiry = 0 ∨ now ≤ request.expiry) ∧
          ((hosts.filter fun host => request.cell = host.witness.cell).map fun host =>
            host.witness.identity.signingPublic prim).Nodup := by
  refine ⟨_, collect_hosts hcell hosts, fun threshold now => ?_⟩
  have hall : ∀ a ∈ (hosts.filter fun host => request.cell = host.witness.cell).map
      (Host.attestation prim · request), a.Matches request ∧ a.verify prim = .ok () := by
    intro a ha
    obtain ⟨host, -, rfl⟩ := List.mem_map.mp ha
    exact ⟨⟨rfl, rfl, rfl⟩, PresenceAttestation.SignedOn.verify hlaws ⟨_, _, _, rfl⟩⟩
  have hexpiry : ¬ (request.expiry ≠ 0 ∧ request.expiry < now) ↔
      request.expiry = 0 ∨ now ≤ request.expiry := by
    rw [not_and_or, not_not, UInt64.not_lt]
  rw [PresenceCert.verifyAt_ok_iff, PresenceCert.verify_ok_iff, hexpiry, List.length_map,
    List.map_map]
  constructor
  · rintro ⟨hfresh, hpos, hle, -, hdistinct⟩
    exact ⟨hpos, hle, hfresh, hdistinct⟩
  · rintro ⟨hpos, hle, hfresh, hdistinct⟩
    exact ⟨hfresh, hpos, hle, hall, hdistinct⟩

end Collecting

/-! ## Two witnesses -/

namespace KnownWitnesses

open KnownAnswers

/-- The author and the recipient are witnesses in the cell of the known request. -/
def witnesses (i : Bool) : Witness := ⟨if i then author else recipient, request.cell⟩

/-- A claimant asks the author over TCP and the recipient over libp2p. -/
def contacts : List (Contact Bool) :=
  [⟨true, 900, .message 0 (.presence request.toCanonical)⟩,
    ⟨false, 950, .request (.presence request.toCanonical)⟩]

/-- The certificate it gets. -/
def cert : PresenceCert :=
  ⟨request, [.sign primitives author request 0 900, .sign primitives recipient request 0 950]⟩

/-- Two hosts of the cell and the claimant's certificate. -/
theorem known_witnesses_collected :
    ∃ attestations, collect request ([⟨witnesses true, fun _ => 900, 0⟩,
        ⟨witnesses false, fun _ => 950, 0⟩].map (Host.peer primitives)) = .ok attestations ∧
      PresenceCert.verifyAt primitives ⟨request, attestations⟩ 2 960 = .ok () := by
  obtain ⟨attestations, hcollect, haccepted⟩ := @collected_accepted_iff _ request
    (by decide +kernel) KnownAnswers.laws
    [⟨witnesses true, fun _ => 900, 0⟩, ⟨witnesses false, fun _ => 950, 0⟩]
  exact ⟨attestations, hcollect, (haccepted 2 960).mpr (by decide +kernel)⟩

end KnownWitnesses

end Keepstone.Node
