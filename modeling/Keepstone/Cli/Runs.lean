import Keepstone.Cli.Fetch

/-!
# Runs of commands over one data directory

A run is a list of commands, each with the outcomes of its calls to the system, over a directory
that starts empty. Commands that fail leave what they have written.

Results:
* `run_invariant`: what every step keeps, a run keeps;
* `exec_of_fetches`: both fetches do the same with what a peer offers them;
* `step_contentAddressed`: what a step has to satisfy to keep every envelope under its own hash;
* **`run_contentAddressed`**: in a run of such steps every envelope is under its own hash;
* `stored_of_received`: a fetch that accepts an envelope stores it under the id it asked for.
-/

namespace Keepstone.Cli

open Keepstone.Lib Keepstone.Crypto Keepstone.Core Keepstone.Store Keepstone.Node

/-- The commands that write an identity, contacts or drops, with what they draw and whom they ask.
The others write files that no result about a run is about: `id` generates the hybrid key if there
is none, `log-verify`, `log-anchor` and `sth serve` the key of the log, `log-anchor` writes receipts,
and `hunt` its hunts; what `hunt seed` does besides is to create drops. -/
inductive Command where
  | keygen (generated : Identity) (hybrid : HybridKeypair) (mlDsa : MlDsaKeypair)
  | addContact (name signing ecdh : String) (hybrid : Option String)
  | createDrop (now : UInt64) (args : CreateArgs) (draws : Draws)
  | fetch (peer : Peer) (peerText idText : String)
  | p2pFetch (address : Option P2pPeer) (peerText idText : String)

/-- A command and how the system ends its calls. -/
structure Step where
  /-- The command. -/
  command : Command
  /-- The outcomes of its calls. -/
  outcomes : List Outcome

section Semantics

variable (prim : Primitives) (cellAt : Float → Float → UInt8 → Except CoreError String)

/-- The disk after a command. -/
def Command.exec (command : Command) (disk : Disk) : Disk :=
  match command with
  | keygen generated hybrid mlDsa => ((Store.keygen generated hybrid mlDsa).exec disk).2
  | addContact name signing ecdh hybrid =>
    ((Store.addContact name signing ecdh hybrid).exec disk).2
  | createDrop now args draws => ((Store.createDrop prim cellAt now args draws).exec disk).2
  | fetch peer peerText idText => ((Cli.fetch prim peer peerText idText).exec disk).2
  | p2pFetch address peerText idText => ((Cli.p2pFetch prim address peerText idText).exec disk).2

/-- The directory after a step. -/
def Step.run (step : Step) (dir : Dir) : Dir :=
  (step.command.exec prim cellAt ⟨dir, step.outcomes⟩).dir

/-- The directory after a list of steps. -/
def run (steps : List Step) (dir : Dir) : Dir :=
  steps.foldl (fun dir step => step.run prim cellAt dir) dir

theorem run_singleton (step : Step) (dir : Dir) :
    run prim cellAt [step] dir = step.run prim cellAt dir := rfl

variable {prim cellAt} in
/-- What every step of a run keeps, the run keeps. -/
theorem run_invariant {J : Dir → Prop} {steps : List Step}
    (hstep : ∀ step ∈ steps, ∀ dir, J dir → J (step.run prim cellAt dir)) {dir : Dir}
    (hdir : J dir) : J (run prim cellAt steps dir) := by
  unfold run
  induction steps generalizing dir with
  | nil => exact hdir
  | cons step steps ih =>
    rw [List.foldl_cons]
    exact ih (fun s hs => hstep s (List.mem_cons_of_mem _ hs))
      (hstep step List.mem_cons_self dir hdir)

end Semantics

/-! ## Fetches -/

/-- What a peer offers a fetch: an envelope for the id it asks for, and the chunks. -/
structure Offer where
  /-- The id that was asked for. -/
  id : DropId
  /-- The envelope. -/
  raw : List UInt8
  /-- The reply to each request for a chunk. -/
  chunkAt : Nat → Except CliError (List UInt8)

/-- The offer in a reply to the request for an envelope. -/
def offered {ε : Type} (id : DropId) (reply : Except ε (Option (List UInt8)))
    (chunkAt : Nat → Except CliError (List UInt8)) : Option Offer :=
  match reply with
  | .ok (some raw) => some ⟨id, raw, chunkAt⟩
  | _ => none

/-- The offer a fetch receives, if the peer sends it an envelope at all. -/
def Command.offer : Command → Option Offer
  | fetch peer _ idText => do
    let id ← (DropId.fromHex idText).toOption
    offered id (Node.fetch peer id) (chunkFrom peer id)
  | p2pFetch address _ idText => do
    let peer ← address
    let id ← (DropId.fromHex idText).toOption
    offered id (p2pFetchDrop peer id) (p2pChunkFrom peer id)
  | _ => none

/-- The commands that ask a peer. -/
def Command.Fetches : Command → Prop
  | fetch .. => True
  | p2pFetch .. => True
  | _ => False

variable {prim : Primitives} {cellAt : Float → Float → UInt8 → Except CoreError String}

theorem fetches_of_offer {command : Command} {offer : Offer} (h : command.offer = some offer) :
    command.Fetches := by
  cases command with
  | keygen => exact absurd h nofun
  | addContact => exact absurd h nofun
  | createDrop => exact absurd h nofun
  | fetch => trivial
  | p2pFetch => trivial

/-- What both fetches do once they have asked for an envelope. -/
theorem exec_offered {ε : Type} (id : DropId) (reply : Except ε (Option (List UInt8)))
    (chunkAt : Nat → Except CliError (List UInt8)) (f : ε → CliError) (missing : CliError)
    (disk : Disk) :
    ((do
        let found ← .ofExcept (reply.mapError f)
        let raw ← .ofExcept (okOr found missing)
        receiveDrop prim id raw chunkAt : Program CliError Disk Unit).exec disk).2 =
      match offered id reply chunkAt with
      | some offer => ((receiveDrop prim offer.id offer.raw offer.chunkAt).exec disk).2
      | none => disk := by
  cases reply with
  | error e => rfl
  | ok found =>
    cases found with
    | none => rfl
    | some raw => rfl

/-- **A fetch does what `receiveDrop` does with the offer**, and nothing without one. -/
theorem exec_of_fetches {command : Command} (h : command.Fetches) (disk : Disk) :
    command.exec prim cellAt disk = match command.offer with
      | some offer => ((receiveDrop prim offer.id offer.raw offer.chunkAt).exec disk).2
      | none => disk := by
  cases command with
  | keygen => exact h.elim
  | addContact => exact h.elim
  | createDrop => exact h.elim
  | fetch peer peerText idText =>
    simp only [Command.exec, Command.offer, Cli.fetch]
    cases DropId.fromHex idText with
    | error e => rfl
    | ok id => exact exec_offered id _ _ _ _ disk
  | p2pFetch address peerText idText =>
    simp only [Command.exec, Command.offer, Cli.p2pFetch]
    cases address with
    | none => rfl
    | some peer =>
      cases DropId.fromHex idText with
      | error e => rfl
      | ok id => exact exec_offered id _ _ _ _ disk

/-- A fetch that was offered nothing, or nothing it accepts, leaves the disk as it is. -/
theorem exec_of_refused {command : Command} (h : command.Fetches)
    (hrefused : ¬ ∃ offer body, command.offer = some offer ∧
      checkReceived prim offer.raw = .ok body)
    (disk : Disk) : command.exec prim cellAt disk = disk := by
  rw [exec_of_fetches h]
  cases hoffer : command.offer with
  | none => rfl
  | some offer =>
    cases hbody : checkReceived prim offer.raw with
    | ok body => exact absurd ⟨offer, body, hoffer, hbody⟩ hrefused
    | error e =>
      simp only [receiveDrop, hbody]
      rfl

/-- Where no call fails, an accepted envelope is stored before the chunks are asked for. -/
theorem run_of_accepted {command : Command} {offer : Offer} {body : DropBody}
    (hoffer : command.offer = some offer) (hbody : checkReceived prim offer.raw = .ok body)
    (dir : Dir) :
    Step.run prim cellAt ⟨command, []⟩ dir =
      ((receiveChunks offer.id offer.raw body.chunkCount offer.chunkAt).exec
        ⟨dir.insert (.drop offer.id) offer.raw, []⟩).2.dir := by
  have hexec : (receiveDrop prim offer.id offer.raw offer.chunkAt).exec ⟨dir, []⟩ = _ :=
    exec_receiveDrop hbody (quiet_nil dir)
  unfold Step.run
  rw [exec_of_fetches (fetches_of_offer hoffer), hoffer]
  exact congrArg (·.2.dir) hexec

/-- What a fetch keeps. -/
theorem keeps_fetches {I : Disk → Prop} {command : Command} (h : command.Fetches)
    (hchunk : ∀ id index, Allows I (.chunk id index)) (hlog : Allows I .logEntries)
    (hdrop : ∀ offer body, command.offer = some offer → checkReceived prim offer.raw = .ok body →
      Keeps I (write (.drop offer.id) offer.raw) fun _ => True) {disk : Disk} (hdisk : I disk) :
    I (command.exec prim cellAt disk) := by
  rw [exec_of_fetches h]
  cases hoffer : command.offer with
  | none => exact hdisk
  | some offer =>
    exact (keeps_receiveDrop (hchunk offer.id) hlog (fun body => hdrop offer body hoffer)
      offer.chunkAt disk hdisk).1

/-! ## Content addressing -/

variable (prim) in
/-- Every envelope is under its own hash. -/
def ContentAddressed (dir : Dir) : Prop :=
  ∀ id raw, dir.lookup (.drop id) = some raw → DropId.of prim raw = id

/-- A fetch asked for `id` and was sent `raw`. -/
def Command.Received : Command → DropId → List UInt8 → Prop
  | fetch peer _ idText, id, raw =>
    DropId.fromHex idText = .ok id ∧ Node.fetch peer id = .ok (some raw)
  | p2pFetch address _ idText, id, raw =>
    ∃ peer, address = some peer ∧ DropId.fromHex idText = .ok id ∧
      p2pFetchDrop peer id = .ok (some raw)
  | _, _, _ => False

theorem offered_eq_some_iff {ε : Type} {id : DropId} {reply : Except ε (Option (List UInt8))}
    {chunkAt : Nat → Except CliError (List UInt8)} {offer : Offer} :
    offered id reply chunkAt = some offer ↔
      ∃ raw, reply = .ok (some raw) ∧ offer = ⟨id, raw, chunkAt⟩ := by
  cases reply with
  | error e => exact iff_of_false nofun nofun
  | ok found =>
    cases found with
    | none => exact iff_of_false nofun nofun
    | some raw =>
      constructor
      · intro h
        exact ⟨raw, rfl, (Option.some.inj h).symm⟩
      · rintro ⟨raw', hraw, rfl⟩
        rw [hraw]
        rfl

/-- What a fetch received is the envelope of its offer. -/
theorem received_iff {command : Command} {id : DropId} {raw : List UInt8} :
    command.Received id raw ↔
      ∃ offer, command.offer = some offer ∧ offer.id = id ∧ offer.raw = raw := by
  cases command with
  | keygen => exact iff_of_false (fun h => h) nofun
  | addContact => exact iff_of_false (fun h => h) nofun
  | createDrop => exact iff_of_false (fun h => h) nofun
  | fetch peer peerText idText =>
    simp only [Command.Received, Command.offer, Option.bind_eq_bind, Option.bind_eq_some_iff,
      offered_eq_some_iff, toOption_eq_some_iff]
    constructor
    · rintro ⟨hid, hreply⟩
      exact ⟨_, ⟨id, hid, raw, hreply, rfl⟩, rfl, rfl⟩
    · rintro ⟨_, ⟨id, hid, raw, hreply, rfl⟩, rfl, rfl⟩
      exact ⟨hid, hreply⟩
  | p2pFetch address peerText idText =>
    simp only [Command.Received, Command.offer, Option.bind_eq_bind, Option.bind_eq_some_iff,
      offered_eq_some_iff, toOption_eq_some_iff]
    constructor
    · rintro ⟨peer, haddress, hid, hreply⟩
      exact ⟨_, ⟨peer, haddress, id, hid, raw, hreply, rfl⟩, rfl, rfl⟩
    · rintro ⟨_, ⟨peer, haddress, id, hid, raw, hreply, rfl⟩, rfl, rfl⟩
      exact ⟨peer, haddress, hid, hreply⟩

variable (prim) in
/-- No call is torn, and an envelope that a fetch accepts is the one it asked for. -/
structure Step.Faithful (step : Step) : Prop where
  intact : ∀ k, Outcome.torn k ∉ step.outcomes
  received : ∀ id raw body, step.command.Received id raw → checkReceived prim raw = .ok body →
    DropId.of prim raw = id

theorem ContentAddressed.ignores {file : File} (h : ∀ id, .drop id ≠ file) :
    Ignores (ContentAddressed prim) file := by
  intro dir bytes hdir id raw hlookup
  rw [AList.lookup_insert_ne (h id)] at hlookup
  exact hdir id raw hlookup

theorem ContentAddressed.insert {id : DropId} {raw : List UInt8} (h : DropId.of prim raw = id)
    {dir : Dir} (hdir : ContentAddressed prim dir) :
    ContentAddressed prim (dir.insert (.drop id) raw) := by
  intro id' raw' hlookup
  by_cases heq : id' = id
  · subst heq
    rw [AList.lookup_insert] at hlookup
    obtain rfl := Option.some.inj hlookup
    exact h
  · rw [AList.lookup_insert_ne fun hfile => heq (File.drop.inj hfile)] at hlookup
    exact hdir id' raw' hlookup

/-- A faithful step keeps every envelope under its own hash. -/
theorem step_contentAddressed {step : Step} (hstep : step.Faithful prim) {dir : Dir}
    (hdir : ContentAddressed prim dir) : ContentAddressed prim (step.run prim cellAt dir) := by
  have hother : ∀ file, (∀ id, .drop id ≠ file) → Allows (Safely (ContentAddressed prim)) file :=
    fun file h => (ContentAddressed.ignores h).safely
  have hchunk : ∀ id index, Allows (Safely (ContentAddressed prim)) (.chunk id index) :=
    fun _ _ => hother _ fun _ => nofun
  have hlog := hother .logEntries fun _ => nofun
  have hmldsa := hother .mldsa fun _ => nofun
  have hstart : Safely (ContentAddressed prim) ⟨dir, step.outcomes⟩ := ⟨hdir, hstep.intact⟩
  have hfetch : step.command.Fetches →
      Safely (ContentAddressed prim) (step.command.exec prim cellAt ⟨dir, step.outcomes⟩) := by
    intro h
    refine keeps_fetches h hchunk hlog (fun offer body hoffer hbody => keeps_write fun dir => ?_)
      hstart
    have hreceived := received_iff.mpr ⟨offer, hoffer, rfl, rfl⟩
    exact .insert (hstep.received offer.id offer.raw body hreceived hbody)
  unfold Step.run
  obtain ⟨command, outcomes⟩ := step
  cases command with
  | keygen generated hybrid mlDsa =>
    exact (keeps_keygen (hother _ fun _ => nofun) (hother _ fun _ => nofun) hmldsa
      generated hybrid mlDsa _ hstart).1.1
  | addContact name signing ecdh hybrid =>
    exact (keeps_addContact (hother _ fun _ => nofun) name signing ecdh hybrid _
      hstart).1.1
  | createDrop now args draws =>
    exact (keeps_createDrop prim (keeps_mldsaOrCreate prim hmldsa _) hchunk hlog
      (fun signed => keeps_write fun _ => .insert rfl) cellAt now args _ hstart).1.1
  | fetch peer peerText idText => exact (hfetch trivial).1
  | p2pFetch address peerText idText => exact (hfetch trivial).1

/-- A fetch stores what it accepts under the id it asked for: where that is another drop, it breaks
the invariant. -/
theorem stored_of_received {command : Command} {id : DropId} {raw : List UInt8} {body : DropBody}
    (hreceived : command.Received id raw) (hbody : checkReceived prim raw = .ok body) (dir : Dir) :
    (Step.run prim cellAt ⟨command, []⟩ dir).lookup (.drop id) = some raw := by
  obtain ⟨offer, hoffer, rfl, rfl⟩ := received_iff.mp hreceived
  rw [run_of_accepted hoffer hbody, lookup_drop_receiveChunks, AList.lookup_insert]

/-! ### A peer that has one drop -/

/-- A peer that answers every request with the known drop and its chunk. -/
def knownPeer : Peer := fun request =>
  { connect := .ok ()
    greeting := .ok (some (.hello 1))
    reply := match request with
      | .wantChunk id index => .ok (some (.chunk id index KnownAnswers.chunk))
      | _ => .ok (some (.drop KnownAnswers.drop.raw)) }

/-- Fetching `id` from that peer. -/
def knownFetch (id : DropId) : Step := ⟨.fetch knownPeer "peer" id.toHex, []⟩

/-- No position has a cell. -/
def noCell : Float → Float → UInt8 → Except CoreError String := fun _ _ _ => .error (.cell "none")

theorem known_received (id : DropId) :
    (knownFetch id).command.Received id KnownAnswers.drop.raw :=
  ⟨DropId.fromHex_toHex id, rfl⟩

theorem known_checked :
    checkReceived KnownAnswers.primitives KnownAnswers.drop.raw = .ok KnownAnswers.body := by
  obtain ⟨hdec, hverify, hbody⟩ := known_drop_accepted
  exact checkReceived_ok_iff.mpr ⟨_, hdec, hverify, hbody, known_drop_work⟩

theorem known_stored (id : DropId) :
    (run KnownAnswers.primitives noCell [knownFetch id] ∅).lookup (.drop id) =
      some KnownAnswers.drop.raw := by
  rw [run_singleton]
  exact stored_of_received (known_received id) known_checked ∅

/-! ### Whole runs -/

/-- **The drop directory is content-addressed** after every run of faithful steps; so what is read
under an id is the drop of that id. -/
theorem run_contentAddressed (prim : Primitives)
    (cellAt : Float → Float → UInt8 → Except CoreError String) (steps : List Step)
    (hsteps : ∀ step ∈ steps, step.Faithful prim) :
    (∀ id raw, (run prim cellAt steps ∅).lookup (.drop id) = some raw → DropId.of prim raw = id) ∧
    (∀ id signed body, readDrop (run prim cellAt steps ∅) id = .ok (signed, body) →
      signed.id prim = id) := by
  have hrun : ContentAddressed prim (run prim cellAt steps ∅) :=
    run_invariant (fun step hs dir => step_contentAddressed (hsteps step hs))
      fun id raw h => absurd h nofun
  refine ⟨hrun, fun id signed body hread => ?_⟩
  obtain ⟨raw, hraw, hdec, -⟩ := readDrop_ok_iff.mp hread
  unfold SignedDrop.id
  rw [raw_of_decode hdec]
  exact hrun id raw hraw

theorem known_run_contentAddressed :
    let id := KnownAnswers.drop.id KnownAnswers.primitives
    let dir := run KnownAnswers.primitives noCell [knownFetch id] ∅
    dir.lookup (.drop id) = some KnownAnswers.drop.raw ∧
    ∀ id' raw, dir.lookup (.drop id') = some raw → DropId.of KnownAnswers.primitives raw = id' := by
  refine ⟨known_stored _, (run_contentAddressed KnownAnswers.primitives noCell _ ?_).1⟩
  intro step hstep
  obtain rfl := List.mem_singleton.mp hstep
  refine ⟨fun _ => List.not_mem_nil, fun id raw body hreceived _ => ?_⟩
  obtain ⟨hid, hreply⟩ := hreceived
  obtain rfl := Except.ok.inj ((DropId.fromHex_toHex _).symm.trans hid)
  obtain rfl : KnownAnswers.drop.raw = raw := Option.some.inj (Except.ok.inj hreply)
  rfl

/-- Asked for the drop with id `00…00`, the peer sends the known drop: it is stored and read back
under the wrong id. -/
theorem known_drop_under_zero_id :
    let zero : DropId := ⟨List.Vector.replicate 32 0⟩
    let dir := run KnownAnswers.primitives noCell [knownFetch zero] ∅
    dir.lookup (.drop zero) = some KnownAnswers.drop.raw ∧
    DropId.of KnownAnswers.primitives KnownAnswers.drop.raw ≠ zero ∧
    readDrop dir zero = .ok (KnownAnswers.drop, KnownAnswers.body) := by
  have hstored := known_stored ⟨List.Vector.replicate 32 0⟩
  refine ⟨hstored, by decide +kernel, ?_⟩
  obtain ⟨hdec, -, hbody⟩ := known_drop_accepted
  exact readDrop_ok_iff.mpr ⟨_, hstored, hdec, hbody⟩

end Keepstone.Cli
