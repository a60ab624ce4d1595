import Keepstone.Core.Transmission
import Keepstone.Node.Net

/-!
# A relay (`crates/node/src/net.rs:59-126`, `crates/p2p/src/lib.rs:209-227, 354-440`)

A relay keeps envelopes and chunks in memory and serves them to whoever asks. TCP connections and
libp2p share the store. Handling one message takes the store's lock once, so a run is a list of
events in the order the lock was taken, from any number of peers of which nothing is assumed. A
connection on which `respond` has left its loop, or which broke, hears nothing more. The lock is
never poisoned: nothing panics while it is held.

Results:
* `step_store_cases`: what one event can do to the store;
* **`run_authentic_contentAddressed`**: what is held and served is authentic and stays the same.
-/

namespace Keepstone.Node

open Keepstone.Lib Keepstone.Crypto Keepstone.Core

/-! ## The store -/

/-- `MemoryStore`. -/
structure MemoryStore where
  /-- Envelopes. -/
  drops : AList fun _ : DropId => List UInt8
  /-- Chunks. -/
  chunks : AList fun _ : DropId × UInt32 => List UInt8

namespace MemoryStore

/-- `MemoryStore::new`. -/
def new : MemoryStore := ⟨∅, ∅⟩

variable (store : MemoryStore) (id : DropId) (index : UInt32)

/-- `MemoryStore::put_drop`. -/
def putDrop (bytes : List UInt8) : MemoryStore :=
  { store with drops := store.drops.insert id bytes }

/-- `MemoryStore::get_drop`. -/
def getDrop : Option (List UInt8) := store.drops.lookup id

/-- `MemoryStore::put_chunk`. -/
def putChunk (bytes : List UInt8) : MemoryStore :=
  { store with chunks := store.chunks.insert (id, index) bytes }

/-- `MemoryStore::get_chunk`. -/
def getChunk : Option (List UInt8) := store.chunks.lookup (id, index)

variable {store id index}

theorem getDrop_putDrop (id' : DropId) (bytes : List UInt8) :
    (store.putDrop id' bytes).getDrop id = if id = id' then some bytes else store.getDrop id := by
  unfold putDrop getDrop
  split
  · rename_i h
    rw [h, AList.lookup_insert]
  · rename_i h
    rw [AList.lookup_insert_ne h]

theorem getChunk_putChunk (id' : DropId) (index' : UInt32) (bytes : List UInt8) :
    (store.putChunk id' index' bytes).getChunk id index =
      if (id, index) = (id', index') then some bytes else store.getChunk id index := by
  unfold putChunk getChunk
  split
  · rename_i h
    rw [h, AList.lookup_insert]
  · rename_i h
    rw [AList.lookup_insert_ne h]

@[simp] theorem getDrop_putChunk (id' : DropId) (bytes : List UInt8) :
    (store.putChunk id' index bytes).getDrop id = store.getDrop id := rfl

@[simp] theorem getChunk_putDrop (id' : DropId) (bytes : List UInt8) :
    (store.putDrop id' bytes).getChunk id index = store.getChunk id index := rfl

end MemoryStore

/-! ## Handling a message -/

variable (prim : Primitives)

/-- One turn of the loop of `net::respond`: the reply, the store, and whether the loop goes on. -/
def respond (store : MemoryStore) : Message → Message × MemoryStore × Bool
  | .hello version => (.hello version, store, true)
  | .want id =>
    match store.getDrop id with
    | some raw => (.drop raw, store, true)
    | none => (.missing id, store, true)
  | .wantChunk id index =>
    match store.getChunk id index with
    | some data => (.chunk id index data, store, true)
    | none => (.missing id, store, true)
  | .put raw =>
    match SignedDrop.decode raw with
    | .ok signed =>
      if (signed.verify prim).isOk then
        (.stored (signed.id prim), store.putDrop (signed.id prim) raw, true)
      else (.bye, store, true)
    | .error _ => (.bye, store, true)
  | .putChunk id index data => (.stored id, store.putChunk id index data, true)
  | .bye | .drop _ | .missing _ | .chunk .. | .presence _ | .attestation _ | .stored _ | .getSth
  | .sth _ => (.bye, store, false)

/-- `p2p::respond`. -/
def p2pRespond (store : MemoryStore) : Message → Message
  | .want id =>
    match store.getDrop id with
    | some bytes => .drop bytes
    | none => .missing id
  | .wantChunk id index =>
    match store.getChunk id index with
    | some bytes => .chunk id index bytes
    | none => .missing id
  | other => other

/-- The gossip handler of `p2p::serve_cells`. -/
def storeGossip (store : MemoryStore) (data : List UInt8) : MemoryStore :=
  match SignedDrop.decode data with
  | .ok signed =>
    if (signed.verify prim).isOk then store.putDrop (signed.id prim) data else store
  | .error _ => store

/-! ## Runs -/

/-- What can happen to a relay. -/
inductive Event where
  /-- A message on a TCP connection. -/
  | message (connection : Nat) (message : Message)
  /-- A TCP connection ends or breaks. -/
  | hangup (connection : Nat)
  /-- A libp2p request. -/
  | request (message : Message)
  /-- A gossip payload. -/
  | gossip (data : List UInt8)

/-- A relay: the store, and the connections that are closed. -/
structure Relay where
  /-- The store. -/
  store : MemoryStore
  /-- Connections on which nothing is heard any more. -/
  closed : Finset Nat

/-- A relay at its start. -/
def Relay.start : Relay := ⟨.new, ∅⟩

/-- One event: the reply, if there is one, and the relay afterwards. -/
def Relay.step (relay : Relay) : Event → Option Message × Relay
  | .message connection message =>
    if connection ∈ relay.closed then (none, relay)
    else
      let (reply, store, goesOn) := respond prim relay.store message
      (some reply, ⟨store, if goesOn then relay.closed else insert connection relay.closed⟩)
  | .hangup connection => (none, { relay with closed := insert connection relay.closed })
  | .request message => (some (p2pRespond relay.store message), relay)
  | .gossip data => (none, { relay with store := storeGossip prim relay.store data })

/-- The reply to an event. -/
def Relay.reply (relay : Relay) (event : Event) : Option Message := (relay.step prim event).1

/-- The relay after a list of events. -/
def Relay.run (relay : Relay) (events : List Event) : Relay :=
  events.foldl (fun relay event => (relay.step prim event).2) relay

/-! ### What one event does -/

/-- The envelope decodes and its signature is valid. -/
def Authentic (raw : List UInt8) : Prop :=
  ∃ signed, SignedDrop.decode raw = .ok signed ∧ signed.verify prim = .ok ()

/-- The bytes an event hands to the relay as an envelope. -/
def Relay.offered (relay : Relay) : Event → Option (List UInt8)
  | .message connection (.put raw) => if connection ∈ relay.closed then none else some raw
  | .gossip data => some data
  | _ => none

/-- The bytes an event hands to the relay as the chunk `index` of `id`. -/
def Relay.offeredChunk (id : DropId) (index : UInt32) (relay : Relay) :
    Event → Option (List UInt8)
  | .message connection (.putChunk id' index' data) =>
    if connection ∉ relay.closed ∧ (id, index) = (id', index') then some data else none
  | _ => none

variable {prim}

theorem storeGossip_of_authentic {raw : List UInt8} (h : Authentic prim raw)
    (store : MemoryStore) :
    storeGossip prim store raw = store.putDrop (DropId.of prim raw) raw := by
  obtain ⟨signed, hdecode, hverify⟩ := h
  unfold storeGossip
  simp only [hdecode, if_pos (isOk_iff.mpr hverify)]
  rw [SignedDrop.id, raw_of_decode hdecode]

theorem storeGossip_of_not_authentic {raw : List UInt8} (h : ¬ Authentic prim raw)
    (store : MemoryStore) : storeGossip prim store raw = store := by
  unfold storeGossip
  cases hdecode : SignedDrop.decode raw with
  | error e => rfl
  | ok signed =>
    have hverify : ¬ (signed.verify prim).isOk = true := fun hok =>
      h ⟨signed, hdecode, isOk_iff.mp hok⟩
    simp only [if_neg hverify]

/-- `Put` stores what gossip would, and says so when it has. -/
theorem respond_put_of_authentic {raw : List UInt8} (h : Authentic prim raw)
    (store : MemoryStore) :
    respond prim store (.put raw) =
      (.stored (DropId.of prim raw), storeGossip prim store raw, true) := by
  rw [storeGossip_of_authentic h]
  obtain ⟨signed, hdecode, hverify⟩ := h
  simp only [respond, hdecode, if_pos (isOk_iff.mpr hverify)]
  rw [SignedDrop.id, raw_of_decode hdecode]

theorem respond_put_of_not_authentic {raw : List UInt8} (h : ¬ Authentic prim raw)
    (store : MemoryStore) :
    respond prim store (.put raw) = (.bye, storeGossip prim store raw, true) := by
  rw [storeGossip_of_not_authentic h]
  cases hdecode : SignedDrop.decode raw with
  | error e => simp only [respond, hdecode]
  | ok signed =>
    have hverify : ¬ (signed.verify prim).isOk = true := fun hok =>
      h ⟨signed, hdecode, isOk_iff.mp hok⟩
    simp only [respond, hdecode, if_neg hverify]

theorem respond_put_store (store : MemoryStore) (raw : List UInt8) :
    (respond prim store (.put raw)).2.1 = storeGossip prim store raw := by
  by_cases hauth : Authentic prim raw
  · rw [respond_put_of_authentic hauth]
  · rw [respond_put_of_not_authentic hauth]

/-- **What one event does to the store**: it takes an envelope, or a chunk, or changes nothing. -/
theorem step_store_cases (relay : Relay) (event : Event) :
    (∃ raw, relay.offered event = some raw ∧
      (∀ id index, relay.offeredChunk id index event = none) ∧
      (relay.step prim event).2.store = storeGossip prim relay.store raw) ∨
    (∃ connection id index data, event = .message connection (.putChunk id index data) ∧
      connection ∉ relay.closed ∧
      (relay.step prim event).2.store = relay.store.putChunk id index data) ∨
    (relay.offered event = none ∧ (∀ id index, relay.offeredChunk id index event = none) ∧
      (relay.step prim event).2.store = relay.store) := by
  cases event with
  | hangup connection => exact Or.inr (Or.inr ⟨rfl, fun _ _ => rfl, rfl⟩)
  | request message => exact Or.inr (Or.inr ⟨rfl, fun _ _ => rfl, rfl⟩)
  | gossip data => exact Or.inl ⟨data, rfl, fun _ _ => rfl, rfl⟩
  | message connection message =>
    by_cases hclosed : connection ∈ relay.closed
    · refine Or.inr (Or.inr ⟨?_, fun id index => ?_, ?_⟩)
      · unfold Relay.offered
        split <;> simp_all
      · unfold Relay.offeredChunk
        split <;> simp_all
      · simp only [Relay.step, if_pos hclosed]
    · simp only [Relay.step, if_neg hclosed]
      cases message with
      | put raw =>
        exact Or.inl ⟨raw, if_neg hclosed, fun _ _ => rfl, respond_put_store relay.store raw⟩
      | putChunk id index data =>
        exact Or.inr (Or.inl ⟨connection, id, index, data, rfl, hclosed, rfl⟩)
      | want id =>
        refine Or.inr (Or.inr ⟨rfl, fun _ _ => rfl, ?_⟩)
        simp only [respond]
        split <;> rfl
      | wantChunk id index =>
        refine Or.inr (Or.inr ⟨rfl, fun _ _ => rfl, ?_⟩)
        simp only [respond]
        split <;> rfl
      | hello | drop | missing | chunk | presence | attestation | stored | getSth | sth | bye =>
        exact Or.inr (Or.inr ⟨rfl, fun _ _ => rfl, rfl⟩)

/-- An authentic envelope that is offered is stored under its own hash; nothing else is. -/
theorem getDrop_step (relay : Relay) (event : Event) (id : DropId) :
    (∃ raw, relay.offered event = some raw ∧ Authentic prim raw ∧ DropId.of prim raw = id ∧
      (relay.step prim event).2.store.getDrop id = some raw) ∨
    (relay.step prim event).2.store.getDrop id = relay.store.getDrop id := by
  rcases step_store_cases relay event with ⟨raw, hoffered, -, hstore⟩ |
    ⟨connection, id', index, data, -, -, hstore⟩ | ⟨-, -, hstore⟩
  · rw [hstore]
    by_cases hauth : Authentic prim raw
    · rw [storeGossip_of_authentic hauth, MemoryStore.getDrop_putDrop]
      by_cases hid : id = DropId.of prim raw
      · exact Or.inl ⟨raw, hoffered, hauth, hid.symm, if_pos hid⟩
      · exact Or.inr (if_neg hid)
    · rw [storeGossip_of_not_authentic hauth]
      exact Or.inr rfl
  · rw [hstore]
    exact Or.inr rfl
  · rw [hstore]
    exact Or.inr rfl

theorem getDrop_step_of_offered {relay : Relay} {event : Event} {raw : List UInt8}
    (hoffered : relay.offered event = some raw) (hauth : Authentic prim raw) :
    (relay.step prim event).2.store.getDrop (DropId.of prim raw) = some raw := by
  rcases step_store_cases relay event with ⟨raw', hoffered', -, hstore⟩ |
    ⟨connection, id, index, data, rfl, -, -⟩ | ⟨hnone, -, -⟩
  · obtain rfl := Option.some.inj (hoffered.symm.trans hoffered')
    rw [hstore, storeGossip_of_authentic hauth, MemoryStore.getDrop_putDrop, if_pos rfl]
  · exact absurd hoffered nofun
  · exact absurd (hnone.symm.trans hoffered) nofun

/-- A chunk that is offered is stored, whoever offers it. -/
theorem getChunk_step (relay : Relay) (event : Event) (id : DropId) (index : UInt32) :
    (relay.step prim event).2.store.getChunk id index =
      (relay.offeredChunk id index event).or (relay.store.getChunk id index) := by
  rcases step_store_cases relay event with ⟨raw, -, hnone, hstore⟩ |
    ⟨connection, id', index', data, rfl, hopen, hstore⟩ | ⟨-, hnone, hstore⟩
  · rw [hstore, hnone, Option.none_or]
    by_cases hauth : Authentic prim raw
    · rw [storeGossip_of_authentic hauth, MemoryStore.getChunk_putDrop]
    · rw [storeGossip_of_not_authentic hauth]
  · rw [hstore, MemoryStore.getChunk_putChunk]
    by_cases heq : (id, index) = (id', index')
    · rw [if_pos heq, Relay.offeredChunk, if_pos ⟨hopen, heq⟩, Option.some_or]
    · rw [if_neg heq, Relay.offeredChunk, if_neg fun h => heq h.2, Option.none_or]
  · rw [hstore, hnone, Option.none_or]

/-! ## What is held and served -/

theorem run_cons (relay : Relay) (event : Event) (events : List Event) :
    relay.run prim (event :: events) = (relay.step prim event).2.run prim events := rfl

theorem run_append (relay : Relay) (first second : List Event) :
    relay.run prim (first ++ second) = (relay.run prim first).run prim second :=
  List.foldl_append

variable (prim) in
/-- Every envelope held is authentic and under its own hash. -/
def Relay.Sound (relay : Relay) : Prop :=
  ∀ id raw, relay.store.getDrop id = some raw → DropId.of prim raw = id ∧ Authentic prim raw

theorem sound_start : Relay.start.Sound prim := fun _ _ h => absurd h nofun

theorem step_sound {relay : Relay} (h : relay.Sound prim) (event : Event) :
    (relay.step prim event).2.Sound prim := by
  intro id raw hget
  rcases getDrop_step relay event id with ⟨raw', -, hauth, hid, hget'⟩ | hsame
  · obtain rfl := Option.some.inj (hget'.symm.trans hget)
    exact ⟨hid, hauth⟩
  · exact h id raw (hsame.symm.trans hget)

theorem run_sound {relay : Relay} (h : relay.Sound prim) (events : List Event) :
    (relay.run prim events).Sound prim := by
  induction events generalizing relay with
  | nil => exact h
  | cons event events ih => exact ih (step_sound h event)

/-- The message an event asks to be answered. -/
def Event.asked : Event → Option Message
  | .message _ question => some question
  | .hangup _ => none
  | .request question => some question
  | .gossip _ => none

theorem respond_want (store : MemoryStore) (id : DropId) :
    (respond prim store (.want id)).1 = p2pRespond store (.want id) := by
  simp only [respond, p2pRespond]
  split <;> rfl

theorem respond_wantChunk (store : MemoryStore) (id : DropId) (index : UInt32) :
    (respond prim store (.wantChunk id index)).1 = p2pRespond store (.wantChunk id index) := by
  simp only [respond, p2pRespond]
  split <;> rfl

/-- What is asked is answered from the store, over TCP as over libp2p. -/
theorem reply_eq_p2pRespond {relay : Relay} {event : Event} {question reply : Message}
    (hsame : (respond prim relay.store question).1 = p2pRespond relay.store question)
    (hasked : event.asked = some question) (hreply : relay.reply prim event = some reply) :
    reply = p2pRespond relay.store question := by
  cases event with
  | hangup connection => exact absurd hasked nofun
  | gossip data => exact absurd hasked nofun
  | request message =>
    obtain rfl := Option.some.inj hasked
    exact (Option.some.inj hreply).symm
  | message connection message =>
    obtain rfl := Option.some.inj hasked
    by_cases hclosed : connection ∈ relay.closed
    · rw [Relay.reply, Relay.step, if_pos hclosed] at hreply
      exact absurd hreply nofun
    · rw [Relay.reply, Relay.step, if_neg hclosed] at hreply
      rw [← hsame]
      exact (Option.some.inj hreply).symm

/-- An envelope that is served is the one held. -/
theorem getDrop_of_reply {relay : Relay} {event : Event} {id : DropId} {raw : List UInt8}
    (hasked : event.asked = some (.want id)) (hreply : relay.reply prim event = some (.drop raw)) :
    relay.store.getDrop id = some raw := by
  have hdrop := reply_eq_p2pRespond (respond_want relay.store id) hasked hreply
  simp only [p2pRespond] at hdrop
  split at hdrop
  · rename_i raw' hget
    rw [hget, Message.drop.inj hdrop]
  · exact absurd hdrop nofun

/-- Bytes other than `raw` with its SHA-256 are among those offered. -/
def CollisionOffered (prim : Primitives) (relay : Relay) (events : List Event)
    (raw : List UInt8) : Prop :=
  ∃ before event after raw', events = before ++ event :: after ∧
    (relay.run prim before).offered event = some raw' ∧ raw' ≠ raw ∧
    prim.sha256 raw' = prim.sha256 raw

/-- What is held under an id stays, up to a collision. -/
theorem run_getDrop {relay : Relay} (h : relay.Sound prim) {id : DropId} {raw : List UInt8}
    (hget : relay.store.getDrop id = some raw) (events : List Event) :
    (relay.run prim events).store.getDrop id = some raw ∨
      CollisionOffered prim relay events raw := by
  induction events generalizing relay with
  | nil => exact Or.inl hget
  | cons event events ih =>
    have hlater : (relay.step prim event).2.store.getDrop id = some raw →
        (relay.run prim (event :: events)).store.getDrop id = some raw ∨
          CollisionOffered prim relay (event :: events) raw := by
      intro hstep
      rcases ih (step_sound h event) hstep with hkept | ⟨before, e, after, raw', rfl, hcol⟩
      · exact Or.inl hkept
      · exact Or.inr ⟨event :: before, e, after, raw', rfl, hcol⟩
    rcases getDrop_step relay event id with ⟨raw', hoffered, -, hid, hget'⟩ | hsame
    · by_cases hraw : raw' = raw
      · exact hlater (hraw ▸ hget')
      · refine Or.inr ⟨[], event, events, raw', rfl, hoffered, hraw, ?_⟩
        exact congrArg DropId.bytes (hid.trans (h id raw hget).1.symm)
    · exact hlater (hsame.trans hget)

/-- **A relay only ever holds and serves authentic, content-addressed envelopes**, after any
events from any number of peers, and what it has served under an id it serves ever after, unless
other bytes with the same SHA-256 are offered. -/
theorem run_authentic_contentAddressed (prim : Primitives) (events : List Event) :
    (∀ id raw, (Relay.start.run prim events).store.getDrop id = some raw →
      prim.sha256 raw = id.bytes ∧
        ∃ signed, SignedDrop.decode raw = .ok signed ∧ signed.verify prim = .ok ()) ∧
    (∀ event id raw, event.asked = some (.want id) →
      (Relay.start.run prim events).reply prim event = some (.drop raw) →
      prim.sha256 raw = id.bytes) ∧
    (∀ event id raw later event' reply, event.asked = some (.want id) →
      (Relay.start.run prim events).reply prim event = some (.drop raw) →
      event'.asked = some (.want id) →
      (Relay.start.run prim (events ++ event :: later)).reply prim event' = some reply →
      reply = .drop raw ∨ CollisionOffered prim (Relay.start.run prim events) (event :: later) raw) := by
  have hsound : (Relay.start.run prim events).Sound prim := run_sound sound_start events
  refine ⟨?_, ?_, ?_⟩
  · intro id raw hget
    obtain ⟨hid, hauth⟩ := hsound id raw hget
    exact ⟨congrArg DropId.bytes hid, hauth⟩
  · intro event id raw hasked hreply
    exact congrArg DropId.bytes (hsound id raw (getDrop_of_reply hasked hreply)).1
  · intro event id raw later event' reply hasked hreply hasked' hreply'
    have hget := getDrop_of_reply hasked hreply
    rw [run_append] at hreply'
    rcases run_getDrop hsound hget (event :: later) with hkept | hcol
    · left
      rw [reply_eq_p2pRespond (respond_want _ id) hasked' hreply']
      simp only [p2pRespond, hkept]
    · exact Or.inr hcol

/-- A relay that was put one envelope. -/
theorem step_start_put {raw : List UInt8} (h : Authentic prim raw) (connection : Nat) :
    Relay.start.step prim (.message connection (.put raw)) =
      (some (.stored (DropId.of prim raw)),
        ⟨MemoryStore.new.putDrop (DropId.of prim raw) raw, ∅⟩) := by
  have hopen : connection ∉ Relay.start.closed := Finset.notMem_empty connection
  rw [Relay.step, if_neg hopen, respond_put_of_authentic h, storeGossip_of_authentic h]
  rfl

theorem reply_want_of_put {raw : List UInt8} (h : Authentic prim raw) (connection : Nat) :
    (Relay.start.run prim [.message connection (.put raw)]).reply prim
      (.request (.want (DropId.of prim raw))) = some (.drop raw) := by
  have hget : (MemoryStore.new.putDrop (DropId.of prim raw) raw).getDrop (DropId.of prim raw) =
      some raw := by
    rw [MemoryStore.getDrop_putDrop, if_pos rfl]
  rw [run_cons, step_start_put h]
  simp only [Relay.run, List.foldl_nil, Relay.reply, Relay.step, p2pRespond, hget]

section KnownDrop

open KnownAnswers

theorem known_authentic : Authentic primitives drop.raw :=
  ⟨drop, known_drop_accepted.1, known_drop_accepted.2.1⟩

/-- The known drop is put over TCP and asked for over libp2p. -/
theorem known_drop_served :
    let id := DropId.of primitives drop.raw
    let relay := Relay.start.run primitives [.message 0 (.put drop.raw)]
    relay.reply primitives (.request (.want id)) = some (.drop drop.raw) ∧
      primitives.sha256 drop.raw = id.bytes := by
  have hreply := reply_want_of_put known_authentic 0
  exact ⟨hreply, (run_authentic_contentAddressed primitives [.message 0 (.put drop.raw)]).2.1
    _ _ _ rfl hreply⟩

end KnownDrop

end Keepstone.Node
