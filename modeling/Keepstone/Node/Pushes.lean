import Keepstone.Node.Relay

/-!
# What a relay does not check

`respond` takes a chunk from anyone for any drop, and neither it nor the gossip handler looks at
the proof of work of an envelope.

Results:
* **`run_costsWork_iff`**: when everything that is held has cost work;
* `run_getChunk`: the relay holds the last chunk it was offered;
* **`pushed_chunks_served_iff`**: when a confirmed push is still served.
-/

namespace Keepstone.Node

open Keepstone.Lib Keepstone.Crypto Keepstone.Core

variable {prim : Primitives}

/-! ## Work -/

/-- The payload of the envelope is a body with a valid proof of work. -/
def CostsWork (prim : Primitives) (raw : List UInt8) : Prop :=
  ∃ signed body, SignedDrop.decode raw = .ok signed ∧ signed.body = .ok body ∧
    body.powOk prim signed.signer = true

/-- Everything held has cost work. -/
def Relay.Worked (prim : Primitives) (relay : Relay) : Prop :=
  ∀ id raw, relay.store.getDrop id = some raw → CostsWork prim raw

theorem step_worked {relay : Relay} {event : Event} (h : relay.Worked prim)
    (hoffered : ∀ raw, relay.offered event = some raw → Authentic prim raw → CostsWork prim raw) :
    (relay.step prim event).2.Worked prim := by
  intro id raw hget
  rcases getDrop_step relay event id with ⟨raw', hraw, hauth, -, hget'⟩ | hsame
  · obtain rfl := Option.some.inj (hget'.symm.trans hget)
    exact hoffered raw' hraw hauth
  · exact h id raw (hsame.symm.trans hget)

/-- **When everything a relay ever holds has cost work**: if every authentic envelope it was
offered has. It checks signatures and no proof of work. -/
theorem run_costsWork_iff (prim : Primitives) (events : List Event) :
    (∀ before after, events = before ++ after → (Relay.start.run prim before).Worked prim) ↔
      ∀ before event after raw, events = before ++ event :: after →
        (Relay.start.run prim before).offered event = some raw → Authentic prim raw →
        CostsWork prim raw := by
  constructor
  · rintro h before event after raw rfl hoffered hauth
    have hheld := getDrop_step_of_offered hoffered hauth
    have hworked := h (before ++ [event]) after (by rw [List.append_assoc]; rfl)
    rw [run_append, run_cons] at hworked
    exact hworked _ raw hheld
  · rintro h before after rfl
    induction before using List.reverseRecOn generalizing after with
    | nil => exact fun _ _ hget => absurd hget nofun
    | append_singleton before event ih =>
      rw [List.append_assoc] at h
      rw [run_append, run_cons]
      refine step_worked (ih (event :: after) ?_) fun raw hoffered hauth =>
        h before event after raw rfl hoffered hauth
      exact h

/-- What is offered in a run of one `Put`. -/
theorem offered_of_put {connection : Nat} {raw raw' : List UInt8} {before after : List Event}
    {event : Event} (hevents : [.message connection (.put raw)] = before ++ event :: after)
    (hoffered : (Relay.start.run prim before).offered event = some raw') : raw' = raw := by
  cases before with
  | nil =>
    obtain rfl := (List.cons.inj hevents).1
    have hopen : connection ∉ Relay.start.closed := Finset.notMem_empty connection
    rw [Relay.run, List.foldl_nil, Relay.offered, if_neg hopen] at hoffered
    exact (Option.some.inj hoffered).symm
  | cons first before =>
    have hnil := (List.cons.inj hevents).2
    exact absurd hnil.symm (by simp)

theorem not_worked_of_put {raw : List UInt8} (hauth : Authentic prim raw)
    (hwork : ¬ CostsWork prim raw) :
    ¬ (Relay.start.run prim [.message 0 (.put raw)]).Worked prim := by
  intro h
  rw [run_cons, step_start_put hauth] at h
  refine hwork (h (DropId.of prim raw) raw ?_)
  exact (MemoryStore.getDrop_putDrop _ raw).trans (if_pos rfl)

section KnownDrop

open KnownAnswers

theorem known_costsWork : CostsWork primitives drop.raw :=
  ⟨drop, body, known_drop_accepted.1, known_drop_accepted.2.2, by decide +kernel⟩

theorem known_drop_worked :
    (Relay.start.run primitives [.message 0 (.put drop.raw)]).Worked primitives :=
  (run_costsWork_iff primitives [.message 0 (.put drop.raw)]).mpr
    (fun _ _ _ _ hevents hoffered _ => (offered_of_put hevents hoffered).symm ▸ known_costsWork)
    _ [] (List.append_nil _).symm

/-- The known drop without its proof of work. -/
def unworked : SignedDrop := .sign primitives author { body with powNonce := 0 }

theorem unworked_accepted :
    SignedDrop.decode unworked.raw = .ok unworked ∧ unworked.verify primitives = .ok () ∧
      unworked.body = .ok { body with powNonce := 0 } := by
  have hlen : unworked.raw.length < 2 ^ 64 := by decide +kernel
  have hraw : unworked.raw = unworked.encode := sign_raw _ _
  exact ⟨decode_raw hraw hlen, sign_verify laws author _, body_of_payload rfl (hraw ▸ hlen)⟩

/-- An envelope on which no work was done is taken and held. -/
theorem unworked_drop_held :
    Authentic primitives unworked.raw ∧ ¬ CostsWork primitives unworked.raw ∧
      ¬ (Relay.start.run primitives [.message 0 (.put unworked.raw)]).Worked primitives := by
  obtain ⟨hdecode, hverify, hbody⟩ := unworked_accepted
  have hauth : Authentic primitives unworked.raw := ⟨unworked, hdecode, hverify⟩
  have hwork : ¬ CostsWork primitives unworked.raw := by
    rintro ⟨signed, body', hdecode', hbody', hpow⟩
    obtain rfl := Except.ok.inj (hdecode.symm.trans hdecode')
    obtain rfl := Except.ok.inj (hbody.symm.trans hbody')
    revert hpow
    decide +kernel
  exact ⟨hauth, hwork, not_worked_of_put hauth hwork⟩

end KnownDrop

/-! ## Chunks -/

/-- The chunks offered for one place of a drop, in order. -/
def offeredChunks (prim : Primitives) (id : DropId) (index : UInt32) :
    Relay → List Event → List (List UInt8)
  | _, [] => []
  | relay, event :: events =>
    (relay.offeredChunk id index event).toList ++
      offeredChunks prim id index (relay.step prim event).2 events

/-- **A relay holds the last chunk it was offered.** -/
theorem run_getChunk (relay : Relay) (events : List Event) (id : DropId) (index : UInt32) :
    (relay.run prim events).store.getChunk id index =
      (offeredChunks prim id index relay events).getLast?.or (relay.store.getChunk id index) := by
  induction events generalizing relay with
  | nil => rfl
  | cons event events ih =>
    rw [run_cons, ih, getChunk_step, offeredChunks]
    cases relay.offeredChunk id index event with
    | none => rw [Option.none_or, Option.toList_none, List.nil_append]
    | some data =>
      rw [Option.some_or, Option.toList_some, List.singleton_append, List.getLast?_cons]
      cases (offeredChunks prim id index (relay.step prim event).2 events).getLast? with
      | none => rfl
      | some last => rfl

/-- A push that was confirmed: the envelope, and the chunks of every index below `count`. -/
structure Pushed (prim : Primitives) (events : List Event) (raw : List UInt8) (count : UInt32)
    (chunks : UInt32 → List UInt8) : Prop where
  /-- `Put` was answered `Stored`. -/
  envelope : ∃ before connection after,
    events = before ++ .message connection (.put raw) :: after ∧
    (Relay.start.run prim before).reply prim (.message connection (.put raw)) =
      some (.stored (DropId.of prim raw))
  /-- So was each `PutChunk`. -/
  chunk : ∀ index < count, ∃ before connection after,
    events = before ++
      .message connection (.putChunk (DropId.of prim raw) index (chunks index)) :: after ∧
    (Relay.start.run prim before).reply prim
      (.message connection (.putChunk (DropId.of prim raw) index (chunks index))) =
      some (.stored (DropId.of prim raw))

/-- Every chunk of the push is served, to whoever asks. -/
def ServesPushed (prim : Primitives) (relay : Relay) (id : DropId) (count : UInt32)
    (chunks : UInt32 → List UInt8) : Prop :=
  ∀ index < count, ∀ connection reply,
    relay.reply prim (.message connection (.wantChunk id index)) = some reply →
      reply = .chunk id index (chunks index)

theorem reply_wantChunk {relay : Relay} {connection : Nat} (hopen : connection ∉ relay.closed)
    (id : DropId) (index : UInt32) :
    relay.reply prim (.message connection (.wantChunk id index)) =
      some (p2pRespond relay.store (.wantChunk id index)) := by
  rw [Relay.reply, Relay.step, if_neg hopen]
  exact congrArg some (respond_wantChunk relay.store id index)

theorem p2pRespond_eq_chunk_iff {store : MemoryStore} {id : DropId} {index : UInt32}
    {data : List UInt8} :
    p2pRespond store (.wantChunk id index) = .chunk id index data ↔
      store.getChunk id index = some data := by
  simp only [p2pRespond]
  cases store.getChunk id index with
  | none => simp
  | some data' => simp

theorem servesPushed_iff {relay : Relay} {id : DropId} {count : UInt32}
    {chunks : UInt32 → List UInt8} :
    ServesPushed prim relay id count chunks ↔
      ∀ index < count, relay.store.getChunk id index = some (chunks index) := by
  constructor
  · intro h index hindex
    obtain ⟨connection, hopen⟩ := Infinite.exists_notMem_finset relay.closed
    exact p2pRespond_eq_chunk_iff.mp (h index hindex connection _ (reply_wantChunk hopen id index))
  · intro h index hindex connection reply hreply
    rw [reply_eq_p2pRespond (respond_wantChunk relay.store id index) rfl hreply]
    exact p2pRespond_eq_chunk_iff.mpr (h index hindex)

theorem offeredChunks_append (id : DropId) (index : UInt32) (relay : Relay)
    (first second : List Event) :
    offeredChunks prim id index relay (first ++ second) =
      offeredChunks prim id index relay first ++
        offeredChunks prim id index (relay.run prim first) second := by
  induction first generalizing relay with
  | nil => rfl
  | cons event first ih =>
    rw [List.cons_append, offeredChunks, offeredChunks, ih, List.append_assoc, run_cons]

theorem run_start_getChunk (events : List Event) (id : DropId) (index : UInt32) :
    (Relay.start.run prim events).store.getChunk id index =
      (offeredChunks prim id index .start events).getLast? := by
  have hnone : Relay.start.store.getChunk id index = none := rfl
  rw [run_getChunk, hnone, Option.or_none]

/-- A confirmed chunk was offered. -/
theorem Pushed.mem_offeredChunks {events : List Event} {raw : List UInt8} {count : UInt32}
    {chunks : UInt32 → List UInt8} (h : Pushed prim events raw count chunks) {index : UInt32}
    (hindex : index < count) :
    chunks index ∈ offeredChunks prim (DropId.of prim raw) index .start events := by
  obtain ⟨before, connection, after, rfl, hreply⟩ := h.chunk index hindex
  have hopen : connection ∉ (Relay.start.run prim before).closed := by
    intro hclosed
    rw [Relay.reply, Relay.step, if_pos hclosed] at hreply
    cases hreply
  rw [offeredChunks_append, offeredChunks, Relay.offeredChunk, if_pos ⟨hopen, rfl⟩]
  exact List.mem_append_right _ (List.mem_append_left _ (List.mem_singleton_self _))

/-- **When a confirmed push is still served**: at every later moment exactly if the last chunk
offered for each index is the pushed one; so in particular as long as nobody offers another. The
relay takes any chunk from anyone. -/
theorem pushed_chunks_served_iff (prim : Primitives) (events later : List Event)
    (raw : List UInt8) (count : UInt32) (chunks : UInt32 → List UInt8)
    (hpushed : Pushed prim events raw count chunks) :
    ((∀ before after, later = before ++ after →
        ServesPushed prim (Relay.start.run prim (events ++ before)) (DropId.of prim raw) count
          chunks) ↔
      ∀ before after, later = before ++ after → ∀ index < count,
        (offeredChunks prim (DropId.of prim raw) index .start (events ++ before)).getLast? =
          some (chunks index)) ∧
    ((∀ index < count, ∀ data ∈ offeredChunks prim (DropId.of prim raw) index .start
        (events ++ later), data = chunks index) →
      ∀ before after, later = before ++ after →
        ServesPushed prim (Relay.start.run prim (events ++ before)) (DropId.of prim raw) count
          chunks) := by
  constructor
  · simp only [servesPushed_iff, run_start_getChunk]
  · rintro hsame before after rfl
    refine servesPushed_iff.mpr fun index hindex => ?_
    rw [run_start_getChunk]
    have hmem : chunks index ∈
        offeredChunks prim (DropId.of prim raw) index .start (events ++ before) := by
      rw [offeredChunks_append]
      exact List.mem_append_left _ (hpushed.mem_offeredChunks hindex)
    have hne := List.ne_nil_of_mem hmem
    rw [List.getLast?_eq_some_getLast hne]
    have hlast : (offeredChunks prim (DropId.of prim raw) index .start
        (events ++ before)).getLast hne ∈
        offeredChunks prim (DropId.of prim raw) index .start (events ++ (before ++ after)) := by
      rw [← List.append_assoc, offeredChunks_append _ _ _ (events ++ before)]
      exact List.mem_append_left _ (List.getLast_mem hne)
    rw [hsame index hindex _ hlast]

/-- A push of one envelope and one chunk on the first connection is confirmed. -/
theorem pushed_one {raw : List UInt8} (h : Authentic prim raw) (chunk : List UInt8) :
    Pushed prim [.message 0 (.put raw), .message 0 (.putChunk (DropId.of prim raw) 0 chunk)] raw 1
      fun _ => chunk := by
  have hput := step_start_put h 0
  refine ⟨⟨[], 0, _, rfl, congrArg Prod.fst hput⟩, fun index hindex => ?_⟩
  obtain rfl : index = 0 := by
    rw [UInt32.lt_iff_toNat_lt, UInt32.toNat_one] at hindex
    exact UInt32.toNat_inj.mp (by rw [UInt32.toNat_zero]; omega)
  refine ⟨[.message 0 (.put raw)], 0, [], rfl, ?_⟩
  rw [run_cons, hput]
  rfl

theorem offeredChunks_push_one {raw : List UInt8} (h : Authentic prim raw)
    (chunk : List UInt8) (index : UInt32) :
    ∀ data ∈ offeredChunks prim (DropId.of prim raw) index .start
      [.message 0 (.put raw), .message 0 (.putChunk (DropId.of prim raw) 0 chunk)],
      data = chunk := by
  intro data hdata
  rw [offeredChunks, step_start_put h] at hdata
  simp only [offeredChunks, Relay.offeredChunk, Option.toList_none, List.nil_append,
    List.append_nil] at hdata
  split at hdata
  · exact List.mem_singleton.mp hdata
  · exact absurd hdata List.not_mem_nil

/-- The relay after a push of one chunk and a chunk from another connection for the same place. -/
theorem run_push_overwrite {raw : List UInt8} (h : Authentic prim raw)
    (chunk other : List UInt8) :
    (Relay.start.run prim
      ([.message 0 (.put raw), .message 0 (.putChunk (DropId.of prim raw) 0 chunk)] ++
        [.message 1 (.putChunk (DropId.of prim raw) 0 other)])).store.getChunk
      (DropId.of prim raw) 0 = some other := by
  have hstore : (Relay.start.run prim
      ([.message 0 (.put raw), .message 0 (.putChunk (DropId.of prim raw) 0 chunk)] ++
        [.message 1 (.putChunk (DropId.of prim raw) 0 other)])).store =
      ((MemoryStore.new.putDrop (DropId.of prim raw) raw).putChunk (DropId.of prim raw) 0
        chunk).putChunk (DropId.of prim raw) 0 other := by
    rw [List.cons_append, run_cons, step_start_put h]
    rfl
  rw [hstore, MemoryStore.getChunk_putChunk, if_pos rfl]

section KnownDrop

open KnownAnswers

/-- The known drop and its chunk are pushed and confirmed; another client then puts an empty
chunk in its place, and that is what is served. -/
theorem known_push_overwritten :
    let id := DropId.of primitives drop.raw
    let events : List Event := [.message 0 (.put drop.raw), .message 0 (.putChunk id 0 chunk)]
    let later : List Event := [.message 1 (.putChunk id 0 [])]
    Pushed primitives events drop.raw 1 (fun _ => chunk) ∧
      (Relay.start.run primitives (events ++ later)).store.getChunk id 0 = some [] ∧
      ¬ ServesPushed primitives (Relay.start.run primitives (events ++ later)) id 1
        fun _ => chunk := by
  have hheld := run_push_overwrite known_authentic chunk []
  refine ⟨pushed_one known_authentic chunk, hheld, fun hserves => ?_⟩
  have hchunk := servesPushed_iff.mp hserves 0 (by decide)
  exact absurd (Option.some.inj (hheld.symm.trans hchunk)) (by decide)

/-- The known drop and its chunk are pushed, and nothing follows. -/
theorem known_push_served :
    let id := DropId.of primitives drop.raw
    let events : List Event := [.message 0 (.put drop.raw), .message 0 (.putChunk id 0 chunk)]
    ServesPushed primitives (Relay.start.run primitives (events ++ [])) id 1 fun _ => chunk := by
  have hpushed := pushed_one known_authentic chunk
  exact (pushed_chunks_served_iff primitives _ [] drop.raw 1 (fun _ => chunk) hpushed).2
    (fun index _ => offeredChunks_push_one known_authentic chunk index) [] [] rfl

end KnownDrop

end Keepstone.Node
