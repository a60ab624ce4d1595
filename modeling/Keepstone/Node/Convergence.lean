import Keepstone.Node.Relay
import Keepstone.Lib.Keyed

/-!
# Relays that were told the same
(`crates/node/src/net.rs:59-126`, `crates/p2p/src/lib.rs:209-227, 354-440`)

A relay is told of envelopes by `Put` on any connection and by gossip, in the order in which they
happen to arrive, and of some of them several times. It overwrites what it holds under an id. That
this leaves every relay with the same envelopes rests on the id, which is the hash of the envelope.

Results:
* `run_getDrop_eq`: what is held after a run is the last envelope with that id;
* **`relays_converge`**: relays that were offered the same authentic envelopes hold the same, and
  give everybody the same answers, or two of the envelopes have one SHA-256.
-/

namespace Keepstone.Node

open Keepstone.Lib Keepstone.Crypto Keepstone.Core

/-- Whether an envelope decodes and its signature is valid. -/
def authentic (prim : Primitives) (raw : List UInt8) : Bool :=
  (SignedDrop.decode raw).toOption.any fun signed => (signed.verify prim).isOk

/-- The authentic envelopes that are offered, in order. -/
def offeredDrops (prim : Primitives) : Relay → List Event → List (List UInt8)
  | _, [] => []
  | relay, event :: events =>
    ((relay.offered event).filter (authentic prim)).toList ++
      offeredDrops prim (relay.step prim event).2 events

variable {prim : Primitives}

theorem authentic_iff {raw : List UInt8} : authentic prim raw = true ↔ Authentic prim raw := by
  unfold authentic Authentic
  cases hdecode : SignedDrop.decode raw with
  | error e => simp [Except.toOption]
  | ok signed => simp [Except.toOption, isOk_iff]

/-- An event adds what it offers, if that is authentic. -/
theorem getDrop_step_eq (relay : Relay) (event : Event) (id : DropId) :
    (relay.step prim event).2.store.getDrop id =
      (lastWith (DropId.of prim) id
        ((relay.offered event).filter (authentic prim)).toList).or (relay.store.getDrop id) := by
  have hsame : (∀ raw, relay.offered event = some raw → ¬ Authentic prim raw) →
      (relay.step prim event).2.store.getDrop id = relay.store.getDrop id := by
    intro hnot
    rcases getDrop_step relay event id with ⟨raw, hoffered, hauth, -, -⟩ | hsame
    · exact absurd hauth (hnot raw hoffered)
    · exact hsame
  cases hoffered : relay.offered event with
  | none =>
    rw [hsame fun raw hraw => absurd (hoffered.symm.trans hraw) nofun]
    rfl
  | some raw =>
    by_cases hauth : Authentic prim raw
    · have hfilter : (some raw).filter (authentic prim) = some raw := by
        rw [Option.filter_some, if_pos (authentic_iff.mpr hauth)]
      rw [hfilter]
      by_cases hid : DropId.of prim raw = id
      · subst hid
        simp [lastWith, getDrop_step_of_offered hoffered hauth]
      · rcases getDrop_step relay event id with ⟨raw', hoffered', -, hid', -⟩ | hkept
        · obtain rfl := Option.some.inj (hoffered.symm.trans hoffered')
          exact absurd hid' hid
        · simp [lastWith, hid, hkept]
    · have hfilter : (some raw).filter (authentic prim) = none := by
        rw [Option.filter_some, if_neg fun h => hauth (authentic_iff.mp h)]
      rw [hfilter, hsame fun raw' hraw => ?_]
      · rfl
      · obtain rfl := Option.some.inj (hoffered.symm.trans hraw)
        exact hauth

/-- **What is held after a run** is the last envelope with that id, or what was held before. -/
theorem run_getDrop_eq (relay : Relay) (events : List Event) (id : DropId) :
    (relay.run prim events).store.getDrop id =
      (lastWith (DropId.of prim) id (offeredDrops prim relay events)).or
        (relay.store.getDrop id) := by
  induction events generalizing relay with
  | nil => rfl
  | cons event events ih =>
    rw [run_cons, ih, getDrop_step_eq, offeredDrops, lastWith_append, Option.or_assoc]

/-- **Relays that were offered the same envelopes agree**, in whatever order, how often and by
whomever they were offered: they hold the same under every id and answer every request for an
envelope alike, unless two of the envelopes have the same SHA-256. -/
theorem relays_converge (prim : Primitives) {first second : List Event}
    (h : ∀ raw, raw ∈ offeredDrops prim .start first ↔ raw ∈ offeredDrops prim .start second) :
    ((∀ id, (Relay.start.run prim first).store.getDrop id =
        (Relay.start.run prim second).store.getDrop id) ∧
      ∀ id event event' reply reply', event.asked = some (.want id) →
        event'.asked = some (.want id) →
        (Relay.start.run prim first).reply prim event = some reply →
        (Relay.start.run prim second).reply prim event' = some reply' → reply = reply') ∨
    ∃ raw ∈ offeredDrops prim .start first, ∃ raw' ∈ offeredDrops prim .start first,
      raw ≠ raw' ∧ prim.sha256 raw = prim.sha256 raw' := by
  by_cases hclash : Clash (DropId.of prim) (offeredDrops prim .start first)
  · obtain ⟨raw, hraw, raw', hraw', hne, hid⟩ := hclash
    exact Or.inr ⟨raw, hraw, raw', hraw', hne, congrArg DropId.bytes hid⟩
  · have hget (id : DropId) : (Relay.start.run prim first).store.getDrop id =
        (Relay.start.run prim second).store.getDrop id := by
      rw [run_getDrop_eq, run_getDrop_eq, lastWith_congr h hclash]
    refine Or.inl ⟨hget, fun id event event' reply reply' hasked hasked' hreply hreply' => ?_⟩
    rw [reply_eq_p2pRespond (respond_want _ id) hasked hreply,
      reply_eq_p2pRespond (respond_want _ id) hasked' hreply']
    simp only [p2pRespond, hget]

section KnownDrop

open KnownAnswers

theorem offered_put (connection : Nat) {raw : List UInt8} (h : Authentic prim raw) :
    offeredDrops prim .start [.message connection (.put raw)] = [raw] := by
  have hopen : connection ∉ Relay.start.closed := Finset.notMem_empty connection
  simp [offeredDrops, Relay.offered, hopen, authentic_iff.mpr h]

theorem offered_gossip_twice {raw : List UInt8} (h : Authentic prim raw) :
    offeredDrops prim .start [.gossip raw, .gossip raw] = [raw, raw] := by
  simp [offeredDrops, Relay.offered, Option.filter_some, authentic_iff.mpr h]

/-- The known drop, put once over TCP and twice through gossip. -/
theorem known_relays_agree :
    (Relay.start.run primitives [.message 0 (.put drop.raw)]).store.getDrop
        (DropId.of primitives drop.raw) =
      (Relay.start.run primitives [.gossip drop.raw, .gossip drop.raw]).store.getDrop
        (DropId.of primitives drop.raw) := by
  have hput := offered_put 0 known_authentic
  have hgossip := offered_gossip_twice known_authentic
  rcases @relays_converge primitives [.message 0 (.put drop.raw)]
    [.gossip drop.raw, .gossip drop.raw] (by simp [hput, hgossip]) with ⟨hsame, -⟩ | hclash
  · exact hsame _
  · obtain ⟨raw, hraw, raw', hraw', hne, -⟩ := hclash
    rw [hput] at hraw hraw'
    rw [List.mem_singleton.mp hraw, List.mem_singleton.mp hraw'] at hne
    exact absurd rfl hne

end KnownDrop

end Keepstone.Node
