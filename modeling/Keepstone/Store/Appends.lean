import Keepstone.Lib.Interleaving
import Keepstone.Store.Log

/-!
# Appends to the log that overlap (`crates/store/src/lib.rs:667-679`)

`append_log_entry` takes no lock and appends twice, the length and then the envelope. The daemon
runs requests in parallel tasks, and a command can run beside it, so the appends of several calls
can mix. Each `write_all` is one atomic append here.

Results:
* **`interleaved_appends_iff`**: an interleaving loses nothing exactly when it leaves the bytes
  that the calls would have left one after the other.
-/

namespace Keepstone.Store

open Keepstone.Lib Keepstone.Core

/-- What a call of `append_log_entry` writes, one `write_all` after the other. -/
def logWrites (raw : List UInt8) : List (List UInt8) := [beBytes 4 raw.length, raw]

/-- Calls of `append_log_entry` on a directory, interleaved by a schedule. -/
def interleaved (dir : Dir) (raws : List (List UInt8)) (schedule : List Nat) :
    Calls Dir (List UInt8) :=
  Calls.run (extend · .logEntries ·) ⟨dir, raws.map logWrites⟩ schedule

/-- The interleaving leaves the bytes of the calls one after the other, in some order. -/
def Serializable (dir : Dir) (raws : List (List UInt8)) (schedule : List Nat) : Prop :=
  ∃ order : List (List UInt8), order.Perm raws ∧
    logBytes (interleaved dir raws schedule).shared = logBytes dir ++ records 4 order

theorem flatten_logWrites (raw : List UInt8) : (logWrites raw).flatten = record 4 raw := by
  simp [logWrites, record]

theorem flatten_map_logWrites (raws : List (List UInt8)) :
    (raws.map logWrites).flatten.flatten = records 4 raws := by
  induction raws with
  | nil => rfl
  | cons raw raws ih =>
    rw [List.map_cons, List.flatten_cons, List.flatten_append, flatten_logWrites, ih, records_cons]

theorem logBytes_foldl_extend (writes : List (List UInt8)) (dir : Dir) :
    logBytes (writes.foldl (extend · .logEntries ·) dir) = logBytes dir ++ writes.flatten := by
  induction writes generalizing dir with
  | nil => rw [List.flatten_nil, List.append_nil]; rfl
  | cons bytes writes ih =>
    rw [List.foldl_cons, ih, logBytes_extend, List.flatten_cons, List.append_assoc]

/-- No byte is lost or made up: what is in the file and what is still to be written add up. -/
theorem length_interleaved (dir : Dir) (raws : List (List UInt8)) (schedule : List Nat) :
    (logBytes (interleaved dir raws schedule).shared).length +
        (interleaved dir raws schedule).pending.flatten.flatten.length =
      (logBytes dir).length + (records 4 raws).length := by
  refine Calls.run_invariant (I := fun calls => (logBytes calls.shared).length +
    calls.pending.flatten.flatten.length = (logBytes dir).length + (records 4 raws).length)
    (fun calls i h => ?_) ?_ schedule
  · rcases Calls.step_cases calls i with hstep | ⟨before, op, rest, after, hpending, hstep⟩
    · rw [hstep]
      exact h
    · rw [hpending] at h
      rw [hstep, logBytes_extend]
      simp only [List.flatten_append, List.flatten_cons, List.length_append] at h ⊢
      omega
  · rw [flatten_map_logWrites]

/-- Ended calls have written all their bytes. -/
theorem length_of_done {dir : Dir} {raws : List (List UInt8)} {schedule : List Nat}
    (h : (interleaved dir raws schedule).Done) :
    (logBytes (interleaved dir raws schedule).shared).length =
      (logBytes dir).length + (records 4 raws).length := by
  have hnone : (interleaved dir raws schedule).pending.flatten = [] :=
    List.flatten_eq_nil_iff.mpr h
  have hsum := length_interleaved dir raws schedule
  rwa [hnone, List.flatten_nil, List.length_nil, Nat.add_zero] at hsum

/-- Reordered calls are calls of reordered entries. -/
theorem exists_order {ended : List (List (List UInt8))} {raws : List (List UInt8)}
    (h : ended.Perm (raws.map logWrites)) :
    ∃ order : List (List UInt8), order.Perm raws ∧ ended = order.map logWrites := by
  have hforall : List.Forall₂ (fun ops raw => ops = logWrites raw) (raws.map logWrites) raws :=
    List.forall₂_map_left_iff.mpr (List.forall₂_same.mpr fun _ _ => rfl)
  obtain ⟨order, hended, hperm⟩ := List.perm_comp_forall₂ h hforall
  refine ⟨order, hperm, ?_⟩
  rw [← List.forall₂_eq_eq_eq, List.forall₂_map_right_iff]
  exact hended

theorem serializable_of_unbroken {dir : Dir} {raws : List (List UInt8)} {order : List Nat}
    (h : (interleaved dir raws (Calls.turns 2 order)).Done) :
    Serializable dir raws (Calls.turns 2 order) := by
  have htwo : ∀ ops ∈ raws.map logWrites, ops.length ≤ 2 := by
    intro ops hmem
    obtain ⟨raw, -, rfl⟩ := List.mem_map.mp hmem
    exact le_rfl
  have hall : Calls.unfinished (raws.map logWrites) = raws.map logWrites := by
    refine List.filter_eq_self.mpr fun ops hmem => ?_
    obtain ⟨raw, -, rfl⟩ := List.mem_map.mp hmem
    rfl
  obtain ⟨ended, hperm, hshared⟩ := Calls.exists_serial_of_unbroken htwo h
  rw [hall] at hperm
  obtain ⟨entries, hentries, rfl⟩ := exists_order hperm
  refine ⟨entries, hentries, ?_⟩
  unfold interleaved
  rw [hshared, logBytes_foldl_extend, flatten_map_logWrites]

/-- **An interleaving of appends loses nothing exactly if it is serializable**, and it is when no
write of another call comes between the two writes of a call. -/
theorem interleaved_appends_iff (dir : Dir) (old raws : List (List UInt8)) (schedule : List Nat)
    (hold : ∀ entry ∈ old, Fits 4 entry) (hraws : ∀ raw ∈ raws, Fits 4 raw)
    (hlog : logBytes dir = records 4 old) (hdone : (interleaved dir raws schedule).Done) :
    ((∃ order : List (List UInt8), order.Perm raws ∧
        logEntries (interleaved dir raws schedule).shared = old ++ order) ↔
      Serializable dir raws schedule) ∧
    ∀ order, schedule = Calls.turns 2 order → Serializable dir raws schedule := by
  constructor
  · refine exists_congr fun order => and_congr_right fun hperm => ?_
    have hfits : ∀ entry ∈ old ++ order, Fits 4 entry := by
      intro entry hmem
      rcases List.mem_append.mp hmem with hmem | hmem
      · exact hold entry hmem
      · exact hraws entry (hperm.subset hmem)
    have hlen : (logBytes (interleaved dir raws schedule).shared).length =
        (records 4 (old ++ order)).length := by
      rw [length_of_done hdone, hlog, records_append, List.length_append,
        length_records_perm hperm]
    rw [logEntries_eq_scan, scan_records_iff (by decide) hlen, hlog, records_append]
    exact and_iff_right hfits
  · rintro order rfl
    exact serializable_of_unbroken hdone

/-- The lengths of two calls and then their envelopes: the file has six bytes of neither entry's
record, and one entry that nobody appended is read. -/
theorem interleaved_lengths_first :
    let raws : List (List UInt8) := [[1], [2]]
    let after := interleaved ∅ raws [0, 1, 0, 1]
    after.Done ∧ logEntries after.shared = [[0]] ∧
      ¬ ∃ order : List (List UInt8), order.Perm raws ∧ logEntries after.shared = [] ++ order := by
  have hread : logEntries (interleaved ∅ [[1], [2]] [0, 1, 0, 1]).shared = [[0]] := by
    decide +kernel
  refine ⟨by decide +kernel, hread, ?_⟩
  rintro ⟨order, hperm, horder⟩
  rw [hread, List.nil_append] at horder
  rw [← horder] at hperm
  exact absurd hperm.length_eq (by decide)

/-- The same two calls, the second before the first. -/
theorem interleaved_unbroken :
    ∃ order : List (List UInt8), order.Perm [[1], [2]] ∧
      logEntries (interleaved ∅ [[1], [2]] [1, 1, 0, 0]).shared = [] ++ order := by
  have h := interleaved_appends_iff ∅ [] [[1], [2]] [1, 1, 0, 0] (by decide) (by decide) rfl
    (by decide +kernel)
  exact h.1.mpr (h.2 [1, 0] rfl)

end Keepstone.Store
