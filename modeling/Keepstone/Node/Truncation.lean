import Keepstone.Node.Protocol

/-!
# Streams that are cut (`crates/node/src/net.rs:34-63`)

`recv` reads the length of a frame and then its body. An end of the stream in the body is an error;
one in the length is returned as `None`, which is also what a stream that ends after a frame gives.
So a stream that is cut one, two or three bytes into a length is taken for one that was closed.

Results:
* `recv_piece`: what the first part of a frame is received as;
* `recvTimes_cut`: the frames before the cut, and then what is left;
* **`cut_seen_iff`**: which cuts are told from a clean close.
-/

namespace Keepstone.Node

open Keepstone.Lib

/-- How many frames lie wholly before a cut, and how many bytes there are after the last of them. -/
def framesBefore : List (List UInt8) → Nat → Nat × Nat
  | [], cut => (0, cut)
  | framed :: rest, cut =>
    if framed.length ≤ cut then
      ((framesBefore rest (cut - framed.length)).1 + 1, (framesBefore rest (cut - framed.length)).2)
    else (0, cut)

/-- Calls of `recv` on the stream up to the cut give the messages whose frames lie before it, and
then the clean end or an error, as the cut falls on the end of a frame or not. -/
def CutSeen (ms : List Message) (framed : List (List UInt8)) (cut : Nat) : Prop :=
  let (whole, part) := framesBefore framed cut
  ∃ last, recvTimes (whole + 1) (framed.flatten.take cut) =
      (ms.take whole).map (fun m => .ok (some m)) ++ [last] ∧
    if part = 0 then last = .ok none else ∃ e, last = .error e

/-- A frame is cut after its length, or in it. -/
theorem recv_piece {m : Message} (hle : m.encode.length ≤ maxFrame) {part : Nat}
    (hpart : part < 4 + m.encode.length) :
    (recv ((beBytes 4 m.encode.length ++ m.encode).take part)).1 =
      if part < 4 then .ok none else .error .system := by
  have hlen : (beBytes 4 m.encode.length).length = 4 := length_beBytes ..
  by_cases hshort : part < 4
  · rw [if_pos hshort, recv, if_pos]
    rw [List.length_take]
    omega
  · have hnat : beNat (beBytes 4 m.encode.length) = m.encode.length :=
      beNat_beBytes (hle.trans_lt (by decide))
    rw [if_neg hshort, List.take_append, hlen, List.take_of_length_le (by omega),
      recv_header hlen, hnat, if_neg (Nat.not_lt.mpr hle), if_pos]
    rw [List.length_take]
    omega

/-- **The frames before the cut are received**, and then what is left of the next. -/
theorem recvTimes_cut {ms : List Message} {framed : List (List UInt8)}
    (hframed : ms.mapM frame = .ok framed) {cut : Nat} (hcut : cut ≤ framed.flatten.length) :
    ∃ last, recvTimes ((framesBefore framed cut).1 + 1) (framed.flatten.take cut) =
        (ms.take (framesBefore framed cut).1).map (fun m => .ok (some m)) ++ [last] ∧
      last = if (framesBefore framed cut).2 < 4 then .ok none else .error .system := by
  rw [mapM_ok_iff] at hframed
  induction hframed generalizing cut with
  | nil =>
    obtain rfl : cut = 0 := Nat.le_zero.mp hcut
    exact ⟨_, rfl, rfl⟩
  | @cons m bytes ms framed hm hms ih =>
    have hle : m.encode.length ≤ maxFrame := by
      refine Nat.not_lt.mp fun hlarge => ?_
      obtain ⟨e, he⟩ := frame_error_iff.mpr hlarge
      exact absurd (hm.symm.trans he) nofun
    obtain rfl := Except.ok.inj ((frame_of_le hle).symm.trans hm)
    have hlen : (beBytes 4 m.encode.length ++ m.encode).length = 4 + m.encode.length := by
      rw [List.length_append, length_beBytes]
    rw [List.flatten_cons, framesBefore]
    by_cases hwhole : (beBytes 4 m.encode.length ++ m.encode).length ≤ cut
    · -- the frame is whole, and the cut is in the rest of the stream
      rw [if_pos hwhole]
      obtain ⟨last, hlast, heq⟩ := @ih (cut - (beBytes 4 m.encode.length ++ m.encode).length)
        (by rw [List.flatten_cons, List.length_append] at hcut; omega)
      refine ⟨last, ?_, heq⟩
      rw [List.take_append, List.take_of_length_le hwhole, recvTimes, recv_frame hle, hlast]
      rfl
    · rw [if_neg hwhole, List.take_append_of_le_length (Nat.le_of_not_le hwhole)]
      exact ⟨_, rfl, recv_piece hle (by omega)⟩

/-- **Which cuts are told from a clean close**: all but those one, two or three bytes after the end
of a frame. -/
theorem cut_seen_iff {ms : List Message} {framed : List (List UInt8)}
    (hframed : ms.mapM frame = .ok framed) {cut : Nat} (hcut : cut ≤ framed.flatten.length) :
    CutSeen ms framed cut ↔ (framesBefore framed cut).2 ∉ [1, 2, 3] := by
  obtain ⟨last, hresults, hlast⟩ := recvTimes_cut hframed hcut
  have hseen : CutSeen ms framed cut ↔
      if (framesBefore framed cut).2 = 0 then last = .ok none else ∃ e, last = .error e := by
    unfold CutSeen
    constructor
    · rintro ⟨other, hother, hend⟩
      rw [hresults, List.append_cancel_left_eq] at hother
      rwa [List.singleton_inj.mp hother]
    · exact fun hend => ⟨last, hresults, hend⟩
  rw [hseen]
  subst hlast
  generalize (framesBefore framed cut).2 = part
  simp only [List.mem_cons, List.not_mem_nil, or_false]
  split_ifs with hzero hshort hshort
  · simp [hzero]
  · omega
  · refine iff_of_false (fun h => ?_) (by omega)
    obtain ⟨e, he⟩ := h
    exact absurd he nofun
  · exact iff_of_true ⟨_, rfl⟩ (by omega)

/-- The stream of a goodbye. -/
def knownStream : List (List UInt8) := [beBytes 4 Message.bye.encode.length ++ Message.bye.encode]

theorem frame_bye : [Message.bye].mapM frame = .ok knownStream :=
  mapM_frame_of_le (List.forall_mem_singleton.mpr (by decide))

/-- It is cut after its length: the cut is seen. -/
theorem known_cut_seen :
    [Message.bye].mapM frame = .ok knownStream ∧ CutSeen [.bye] knownStream 4 :=
  ⟨frame_bye, (cut_seen_iff frame_bye (by decide)).mpr (by decide)⟩

/-- It is cut in its length: there is no error. -/
theorem known_cut_unseen :
    [Message.bye].mapM frame = .ok knownStream ∧
      (recv (knownStream.flatten.take 2)).1 = .ok none ∧ ¬ CutSeen [.bye] knownStream 2 := by
  have hbefore : framesBefore knownStream 2 = (0, 2) := by decide
  have hreceived : (recv (knownStream.flatten.take 2)).1 = .ok none := rfl
  refine ⟨frame_bye, hreceived, fun hseen => ?_⟩
  unfold CutSeen at hseen
  rw [hbefore] at hseen
  obtain ⟨last, hlast, e, he⟩ := hseen
  have hsame : last = .ok none := (List.singleton_inj.mp hlast).symm.trans hreceived
  exact absurd (hsame.symm.trans he) nofun

end Keepstone.Node
