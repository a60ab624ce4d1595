import Keepstone.Core.KnownAnswers
import Mathlib.Order.Bounds.Basic

/-!
# The difficulty target (`crates/core/src/pow.rs:15-68`)

`leading_zero_bits` goes through a digest byte by byte and stops at the first that is not zero.
Having at least `k` leading zero bits is to be below a power of two, as a big-endian number. `mine`
tries the nonces from zero upwards, and its counter wraps after the last of them.

Results:
* `le_leadingZeroBits_iff`: the bits of a byte string of any length against its number;
* `mineFrom_eq_some_iff`, `mine_eq_some_iff`: what the search finds, from any nonce on and from zero;
* **`pow_is_target`**: the difficulty test is a comparison with a target, and the search gives the
  least nonce that passes it.
-/

namespace Keepstone.Core

open Keepstone.Lib Keepstone.Crypto

/-! ## Bits and numbers -/

/-- The bits of a byte. -/
theorem le_leadingZeros_iff {byte : UInt8} (hne : byte ≠ 0) {k : Nat} :
    k ≤ leadingZeros byte ↔ k ≤ 8 ∧ byte.toNat < 2 ^ (8 - k) := by
  have hpos : byte.toNat ≠ 0 := fun h => hne (UInt8.toNat_inj.mp h)
  have hlog : byte.toNat.log2 < 8 := (Nat.log2_lt hpos).mpr byte.toNat_lt
  rw [leadingZeros, if_neg hne, ← Nat.log2_lt hpos]
  omega

/-- **The bits of a byte string against its number**: the induction is on the bytes, as the loop
goes. -/
theorem le_leadingZeroBits_iff {bytes : List UInt8} {k : Nat} (hk : k ≤ 8 * bytes.length) :
    k ≤ leadingZeroBits bytes ↔ beNat bytes < 2 ^ (8 * bytes.length - k) := by
  induction bytes generalizing k with
  | nil =>
    obtain rfl := Nat.le_zero.mp hk
    exact iff_of_true le_rfl (by decide)
  | cons byte rest ih =>
    have hrest := beNat_lt rest
    have hbits : 256 ^ rest.length = 2 ^ (8 * rest.length) := (pow_mul 2 8 rest.length).symm
    rw [List.length_cons] at hk
    rw [leadingZeroBits, beNat_cons, List.length_cons, hbits]
    rw [hbits] at hrest
    by_cases hzero : byte = 0
    · subst hzero
      rw [if_pos rfl, show (0 : UInt8).toNat = 0 from rfl, Nat.zero_mul, Nat.zero_add]
      by_cases hsmall : k ≤ 8
      · -- the rest has too few bits to matter
        refine iff_of_true (by omega) (hrest.trans_le (Nat.pow_le_pow_right (by decide) ?_))
        omega
      · have hrec := @ih (k - 8) (by omega)
        rw [show 8 * (rest.length + 1) - k = 8 * rest.length - (k - 8) by omega, ← hrec]
        omega
    · rw [if_neg hzero, le_leadingZeros_iff hzero]
      have hpos : 0 < byte.toNat := Nat.pos_of_ne_zero fun h => hzero (UInt8.toNat_inj.mp h)
      by_cases hsmall : k ≤ 8
      · rw [and_iff_right hsmall,
          show 8 * (rest.length + 1) - k = (8 - k) + 8 * rest.length by omega, pow_add]
        constructor
        · intro hlt
          have hle := Nat.mul_le_mul_right (2 ^ (8 * rest.length)) (Nat.succ_le_of_lt hlt)
          rw [Nat.succ_mul] at hle
          omega
        · intro hlt
          exact Nat.lt_of_mul_lt_mul_right ((Nat.le_add_right _ _).trans_lt hlt)
      · -- the first byte is not zero, so the number has more bits than that
        refine iff_of_false (fun h => hsmall h.1) (Nat.not_lt.mpr ?_)
        calc 2 ^ (8 * (rest.length + 1) - k)
            ≤ 2 ^ (8 * rest.length) := Nat.pow_le_pow_right (by decide) (by omega)
          _ ≤ byte.toNat * 2 ^ (8 * rest.length) := Nat.le_mul_of_pos_left _ hpos
          _ ≤ byte.toNat * 2 ^ (8 * rest.length) + beNat rest := Nat.le_add_right _ _

/-! ## Mining -/

section Mining

variable {prim : Primitives} {signer root : Bytes 32} {dropNonce : Bytes 16}

/-- **The search from a nonce on** finds the first that is a proof of work. -/
theorem mineFrom_eq_some_iff {turns : Nat} {start nonce : UInt64} :
    mineFrom prim signer root dropNonce turns start = some nonce ↔
      ∃ k < turns, nonce = start + UInt64.ofNat k ∧
        powIsValid prim signer root dropNonce nonce = true ∧
        ∀ j < k, powIsValid prim signer root dropNonce (start + UInt64.ofNat j) = false := by
  have hnext (start : UInt64) (k : Nat) :
      start + UInt64.ofNat (k + 1) = start + 1 + UInt64.ofNat k := by
    rw [Nat.add_comm k 1, UInt64.ofNat_add, ← UInt64.add_assoc]
    rfl
  have hstart (start : UInt64) : start + UInt64.ofNat 0 = start := UInt64.add_zero start
  induction turns generalizing start with
  | zero =>
    refine iff_of_false nofun ?_
    rintro ⟨k, hk, -⟩
    exact Nat.not_lt_zero k hk
  | succ turns ih =>
    rw [mineFrom]
    by_cases hvalid : powIsValid prim signer root dropNonce start = true
    · rw [if_pos hvalid]
      constructor
      · rintro ⟨⟩
        exact ⟨0, Nat.succ_pos _, (hstart _).symm, hvalid, fun _ hj => absurd hj (Nat.not_lt_zero _)⟩
      · rintro ⟨k, -, rfl, -, hbefore⟩
        cases k with
        | zero => rw [hstart]
        | succ k =>
          have hfirst := hbefore 0 (Nat.succ_pos k)
          rw [hstart, hvalid] at hfirst
          exact absurd hfirst nofun
    · rw [if_neg hvalid]
      refine ih.trans ?_
      constructor
      · rintro ⟨k, hk, rfl, hfound, hbefore⟩
        refine ⟨k + 1, by omega, (hnext start k).symm, hfound, fun j hj => ?_⟩
        cases j with
        | zero =>
          rw [hstart]
          exact Bool.eq_false_iff.mpr hvalid
        | succ j =>
          rw [hnext]
          exact hbefore j (by omega)
      · rintro ⟨k, hk, hnonce, hfound, hbefore⟩
        cases k with
        | zero =>
          rw [hstart] at hnonce
          exact absurd (hnonce ▸ hfound) hvalid
        | succ k =>
          refine ⟨k, by omega, hnonce.trans (hnext start k), hfound, fun j hj => ?_⟩
          rw [← hnext]
          exact hbefore (j + 1) (by omega)

/-- **Mining gives the least proof of work**, and ends when there is one. -/
theorem mine_eq_some_iff {nonce : UInt64} :
    mine prim signer root dropNonce = some nonce ↔
      IsLeast {n | powIsValid prim signer root dropNonce n = true} nonce := by
  rw [mine, mineFrom_eq_some_iff]
  simp only [UInt64.zero_add]
  constructor
  · rintro ⟨k, hk, rfl, hfound, hbefore⟩
    refine ⟨hfound, fun other hother => ?_⟩
    rw [UInt64.le_iff_toNat_le, UInt64.toNat_ofNat_of_lt' hk]
    refine Nat.not_lt.mp fun hlt => ?_
    have hnot := hbefore other.toNat hlt
    rw [UInt64.ofNat_toNat, hother] at hnot
    exact absurd hnot nofun
  · rintro ⟨hfound, hleast⟩
    refine ⟨nonce.toNat, nonce.toNat_lt, UInt64.ofNat_toNat.symm, hfound, fun j hj => ?_⟩
    refine Bool.eq_false_iff.mpr fun hvalid => ?_
    have hle := UInt64.le_iff_toNat_le.mp (hleast hvalid)
    rw [UInt64.toNat_ofNat_of_lt' (hj.trans nonce.toNat_lt)] at hle
    omega

/-- What is mined is a proof of work. -/
theorem mine_valid {nonce : UInt64} (h : mine prim signer root dropNonce = some nonce) :
    powIsValid prim signer root dropNonce nonce = true :=
  (mine_eq_some_iff.mp h).1

/-- **Mining ends** when there is a proof of work to be found. -/
theorem exists_mine {nonce : UInt64}
    (hvalid : powIsValid prim signer root dropNonce nonce = true) :
    ∃ mined, mine prim signer root dropNonce = some mined := by
  induction hn : nonce.toNat using Nat.strongRecOn generalizing nonce with
  | ind n ih =>
  subst hn
  by_cases hleast : ∃ other, powIsValid prim signer root dropNonce other = true ∧ other < nonce
  · obtain ⟨other, hother, hlt⟩ := hleast
    exact ih other.toNat (UInt64.lt_iff_toNat_lt.mp hlt) hother rfl
  · refine ⟨nonce, mine_eq_some_iff.mpr ⟨hvalid, fun other hother => ?_⟩⟩
    exact UInt64.not_lt.mp fun hlt => hleast ⟨other, hother, hlt⟩

end Mining

/-- **The difficulty test is the numeric target**: a digest has at least `k` leading zero bits when
it is below `2 ^ (256 - k)`; so a nonce is accepted when its digest is below `2 ^ 244`. Mining gives
the least nonce that is accepted, and it gives one if there is one. -/
theorem pow_is_target (prim : Primitives) :
    (∀ (d : Bytes 32) (k : Nat), k ≤ 256 →
      (leadingZeroBits d.toList ≥ k ↔ beNat d.toList < 2 ^ (256 - k))) ∧
    ∀ (signer root : Bytes 32) (dropNonce : Bytes 16) (nonce : UInt64),
      (powIsValid prim signer root dropNonce nonce = true ↔
        beNat (powDigest prim signer root dropNonce nonce).toList < 2 ^ 244) ∧
      (mine prim signer root dropNonce = some nonce ↔
        IsLeast {n | powIsValid prim signer root dropNonce n = true} nonce) := by
  have htarget (d : Bytes 32) (k : Nat) (hk : k ≤ 256) :
      leadingZeroBits d.toList ≥ k ↔ beNat d.toList < 2 ^ (256 - k) := by
    have hbits := @le_leadingZeroBits_iff d.toList k (by rw [d.toList_length]; exact hk)
    rwa [d.toList_length] at hbits
  refine ⟨htarget, fun signer root dropNonce nonce => ⟨?_, mine_eq_some_iff⟩⟩
  rw [powIsValid, decide_eq_true_iff]
  exact htarget _ powDifficultyBits (by decide)

/-- The digest of `leading_zero_bits_are_counted` with twelve bits, and a drop nonce for which the
first nonce will do. -/
theorem known_target_met :
    let digest : Bytes 32 := ⟨0x00 :: 0x0F :: List.replicate 30 0, rfl⟩
    let dropNonce : Bytes 16 := ⟨List.replicate 14 3 ++ [0x08, 0x6C], rfl⟩
    leadingZeroBits digest.toList ≥ 12 ∧ beNat digest.toList < 2 ^ 244 ∧
      mine KnownAnswers.primitives (List.Vector.replicate 32 1) (List.Vector.replicate 32 2)
        dropNonce = some 0 := by
  intro digest dropNonce
  obtain ⟨htarget, hwork⟩ := pow_is_target KnownAnswers.primitives
  have hbits := htarget digest 12 (by decide)
  have hmined := (hwork (List.Vector.replicate 32 1) (List.Vector.replicate 32 2) dropNonce 0).2
  refine ⟨by decide, hbits.mp (by decide), hmined.mpr ⟨?_, fun other _ => UInt64.zero_le⟩⟩
  change powIsValid _ _ _ _ _ = true
  decide +kernel

end Keepstone.Core
