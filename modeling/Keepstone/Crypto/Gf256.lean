import Mathlib.Algebra.CharP.Lemmas
import Mathlib.Algebra.CharP.Two
import Mathlib.Algebra.Field.Defs
import Mathlib.Data.FinEnum
import Mathlib.Data.UInt
import Mathlib.Tactic.LinearCombination

/-!
# The byte arithmetic of `crates/crypto/src/shamir.rs` is a field

`gfMul`, `gfPow` and `gfInv` are the loops of the source, on bytes. `Gf256` is a byte with that
arithmetic: addition is exclusive or, multiplication is `gfMul`, inversion is `gfInv`.

That it is a field is not checked over all triples of bytes. The loop adds up `xtime`-multiples
of `a` selected by the bits of `b`, so it is additive in both arguments (`gfMul_xor_left`,
`gfMul_xor_right`), and a law between additive expressions holds once it holds on the eight
powers of two (`xor_induction`). For the inverse, `a ↦ a^256` is additive as well (squaring is),
hence the identity; so `a^255` is idempotent, and the only idempotents are 0 and 1.

Results: `instance : Field Gf256`, with `gfInv` as its inverse.
-/

namespace Keepstone.Crypto

/-! ## The loops -/

/-- `n` turns of the loop of `gf_mul`. -/
def gfMulLoop : Nat → UInt8 → UInt8 → UInt8 → UInt8
  | 0, _, _, product => product
  | n + 1, a, b, product =>
    let product := if b &&& 1 ≠ 0 then product ^^^ a else product
    let high := a &&& 0x80
    let a := a <<< 1
    let a := if high ≠ 0 then a ^^^ 0x1B else a
    gfMulLoop n a (b >>> 1) product

/-- `gf_mul`. -/
def gfMul (a b : UInt8) : UInt8 := gfMulLoop 8 a b 0

/-- The loop of `gf_pow`. -/
def gfPowLoop (base : UInt8) (exp : Nat) (result : UInt8) : UInt8 :=
  if 0 < exp then
    let result := if exp &&& 1 = 1 then gfMul result base else result
    gfPowLoop (gfMul base base) (exp >>> 1) result
  else result
termination_by exp
decreasing_by
  rw [Nat.shiftRight_one]
  omega

/-- `gf_pow`. -/
def gfPow (base : UInt8) (exp : Nat) : UInt8 := gfPowLoop base exp 1

/-- `gf_inv`. -/
def gfInv (a : UInt8) : UInt8 := gfPow a 254

/-! ## Multiplication is additive in both arguments -/

/-- What one turn of the loop does to `a`: multiply by `x` and reduce. -/
def xtime (a : UInt8) : UInt8 := if a &&& 0x80 ≠ 0 then (a <<< 1) ^^^ 0x1B else a <<< 1

theorem gfMulLoop_succ (n : Nat) (a b product : UInt8) :
    gfMulLoop (n + 1) a b product =
      gfMulLoop n (xtime a) (b >>> 1) (if b &&& 1 ≠ 0 then product ^^^ a else product) := rfl

theorem and_xor_distrib (a b mask : UInt8) :
    (a ^^^ b) &&& mask = (a &&& mask) ^^^ (b &&& mask) := by
  apply UInt8.eq_of_toBitVec_eq
  simp only [UInt8.toBitVec_and, UInt8.toBitVec_xor]
  ext i
  simp only [BitVec.getElem_and, BitVec.getElem_xor, Bool.and_xor_distrib_right]

/-- A mask of one bit selects nothing or that bit. -/
theorem and_bit (a : UInt8) :
    (a &&& 1 = 0 ∨ a &&& 1 = 1) ∧ (a &&& 0x80 = 0 ∨ a &&& 0x80 = 0x80) := by
  revert a
  decide +kernel

theorem shiftLeft_one_xor (a b : UInt8) : (a ^^^ b) <<< 1 = (a <<< 1) ^^^ (b <<< 1) := by
  apply UInt8.eq_of_toBitVec_eq
  simp only [UInt8.toBitVec_shiftLeft, UInt8.toBitVec_xor]
  exact BitVec.shiftLeft_xor_distrib _ _ _

theorem shiftRight_one_xor (a b : UInt8) : (a ^^^ b) >>> 1 = (a >>> 1) ^^^ (b >>> 1) := by
  apply UInt8.eq_of_toBitVec_eq
  simp only [UInt8.toBitVec_shiftRight, UInt8.toBitVec_xor]
  exact BitVec.ushiftRight_xor_distrib _ _ _

theorem xor_right_comm (a b c : UInt8) : a ^^^ b ^^^ c = a ^^^ c ^^^ b := by ac_rfl

theorem xor_xor_xor_comm (a b c d : UInt8) : a ^^^ b ^^^ (c ^^^ d) = a ^^^ c ^^^ (b ^^^ d) := by
  ac_rfl

theorem xtime_xor (a b : UInt8) : xtime (a ^^^ b) = xtime a ^^^ xtime b := by
  unfold xtime
  rw [and_xor_distrib, shiftLeft_one_xor]
  rcases (and_bit a).2 with ha | ha <;> rcases (and_bit b).2 with hb | hb <;> rw [ha, hb]
  · rfl
  · exact UInt8.xor_assoc ..
  · exact xor_right_comm ..
  · rw [if_neg (by decide), if_pos (by decide), if_pos (by decide), xor_xor_xor_comm (a <<< 1),
      UInt8.xor_self, UInt8.xor_zero]

theorem gfMulLoop_xor_left : ∀ (n : Nat) (a a' b p p' : UInt8),
    gfMulLoop n (a ^^^ a') b (p ^^^ p') = gfMulLoop n a b p ^^^ gfMulLoop n a' b p'
  | 0, _, _, _, _, _ => rfl
  | n + 1, a, a', b, p, p' => by
    rw [gfMulLoop_succ, gfMulLoop_succ, gfMulLoop_succ, xtime_xor, ← gfMulLoop_xor_left n]
    congr 1
    split
    · exact xor_xor_xor_comm ..
    · rfl

theorem gfMulLoop_xor_right : ∀ (n : Nat) (a b b' p p' : UInt8),
    gfMulLoop n a (b ^^^ b') (p ^^^ p') = gfMulLoop n a b p ^^^ gfMulLoop n a b' p'
  | 0, _, _, _, _, _ => rfl
  | n + 1, a, b, b', p, p' => by
    rw [gfMulLoop_succ, gfMulLoop_succ, gfMulLoop_succ, shiftRight_one_xor,
      ← gfMulLoop_xor_right n, and_xor_distrib]
    congr 1
    rcases (and_bit b).1 with hb | hb <;> rcases (and_bit b').1 with hb' | hb' <;> rw [hb, hb']
    · rfl
    · exact UInt8.xor_assoc ..
    · exact xor_right_comm ..
    · -- `a` is added twice on the right and not at all on the left
      rw [if_neg (by decide), if_pos (by decide), if_pos (by decide), xor_xor_xor_comm p,
        UInt8.xor_self, UInt8.xor_zero]

theorem gfMul_xor_left (a a' b : UInt8) : gfMul (a ^^^ a') b = gfMul a b ^^^ gfMul a' b :=
  gfMulLoop_xor_left 8 a a' b 0 0

theorem gfMul_xor_right (a b b' : UInt8) : gfMul a (b ^^^ b') = gfMul a b ^^^ gfMul a b' :=
  gfMulLoop_xor_right 8 a b b' 0 0

theorem gfMulLoop_xtime_left : ∀ (n : Nat) (a b p : UInt8),
    gfMulLoop n (xtime a) b (xtime p) = xtime (gfMulLoop n a b p)
  | 0, _, _, _ => rfl
  | n + 1, a, b, p => by
    rw [gfMulLoop_succ, gfMulLoop_succ, ← gfMulLoop_xtime_left n]
    congr 1
    split
    · exact (xtime_xor p a).symm
    · rfl

theorem gfMul_xtime_left (a b : UInt8) : gfMul (xtime a) b = xtime (gfMul a b) :=
  gfMulLoop_xtime_left 8 a b 0

/-! ## The ring laws

Every byte is generated from 1 by `xtime` and `^^^`, and `gfMul` commutes with both in its first
argument. The laws follow by induction on that generation. -/

/-- The powers of two: every byte is a sum of some of them. -/
def bits : List UInt8 := [1, 2, 4, 8, 16, 32, 64, 128]

theorem foldl_bits (a : UInt8) :
    (bits.map fun i => if a &&& i = 0 then 0 else i).foldl (· ^^^ ·) 0 = a := by
  revert a
  decide +kernel

theorem foldl_xor_mem {p : UInt8 → Prop} (hxor : ∀ {a b}, p a → p b → p (a ^^^ b))
    {l : List UInt8} {acc : UInt8} (hacc : p acc) (hl : ∀ a ∈ l, p a) :
    p (l.foldl (· ^^^ ·) acc) := by
  induction l generalizing acc with
  | nil => exact hacc
  | cons a l ih =>
    exact ih (hxor hacc (hl a List.mem_cons_self)) fun b hb => hl b (List.mem_cons_of_mem _ hb)

/-- A property of bytes that `^^^` keeps holds everywhere once it holds of the powers of two. -/
@[elab_as_elim]
theorem xor_induction {p : UInt8 → Prop} (a : UInt8) (xor : ∀ a b, p a → p b → p (a ^^^ b))
    (bit : ∀ i ∈ bits, p i) : p a := by
  have hone := bit 1 List.mem_cons_self
  have hzero : p 0 := xor 1 1 hone hone
  rw [← foldl_bits a]
  refine foldl_xor_mem (xor _ _) hzero fun b hb => ?_
  obtain ⟨i, hi, rfl⟩ := List.mem_map.mp hb
  split
  · exact hzero
  · exact bit i hi

/-- A property that `^^^` and `xtime` keep holds everywhere once it holds of 1. -/
@[elab_as_elim]
theorem xtime_induction {p : UInt8 → Prop} (a : UInt8) (one : p 1)
    (xor : ∀ a b, p a → p b → p (a ^^^ b)) (xtime : ∀ a, p a → p (xtime a)) : p a := by
  have h2 : p 2 := xtime 1 one
  have h4 : p 4 := xtime 2 h2
  have h8 : p 8 := xtime 4 h4
  have h16 : p 16 := xtime 8 h8
  have h32 : p 32 := xtime 16 h16
  have h64 : p 64 := xtime 32 h32
  have h128 : p 128 := xtime 64 h64
  refine xor_induction a xor ?_
  simp only [bits, List.forall_mem_cons, List.not_mem_nil, false_imp_iff, implies_true, and_true]
  exact ⟨one, h2, h4, h8, h16, h32, h64, h128⟩

theorem gfMul_zero (a : UInt8) : gfMul a 0 = 0 := by
  have h := gfMul_xor_right a 0 0
  rwa [UInt8.xor_self, UInt8.xor_self] at h

theorem zero_gfMul (a : UInt8) : gfMul 0 a = 0 := by
  have h := gfMul_xor_left 0 0 a
  rwa [UInt8.xor_self, UInt8.xor_self] at h

theorem one_gfMul (b : UInt8) : gfMul 1 b = b := by
  induction b using xor_induction with
  | xor b b' hb hb' => rw [gfMul_xor_right, hb, hb']
  | bit i hi =>
    revert i
    decide +kernel

theorem gfMul_one (a : UInt8) : gfMul a 1 = a := by
  induction a using xtime_induction with
  | one => exact one_gfMul 1
  | xor a a' ha ha' => rw [gfMul_xor_left, ha, ha']
  | xtime a ha => rw [gfMul_xtime_left, ha]

theorem gfMul_xtime_right (a b : UInt8) : gfMul a (xtime b) = xtime (gfMul a b) := by
  induction a using xtime_induction with
  | one => rw [one_gfMul, one_gfMul]
  | xor a a' ha ha' => rw [gfMul_xor_left, gfMul_xor_left, ha, ha', xtime_xor]
  | xtime a ha => rw [gfMul_xtime_left, gfMul_xtime_left, ha]

theorem gfMul_comm (a b : UInt8) : gfMul a b = gfMul b a := by
  induction a using xtime_induction with
  | one => rw [one_gfMul, gfMul_one]
  | xor a a' ha ha' => rw [gfMul_xor_left, gfMul_xor_right, ha, ha']
  | xtime a ha => rw [gfMul_xtime_left, gfMul_xtime_right, ha]

theorem gfMul_assoc (a b c : UInt8) : gfMul (gfMul a b) c = gfMul a (gfMul b c) := by
  induction a using xtime_induction with
  | one => rw [one_gfMul, one_gfMul]
  | xor a a' ha ha' => rw [gfMul_xor_left, gfMul_xor_left, gfMul_xor_left, ha, ha']
  | xtime a ha => rw [gfMul_xtime_left, gfMul_xtime_left, gfMul_xtime_left, ha]

/-! ## The ring -/

/-- A byte with the arithmetic of `shamir.rs`. -/
@[ext]
structure Gf256 where
  /-- The byte. -/
  byte : UInt8
  deriving DecidableEq, Repr

namespace Gf256

instance : Zero Gf256 := ⟨⟨0⟩⟩
instance : One Gf256 := ⟨⟨1⟩⟩
instance : Add Gf256 := ⟨fun a b => ⟨a.byte ^^^ b.byte⟩⟩
instance : Neg Gf256 := ⟨fun a => a⟩
instance : Mul Gf256 := ⟨fun a b => ⟨gfMul a.byte b.byte⟩⟩

@[simp] theorem byte_zero : (0 : Gf256).byte = 0 := rfl
@[simp] theorem byte_one : (1 : Gf256).byte = 1 := rfl
@[simp] theorem byte_add (a b : Gf256) : (a + b).byte = a.byte ^^^ b.byte := rfl
@[simp] theorem byte_neg (a : Gf256) : (-a).byte = a.byte := rfl
@[simp] theorem byte_mul (a b : Gf256) : (a * b).byte = gfMul a.byte b.byte := rfl

instance : CommRing Gf256 where
  add_assoc a b c := Gf256.ext (UInt8.xor_assoc ..)
  zero_add a := Gf256.ext UInt8.zero_xor
  add_zero a := Gf256.ext UInt8.xor_zero
  add_comm a b := Gf256.ext (UInt8.xor_comm ..)
  neg_add_cancel a := Gf256.ext UInt8.xor_self
  left_distrib a b c := Gf256.ext (gfMul_xor_right ..)
  right_distrib a b c := Gf256.ext (gfMul_xor_left ..)
  zero_mul a := Gf256.ext (zero_gfMul a.byte)
  mul_zero a := Gf256.ext (gfMul_zero a.byte)
  mul_assoc a b c := Gf256.ext (gfMul_assoc ..)
  one_mul a := Gf256.ext (one_gfMul a.byte)
  mul_one a := Gf256.ext (gfMul_one a.byte)
  mul_comm a b := Gf256.ext (gfMul_comm ..)
  nsmul := nsmulRec
  zsmul := zsmulRec

instance : Nontrivial Gf256 := ⟨⟨0, 1, fun h => absurd (congrArg Gf256.byte h) (by decide)⟩⟩

theorem add_self (a : Gf256) : a + a = 0 := Gf256.ext UInt8.xor_self

instance : CharP Gf256 2 :=
  CharTwo.of_one_ne_zero_of_two_eq_zero one_ne_zero
    ((one_add_one_eq_two (R := Gf256)).symm.trans (add_self 1))

/-! ## The field -/

theorem gfPowLoop_eq (base result : Gf256) (exp : Nat) :
    gfPowLoop base.byte exp result.byte = (result * base ^ exp).byte := by
  -- the invariant of square-and-multiply: `result * base ^ exp` never changes
  induction exp using Nat.strongRecOn generalizing base result with
  | ind exp ih =>
  rw [gfPowLoop]
  by_cases hpos : 0 < exp
  · have hsq : gfMul base.byte base.byte = (base * base).byte := rfl
    have hlt : exp >>> 1 < exp := by
      rw [Nat.shiftRight_one]
      omega
    rw [if_pos hpos, Nat.and_one_is_mod, hsq]
    by_cases hodd : exp % 2 = 1
    · have hmul : gfMul result.byte base.byte = (result * base).byte := rfl
      have hexp : exp = 2 * (exp >>> 1) + 1 := by
        rw [Nat.shiftRight_one]
        omega
      rw [if_pos hodd, hmul, ih _ hlt]
      conv_rhs => rw [hexp, pow_succ, pow_mul, pow_two]
      rw [mul_assoc, mul_comm base]
    · have hexp : exp = 2 * (exp >>> 1) := by
        rw [Nat.shiftRight_one]
        omega
      rw [if_neg hodd, ih _ hlt]
      conv_rhs => rw [hexp, pow_mul, pow_two]
  · obtain rfl : exp = 0 := by omega
    rw [if_neg hpos, pow_zero, mul_one]

theorem gfPow_eq (base : Gf256) (exp : Nat) : gfPow base.byte exp = (base ^ exp).byte := by
  have h := gfPowLoop_eq base 1 exp
  rwa [one_mul] at h

theorem add_pow_256 (a b : Gf256) : (a + b) ^ 256 = a ^ 256 + b ^ 256 :=
  add_pow_char_pow (p := 2) (n := 8) a b

theorem pow_256_of_sq {x : Gf256} (h : gfPow x.byte 256 = x.byte) : x ^ 256 = x :=
  Gf256.ext ((gfPow_eq x 256).symm.trans h)

theorem pow_256 (a : Gf256) : a ^ 256 = a := by
  obtain ⟨a⟩ := a
  induction a using xor_induction with
  | xor a b ha hb =>
    have h := add_pow_256 ⟨a⟩ ⟨b⟩
    rwa [ha, hb] at h
  | bit i hi =>
    refine pow_256_of_sq ?_
    revert i
    decide +kernel

theorem idempotent_byte : ∀ e : UInt8, gfMul e e = e → e = 0 ∨ e = 1 := by
  decide +kernel

theorem idempotent {e : Gf256} (h : e * e = e) : e = 0 ∨ e = 1 := by
  rcases idempotent_byte e.byte (congrArg Gf256.byte h) with h | h
  · exact Or.inl (Gf256.ext h)
  · exact Or.inr (Gf256.ext h)

/-- **Every non-zero byte has order dividing 255**: `a^255` is idempotent because `a^256 = a`,
and it is not 0. -/
theorem pow_255 {a : Gf256} (ha : a ≠ 0) : a ^ 255 = 1 := by
  have hsucc : a ^ 255 * a = a := by
    rw [← pow_succ]
    exact pow_256 a
  have hidem : a ^ 255 * a ^ 255 = a ^ 255 := by
    calc a ^ 255 * a ^ 255 = a ^ 255 * a * a ^ 254 := by ring
      _ = a ^ 255 := by rw [hsucc, ← pow_succ']
  rcases idempotent hidem with h | h
  · rw [h, zero_mul] at hsucc
    exact absurd hsucc.symm ha
  · exact h

instance : Inv Gf256 := ⟨fun a => ⟨gfInv a.byte⟩⟩

@[simp] theorem byte_inv (a : Gf256) : (a⁻¹).byte = gfInv a.byte := rfl

theorem inv_eq_pow (a : Gf256) : a⁻¹ = a ^ 254 := Gf256.ext (gfPow_eq a 254)

instance : Field Gf256 where
  exists_pair_ne := exists_pair_ne Gf256
  mul_inv_cancel a ha := by rw [inv_eq_pow, ← pow_succ', pow_255 ha]
  inv_zero := by rw [inv_eq_pow, zero_pow (by decide)]
  nnqsmul := _
  qsmul := _

/-- Bytes and field elements are the same values. -/
def equivByte : UInt8 ≃ Gf256 := ⟨Gf256.mk, Gf256.byte, fun _ => rfl, fun _ => rfl⟩

instance : Fintype Gf256 := Fintype.ofEquiv UInt8 equivByte

theorem card_eq : Fintype.card Gf256 = 256 := by
  rw [← Fintype.card_congr equivByte, ← FinEnum.card_eq_fintypeCard, FinEnum.card_UInt8]
  rfl

end Gf256

end Keepstone.Crypto
