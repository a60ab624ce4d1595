import Keepstone.Crypto.Gf256
import Keepstone.Crypto.Keys
import Keepstone.Lib.Interpolation
import Mathlib.Data.List.GetD

/-!
# Shamir secret sharing (`crates/crypto/src/shamir.rs`)

`split` and `combine` with the loops of the source. The bytes `OsRng` writes are an argument:
`fill i` is what `rng.fill_bytes(&mut coeffs[1..])` draws for secret byte `i`, so a statement for
every `fill` is one for every outcome of the generator.

Results:
* **`combine_split`**: any `threshold` different shares give back the secret;
* `forall_combine_iff`: at which points, some of them repeated, the shares still do;
* **`card_coeffs_of_shares`**: fewer shares are compatible with every secret byte, through the
  same number of coefficient vectors.
-/

namespace Keepstone.Crypto

open Keepstone.Lib

/-- `Share`. -/
structure Share where
  /-- Evaluation point. -/
  x : UInt8
  /-- Share bytes, one per secret byte. -/
  y : List UInt8
  deriving Repr, DecidableEq

/-- `eval_poly`: Horner's method. -/
def evalPoly (coeffs : List UInt8) (x : UInt8) : UInt8 :=
  coeffs.reverse.foldl (fun acc coeff => gfMul acc x ^^^ coeff) 0

/-- `split`. -/
def split (secret : List UInt8) (threshold shares : UInt8)
    (fill : Nat → Bytes (threshold.toNat - 1)) : Except CryptoError (List Share) :=
  if secret.isEmpty || threshold < 2 || shares < threshold then .error .invalidKeyLength
  else
    let out := (List.range' 1 shares.toNat).map fun x =>
      (⟨UInt8.ofNat x, List.replicate secret.length 0⟩ : Share)
    .ok (secret.zipIdx.foldl (fun out (secretByte, byteIndex) =>
      let coeffs := secretByte :: (fill byteIndex).toList
      out.map fun share => { share with y := share.y.set byteIndex (evalPoly coeffs share.x) })
      out)

/-- The Lagrange coefficient `combine` computes for the share at position `i`. -/
def lagrangeCoefficient (shares : List Share) (i : Nat) (shareI : Share) : UInt8 :=
  shares.zipIdx.foldl (fun coefficient (shareJ, j) =>
    if i = j then coefficient
    else
      let numerator := shareJ.x
      let denominator := shareJ.x ^^^ shareI.x
      gfMul coefficient (gfMul numerator (gfInv denominator))) 1

/-- `combine`. -/
def combine (shares : List Share) : Except CryptoError (List UInt8) :=
  match shares with
  | [] | [_] => .error .invalidKeyLength
  | first :: _ :: _ =>
    let len := first.y.length
    if len = 0 || shares.any (fun s => s.y.length ≠ len || s.x = 0) then .error .invalidKeyLength
    else
      .ok (shares.zipIdx.foldl (fun secret (shareI, i) =>
        let coefficient := lagrangeCoefficient shares i shareI
        shareI.y.zipIdx.foldl (fun secret (value, byteIndex) =>
          secret.modify byteIndex (· ^^^ gfMul value coefficient)) secret)
        (List.replicate len 0))

/-! ## The loops -/

section Loops

variable {α β γ : Type*}

/-- A loop that updates position `i` of a list from the `i`-th element of another. -/
theorem foldl_modify_zipIdx (g : α → Nat → β → β) : ∀ (l : List α) (done todo : List β),
    todo.length = l.length →
    (l.zipIdx done.length).foldl (fun ys e => ys.modify e.2 (g e.1 e.2)) (done ++ todo) =
      done ++ List.zipWith (fun e y => g e.1 e.2 y) (l.zipIdx done.length) todo
  | [], done, [], _ => by simp
  | a :: l, done, y :: todo, hlen => by
    have hmod : (done ++ y :: todo).modify done.length (g a done.length) =
        (done ++ [g a done.length y]) ++ todo := by
      rw [List.modify_eq_take_cons_drop (by simp)]
      simp
    have ih := foldl_modify_zipIdx g l (done ++ [g a done.length y]) todo (by simpa using hlen)
    rw [List.length_append, List.length_singleton] at ih
    rw [List.zipIdx_cons, List.foldl_cons, hmod, ih, List.zipWith_cons_cons, List.append_assoc]
    rfl

theorem foldl_map_list (g : γ → α → α) (es : List γ) (l : List α) :
    es.foldl (fun l e => l.map (g e)) l = l.map fun a => es.foldl (fun a e => g e a) a := by
  induction es generalizing l with
  | nil => simp
  | cons e es ih => rw [List.foldl_cons, ih, List.map_map]; rfl

theorem zipWith_const_right (f : α → γ) {l : List α} {l' : List β} (h : l.length = l'.length) :
    List.zipWith (fun a _ => f a) l l' = l.map f := by
  refine List.ext_getElem (by simp [h]) fun i _ _ => ?_
  simp

theorem zipIdx_eq_ofFn (l : List α) :
    l.zipIdx = List.ofFn fun i : Fin l.length => (l.get i, (i : Nat)) := by
  refine List.ext_getElem (by simp) fun i h h' => ?_
  simp

end Loops

variable {γ : Type*}

/-! ## Shares as values of a polynomial -/

theorem evalPoly_eq_horner (coeffs : List UInt8) (x : UInt8) :
    Gf256.mk (evalPoly coeffs x) = horner (coeffs.map Gf256.mk) ⟨x⟩ := by
  unfold evalPoly
  rw [List.foldl_reverse]
  induction coeffs with
  | nil => rfl
  | cons c cs ih =>
    rw [List.foldr_cons, List.map_cons, horner_cons, ← ih]
    rfl

/-- The share at `x`: one polynomial value for each secret byte. -/
def shareAt (secret : List UInt8) {k : Nat} (fill : Nat → Bytes k) (x : UInt8) : Share :=
  ⟨x, secret.zipIdx.map fun e => evalPoly (e.1 :: (fill e.2).toList) x⟩

theorem foldl_set_y (value : UInt8 × Nat → UInt8 → UInt8) (es : List (UInt8 × Nat)) (x : UInt8)
    (y : List UInt8) :
    es.foldl (fun (share : Share) e => { share with y := share.y.set e.2 (value e share.x) })
        ⟨x, y⟩ =
      ⟨x, es.foldl (fun y e => y.modify e.2 fun _ => value e x) y⟩ := by
  induction es generalizing y with
  | nil => rfl
  | cons e es ih =>
    rw [List.foldl_cons, List.foldl_cons, ih, List.set_eq_modify]

theorem split_eq {secret : List UInt8} {threshold shares : UInt8}
    {fill : Nat → Bytes (threshold.toNat - 1)} (hsecret : secret ≠ []) (ht : 2 ≤ threshold)
    (hn : threshold ≤ shares) :
    split secret threshold shares fill =
      .ok ((List.range' 1 shares.toNat).map fun x => shareAt secret fill (UInt8.ofNat x)) := by
  unfold split
  rw [if_neg (by simp [hsecret, UInt8.not_lt, ht, hn])]
  simp only [foldl_map_list, List.map_map]
  congr 1
  refine List.map_congr_left fun x _ => ?_
  have hy := foldl_modify_zipIdx
    (fun b i _ => evalPoly (b :: (fill i).toList) (UInt8.ofNat x)) secret []
    (List.replicate secret.length 0) (by simp)
  simp only [List.nil_append, List.length_nil] at hy
  refine (foldl_set_y (fun e => evalPoly (e.1 :: (fill e.2).toList)) _ _ _).trans ?_
  rw [hy, zipWith_const_right _ (by simp)]
  rfl

theorem split_ok_iff {secret : List UInt8} {threshold shares : UInt8}
    {fill : Nat → Bytes (threshold.toNat - 1)} {out : List Share} :
    split secret threshold shares fill = .ok out ↔
      secret ≠ [] ∧ 2 ≤ threshold ∧ threshold ≤ shares ∧
        (List.range' 1 shares.toNat).map (fun x => shareAt secret fill (UInt8.ofNat x)) = out := by
  constructor
  · intro h
    by_cases hbad : secret.isEmpty || threshold < 2 || shares < threshold
    · rw [split, if_pos hbad] at h
      exact absurd h nofun
    · simp only [Bool.or_eq_true, List.isEmpty_iff, decide_eq_true_eq, not_or,
        UInt8.not_lt] at hbad
      obtain ⟨⟨hsecret, ht⟩, hn⟩ := hbad
      refine ⟨hsecret, ht, hn, ?_⟩
      exact Except.ok.inj ((split_eq hsecret ht hn).symm.trans h)
  · rintro ⟨hsecret, ht, hn, rfl⟩
    exact split_eq hsecret ht hn

/-! ## Reconstruction -/

/-- The inner loop of `combine` adds a multiple of the share to the accumulator. -/
theorem foldl_addShare {es : List γ} {y : γ → List UInt8} {w : γ → UInt8} {len : Nat}
    (hy : ∀ e ∈ es, (y e).length = len) (acc : List UInt8) (hacc : acc.length = len) :
    es.foldl (fun secret e => (y e).zipIdx.foldl (fun secret v =>
        secret.modify v.2 (· ^^^ gfMul v.1 (w e))) secret) acc =
      es.foldl (fun secret e =>
        List.zipWith (fun a v => a ^^^ gfMul v (w e)) secret (y e)) acc := by
  induction es generalizing acc with
  | nil => rfl
  | cons e es ih =>
    have he := hy e List.mem_cons_self
    have hstep := foldl_modify_zipIdx (fun v _ a => a ^^^ gfMul v (w e)) (y e) [] acc
      (hacc.trans he.symm)
    have hzip : List.zipWith (fun v a => a ^^^ gfMul v.1 (w e)) ((y e).zipIdx) acc =
        List.zipWith (fun a v => a ^^^ gfMul v (w e)) acc (y e) := by
      refine List.ext_getElem (by simp [Nat.min_comm]) fun i _ _ => ?_
      simp
    simp only [List.nil_append, List.length_nil] at hstep
    rw [List.foldl_cons, List.foldl_cons, hstep, hzip]
    exact ih (fun e' he' => hy e' (List.mem_cons_of_mem _ he')) _ (by simp [hacc, he])

theorem combine_eq {shares : List Share} {len : Nat} (h2 : 2 ≤ shares.length) (hlen : 0 < len)
    (hshares : ∀ s ∈ shares, s.y.length = len ∧ s.x ≠ 0) :
    combine shares = .ok (shares.zipIdx.foldl (fun secret e =>
      List.zipWith (fun a v => a ^^^ gfMul v (lagrangeCoefficient shares e.2 e.1))
        secret e.1.y) (List.replicate len 0)) := by
  match shares, h2 with
  | first :: second :: rest, _ =>
    obtain ⟨hfirst, -⟩ := hshares first List.mem_cons_self
    have hany : (first :: second :: rest).any (fun s => s.y.length ≠ len || s.x = 0) = false := by
      rw [List.any_eq_false]
      intro s hs
      obtain ⟨hl, hx⟩ := hshares s hs
      simp [hl, hx]
    unfold combine
    simp only [hfirst, hany, Bool.or_false, decide_eq_true_eq, if_neg hlen.ne']
    congr 1
    refine foldl_addShare (fun e he => ?_) _ (List.length_replicate ..)
    exact (hshares e.1 (List.fst_mem_of_mem_zipIdx he)).1

/-- Accumulating weighted share bytes, position by position. -/
theorem foldl_zipWith_getD {es : List γ} {y : γ → List UInt8} {w : γ → UInt8} {len : Nat}
    (hy : ∀ e ∈ es, (y e).length = len) (acc : List UInt8) (hacc : acc.length = len) :
    (es.foldl (fun acc e => List.zipWith (fun a v => a ^^^ gfMul v (w e)) acc (y e)) acc).length =
      len ∧
    ∀ b < len, Gf256.mk
      ((es.foldl (fun acc e => List.zipWith (fun a v => a ^^^ gfMul v (w e)) acc (y e)) acc).getD
        b 0) =
      Gf256.mk (acc.getD b 0) +
        (es.map fun e => Gf256.mk ((y e).getD b 0) * Gf256.mk (w e)).sum := by
  induction es generalizing acc with
  | nil => simp [hacc]
  | cons e es ih =>
    have he := hy e List.mem_cons_self
    obtain ⟨hl, hget⟩ := ih (fun e' he' => hy e' (List.mem_cons_of_mem _ he'))
      (List.zipWith (fun a v => a ^^^ gfMul v (w e)) acc (y e)) (by simp [hacc, he])
    refine ⟨hl, fun b hb => ?_⟩
    rw [List.foldl_cons, hget b hb, List.map_cons, List.sum_cons, ← add_assoc]
    congr 1
    have hba : b < acc.length := hacc ▸ hb
    have hby : b < (y e).length := he ▸ hb
    simp [List.getD_eq_getElem?_getD, hba, hby]
    rfl

theorem foldl_gfMul (cond : γ → Prop) [DecidablePred cond] (factor : γ → UInt8) (es : List γ)
    (acc : UInt8) :
    Gf256.mk (es.foldl (fun acc e => if cond e then acc else gfMul acc (factor e)) acc) =
      Gf256.mk acc * (es.map fun e => if cond e then 1 else Gf256.mk (factor e)).prod := by
  induction es generalizing acc with
  | nil => simp
  | cons e es ih =>
    rw [List.foldl_cons, ih, List.map_cons, List.prod_cons]
    split
    · rw [one_mul]
    · rw [← mul_assoc]
      rfl

theorem lagrangeCoefficient_eq (shares : List Share) (i : Fin shares.length) :
    Gf256.mk (lagrangeCoefficient shares i (shares.get i)) =
      ∏ j ∈ Finset.univ.erase i, Gf256.mk (shares.get j).x *
        (Gf256.mk (shares.get j).x - Gf256.mk (shares.get i).x)⁻¹ := by
  have h := foldl_gfMul (fun e : Share × Nat => (i : Nat) = e.2)
    (fun e => gfMul e.1.x (gfInv (e.1.x ^^^ (shares.get i).x))) shares.zipIdx 1
  refine h.trans ?_
  rw [zipIdx_eq_ofFn, List.map_ofFn, List.prod_ofFn,
    ← Finset.mul_prod_erase _ _ (Finset.mem_univ i)]
  simp only [Function.comp_apply, if_true]
  refine (one_mul _).trans ((one_mul _).trans (Finset.prod_congr rfl fun j hj => ?_))
  rw [if_neg fun h => (Finset.mem_erase.mp hj).1 (Fin.ext h.symm), sub_eq_add_neg]
  rfl

/-- `combine` adds up the share bytes with their Lagrange weights. -/
theorem combine_ok_iff {shares : List Share} {secret : List UInt8} (h2 : 2 ≤ shares.length)
    (hlen : secret ≠ []) (hshares : ∀ s ∈ shares, s.y.length = secret.length ∧ s.x ≠ 0) :
    combine shares = .ok secret ↔
      ∀ b < secret.length, ∑ i, Gf256.mk ((shares.get i).y.getD b 0) *
        ∏ j ∈ Finset.univ.erase i, Gf256.mk (shares.get j).x *
          (Gf256.mk (shares.get j).x - Gf256.mk (shares.get i).x)⁻¹ =
        Gf256.mk (secret.getD b 0) := by
  rw [combine_eq h2 (List.length_pos_iff.mpr hlen) hshares, Except.ok.injEq]
  obtain ⟨hl, hget⟩ := foldl_zipWith_getD (y := fun e : Share × Nat => e.1.y)
    (w := fun e => lagrangeCoefficient shares e.2 e.1)
    (fun e (he : e ∈ shares.zipIdx) => (hshares e.1 (List.fst_mem_of_mem_zipIdx he)).1)
    (List.replicate secret.length 0) (List.length_replicate ..)
  have hbyte : ∀ b < secret.length, Gf256.mk ((shares.zipIdx.foldl (fun secret e =>
      List.zipWith (fun a v => a ^^^ gfMul v (lagrangeCoefficient shares e.2 e.1))
        secret e.1.y) (List.replicate secret.length 0)).getD b 0) =
      ∑ i, Gf256.mk ((shares.get i).y.getD b 0) *
        ∏ j ∈ Finset.univ.erase i, Gf256.mk (shares.get j).x *
          (Gf256.mk (shares.get j).x - Gf256.mk (shares.get i).x)⁻¹ := by
    intro b hb
    rw [hget b hb, List.getD_replicate _ hb, zipIdx_eq_ofFn, List.map_ofFn, List.sum_ofFn]
    simp only [Function.comp_apply, lagrangeCoefficient_eq]
    exact zero_add _
  constructor
  · intro heq b hb
    rw [← hbyte b hb, heq]
  · intro hsum
    refine List.ext_getElem hl fun b hb hb' => ?_
    have hsame := congrArg Gf256.byte ((hbyte b hb').trans (hsum b hb'))
    rwa [List.getD_eq_getElem _ _ hb', List.getD_eq_getElem _ _ hb] at hsame

/-- `combine` gives as many bytes as the shares have. -/
theorem combine_total {shares : List Share} {len : Nat} (h2 : 2 ≤ shares.length) (hlen : 0 < len)
    (hshares : ∀ s ∈ shares, s.y.length = len ∧ s.x ≠ 0) :
    ∃ secret, combine shares = .ok secret ∧ secret.length = len := by
  refine ⟨_, combine_eq h2 hlen hshares, (foldl_zipWith_getD (y := fun e : Share × Nat => e.1.y)
    (w := fun e => lagrangeCoefficient shares e.2 e.1) (fun e he => ?_) _
    (List.length_replicate ..)).1⟩
  exact (hshares e.1 (List.fst_mem_of_mem_zipIdx he)).1

/-- The byte of a share is the value of the polynomial of the secret byte. -/
theorem shareAt_getD (secret : List UInt8) {k : Nat} (fill : Nat → Bytes k) (x : UInt8) {b : Nat}
    (hb : b < secret.length) :
    Gf256.mk ((shareAt secret fill x).y.getD b 0) =
      horner ((secret[b] :: (fill b).toList).map Gf256.mk) ⟨x⟩ := by
  rw [← evalPoly_eq_horner]
  simp [shareAt, hb]

theorem uint8_ofNat_inj {a b : Nat} (ha : a < 256) (hb : b < 256)
    (h : UInt8.ofNat a = UInt8.ofNat b) : a = b := by
  have h' := congrArg UInt8.toNat h
  rwa [UInt8.toNat_ofNat_of_lt' ha, UInt8.toNat_ofNat_of_lt' hb] at h'

/-- **Any `threshold` different shares reconstruct the secret**, in whatever order and for
whatever bytes the generator drew. -/
theorem combine_split (secret : List UInt8) (threshold shares : UInt8) (hsecret : secret ≠ [])
    (ht : 2 ≤ threshold) (hn : threshold ≤ shares) (fill : Nat → Bytes (threshold.toNat - 1)) :
    ∃ out, split secret threshold shares fill = .ok out ∧
      ∀ subset : List Share, (∀ s ∈ subset, s ∈ out) → subset.Nodup →
        threshold.toNat ≤ subset.length → combine subset = .ok secret := by
  refine ⟨_, split_eq hsecret ht hn, fun subset hsub hnodup hlen => ?_⟩
  have ht' : 2 ≤ threshold.toNat := ht
  -- every share is the polynomial values at its own non-zero point
  have hshare : ∀ s ∈ subset, s = shareAt secret fill s.x ∧ s.x ≠ 0 := by
    intro s hs
    obtain ⟨x, hx, rfl⟩ := List.mem_map.mp (hsub s hs)
    rw [List.mem_range'_1] at hx
    have hshares : shares.toNat < 256 := shares.toNat_lt
    refine ⟨rfl, fun h0 => ?_⟩
    have := uint8_ofNat_inj (a := x) (b := 0) (by omega) (by omega) h0
    omega
  have hinj : Function.Injective fun i : Fin subset.length => Gf256.mk (subset.get i).x := by
    intro i j hij
    have hx : (subset.get i).x = (subset.get j).x := congrArg Gf256.byte hij
    refine (List.nodup_iff_injective_get.mp hnodup) ?_
    rw [(hshare _ (List.get_mem subset i)).1, (hshare _ (List.get_mem subset j)).1, hx]
  refine (combine_ok_iff (by omega) hsecret fun s hs => ⟨?_, (hshare s hs).2⟩).mpr fun b hb => ?_
  · rw [(hshare s hs).1]
    simp [shareAt]
  · have hy : ∀ s ∈ subset, Gf256.mk (s.y.getD b 0) =
        (listPoly ((secret[b] :: (fill b).toList).map Gf256.mk)).eval ⟨s.x⟩ := by
      intro s hs
      rw [(hshare s hs).1, shareAt_getD secret fill s.x hb, eval_listPoly]
      rfl
    have hdeg : (listPoly ((secret[b] :: (fill b).toList).map Gf256.mk)).degree <
        (subset.length : WithBot Nat) := by
      refine (degree_listPoly_lt _).trans_le ?_
      rw [List.length_map, List.length_cons, List.Vector.toList_length]
      exact_mod_cast (by omega : threshold.toNat - 1 + 1 ≤ subset.length)
    have h0 := sum_lagrange_zero (s := Finset.univ) hinj.injOn
      (by rwa [Finset.card_univ, Fintype.card_fin])
    rw [eval_listPoly, List.map_cons, horner_zero] at h0
    rw [List.getD_eq_getElem _ _ hb, ← h0]
    refine Finset.sum_congr rfl fun i _ => ?_
    rw [hy _ (List.get_mem subset i)]
    rfl

/-- Shares 4 and 2 of a two-of-four split of two bytes, drawn with coefficients `0x53` and
`0xCA`. -/
theorem combine_split_two_of_four :
    combine [⟨4, [gfMul 0x53 4 ^^^ 0x2A, gfMul 0xCA 4 ^^^ 0x07]⟩,
      ⟨2, [gfMul 0x53 2 ^^^ 0x2A, gfMul 0xCA 2 ^^^ 0x07]⟩] = .ok [0x2A, 0x07] := by
  obtain ⟨out, hout, h⟩ := combine_split [0x2A, 0x07] 2 4 (by decide) (by decide) (by decide)
    fun i => if i = 0 then ⟨[0x53], rfl⟩ else ⟨[0xCA], rfl⟩
  have hmem : out = _ := (Except.ok.inj hout).symm
  subst hmem
  exact h _ (by decide +kernel) (by decide +kernel) (by decide)

/-! ## Repeated shares -/

/-- The weighted sum does not depend on how the positions are counted. -/
theorem sum_weights_cast {m n : Nat} (h : m = n) (value point : Fin n → Gf256) :
    ∑ i : Fin m, value (i.cast h) * ∏ j ∈ Finset.univ.erase i,
        point (j.cast h) * (point (j.cast h) - point (i.cast h))⁻¹ =
      ∑ i, value i * ∏ j ∈ Finset.univ.erase i, point j * (point j - point i)⁻¹ := by
  subst h
  rfl

/-- Whether the shares at the given points reconstruct every secret of `len` bytes, whatever was
drawn. -/
theorem forall_combine_iff {t : Nat} (ht : 2 ≤ t) (len : Nat) (hlen : 0 < len)
    {points : List UInt8} (hmany : t ≤ points.length) (hpoints : ∀ x ∈ points, x ≠ 0) :
    (∀ (secret : List UInt8) (fill : Nat → Bytes (t - 1)), secret.length = len →
        combine (points.map (shareAt secret fill)) = .ok secret) ↔
      Reconstructs t fun i : Fin points.length => Gf256.mk (points.get i) := by
  have hx : ∀ i : Fin points.length, Gf256.mk (points.get i) ≠ 0 := fun i h =>
    hpoints _ (List.get_mem points i) (congrArg Gf256.byte h)
  -- one split: the weights have to give back the constant term of each polynomial
  have hsplit : ∀ (secret : List UInt8) (fill : Nat → Bytes (t - 1)), secret.length = len →
      (combine (points.map (shareAt secret fill)) = .ok secret ↔
        ∀ b (hb : b < secret.length), ∑ i : Fin points.length,
          horner ((secret[b] :: (fill b).toList).map Gf256.mk) ⟨points.get i⟩ *
            ∏ j ∈ Finset.univ.erase i, Gf256.mk (points.get j) *
              (Gf256.mk (points.get j) - Gf256.mk (points.get i))⁻¹ = Gf256.mk secret[b]) := by
    intro secret fill hsecret
    have hne : secret ≠ [] := List.length_pos_iff.mp (by omega)
    have hshares : ∀ s ∈ points.map (shareAt secret fill), s.y.length = secret.length ∧
        s.x ≠ 0 := by
      intro s hs
      obtain ⟨x, hxmem, rfl⟩ := List.mem_map.mp hs
      exact ⟨by simp [shareAt], hpoints x hxmem⟩
    rw [combine_ok_iff (by rw [List.length_map]; omega) hne hshares]
    refine forall_congr' fun b => forall_congr' fun hb => ?_
    rw [List.getD_eq_getElem _ _ hb, ← sum_weights_cast (List.length_map (shareAt secret fill))]
    refine Eq.congr_left (Finset.sum_congr rfl fun i _ => ?_)
    have hget : ∀ j : Fin (points.map (shareAt secret fill)).length,
        (points.map (shareAt secret fill)).get j =
          shareAt secret fill (points.get (j.cast (List.length_map _))) := by
      intro j
      simp
    simp only [hget, shareAt_getD secret fill _ hb]
    rfl
  constructor
  · intro hall
    refine (forall_sum_weights_iff (by omega) hx).mp fun p hp => ?_
    obtain ⟨coeffs, hcoeffs, hvalue⟩ := exists_horner_eq hp
    obtain ⟨c, cs, rfl⟩ := List.exists_cons_of_length_pos (by omega : 0 < coeffs.length)
    have hcs : (cs.map Gf256.byte).length = t - 1 := by
      rw [List.length_map]
      exact Nat.eq_sub_of_add_eq hcoeffs
    -- the same polynomial for every byte of the secret
    have hbyte := (hsplit (List.replicate len c.byte) (fun _ => bytesOf (cs.map Gf256.byte) hcs)
      List.length_replicate).mp (hall _ _ List.length_replicate) 0 (by simpa using hlen)
    have hmap : (c.byte :: cs.map Gf256.byte).map Gf256.mk = c :: cs := by
      rw [List.map_cons, List.map_map]
      exact congrArg _ (List.map_id _)
    rw [List.getElem_replicate, toList_bytesOf, hmap] at hbyte
    simp only [hvalue] at hbyte
    rw [← hvalue 0, horner_zero]
    exact hbyte
  · intro hrec secret fill hsecret
    refine (hsplit secret fill hsecret).mpr fun b hb => ?_
    have hdeg : (listPoly ((secret[b] :: (fill b).toList).map Gf256.mk)).degree <
        (t : WithBot Nat) := by
      refine (degree_listPoly_lt _).trans_le ?_
      rw [List.length_map, List.length_cons, List.Vector.toList_length]
      exact_mod_cast (by omega : t - 1 + 1 ≤ t)
    have hsum := (forall_sum_weights_iff (by omega) hx).mpr hrec _ hdeg
    simp only [eval_listPoly] at hsum
    rw [hsum, List.map_cons, horner_zero]

/-! ## Secrecy -/

/-- Drawn bytes as a vector of field elements. -/
def coeffsEquiv (m : Nat) : Bytes m ≃ (Fin m → Gf256) :=
  (Equiv.vectorEquivFin UInt8 m).trans (Equiv.arrowCongr (Equiv.refl _) Gf256.equivByte)

theorem horner_coeffs {m : Nat} (drawn : Bytes m) (x : Gf256) :
    horner (drawn.toList.map Gf256.mk) x = ∑ l, coeffsEquiv m drawn l * x ^ (l : Nat) := by
  rw [← horner_ofFn]
  congr 1
  refine List.ext_getElem (by simp) fun i h h' => ?_
  rw [List.getElem_map, List.getElem_ofFn]
  rfl

/-- **Fewer shares than the threshold say nothing about a secret byte**: whatever its value `s`,
the same number of draws of the other coefficients leads to the given share bytes. -/
theorem card_coeffs_of_shares (t : Nat) (points : List (UInt8 × UInt8))
    (hlen : points.length ≤ t - 1) (hnodup : (points.map Prod.fst).Nodup)
    (hpos : ∀ p ∈ points, p.1 ≠ 0) (s : UInt8) :
    (Finset.univ.filter fun drawn : Bytes (t - 1) =>
      ∀ p ∈ points, evalPoly (s :: drawn.toList) p.1 = p.2).card =
        256 ^ (t - 1 - points.length) := by
  have hinj : Function.Injective fun i : Fin points.length => Gf256.mk (points.get i).1 := by
    intro i j hij
    have hfst : (points.map Prod.fst).get (i.cast (List.length_map _).symm) =
        (points.map Prod.fst).get (j.cast (List.length_map _).symm) := by
      simpa using congrArg Gf256.byte hij
    exact Fin.cast_injective _ (List.nodup_iff_injective_get.mp hnodup hfst)
  rw [← Gf256.card_eq, ← card_evalAt_eq hinj hlen
    fun i => (Gf256.mk (points.get i).2 - ⟨s⟩) * (Gf256.mk (points.get i).1)⁻¹]
  refine Finset.card_equiv (coeffsEquiv (t - 1)) fun drawn => ?_
  simp only [Finset.mem_filter_univ, funext_iff]
  rw [List.forall_mem_iff_get]
  refine forall_congr' fun i => ?_
  have hx : Gf256.mk (points.get i).1 ≠ 0 := fun h =>
    hpos _ (List.get_mem points i) (congrArg Gf256.byte h)
  -- `q(x) * x + s = y` is `q(x) = (y - s) / x`
  calc evalPoly (s :: drawn.toList) (points.get i).1 = (points.get i).2
      ↔ horner (drawn.toList.map Gf256.mk) ⟨(points.get i).1⟩ * ⟨(points.get i).1⟩ + ⟨s⟩ =
          Gf256.mk (points.get i).2 := by
        rw [← horner_cons, ← List.map_cons, ← evalPoly_eq_horner, Gf256.mk.injEq]
    _ ↔ horner (drawn.toList.map Gf256.mk) ⟨(points.get i).1⟩ =
          (Gf256.mk (points.get i).2 - ⟨s⟩) * (Gf256.mk (points.get i).1)⁻¹ := by
        rw [← eq_sub_iff_add_eq, eq_mul_inv_iff_mul_eq₀ hx]
    _ ↔ _ := by
        rw [horner_coeffs]
        rfl

/-- One share of a two-of-`n` split: each of the 256 secret bytes explains it in exactly one
way. -/
theorem card_coeffs_of_one_share :
    (Finset.univ.filter fun drawn : Bytes 1 =>
      ∀ p ∈ [((3 : UInt8), (0x99 : UInt8))], evalPoly (0x2A :: drawn.toList) p.1 = p.2).card = 1 :=
  card_coeffs_of_shares 2 [(3, 0x99)] (by decide) (by decide) (by simp) 0x2A

end Keepstone.Crypto
