import Mathlib.GroupTheory.Index
import Mathlib.LinearAlgebra.Lagrange

/-!
# Interpolation at zero, and counting polynomials through given points

Over a field `F`, for a polynomial given by the list of its coefficients (constant term first)
and evaluated by Horner's rule.

Results:
* `sum_lagrange_zero`: from the values at `n` different points, the Lagrange weights
  `∏ xⱼ / (xⱼ - xᵢ)` give back the value at zero of a polynomial of degree below `n`;
* `forall_sum_weights_iff`: when the weights still do this with repeated points, under `0⁻¹ = 0`;
* `card_evalAt_eq`: over a finite field, prescribing values at `k ≤ t` different points leaves
  exactly `|F| ^ (t - k)` of the coefficient vectors of length `t`.
-/

namespace Keepstone.Lib

open Polynomial

section Horner

variable {F : Type*} [Field F]

/-- Horner's rule: the value at `x` of the polynomial with coefficients `coeffs`. -/
def horner (coeffs : List F) (x : F) : F := coeffs.foldr (fun coeff acc => acc * x + coeff) 0

@[simp] theorem horner_nil (x : F) : horner [] x = 0 := rfl

@[simp] theorem horner_cons (c : F) (cs : List F) (x : F) :
    horner (c :: cs) x = horner cs x * x + c := rfl

theorem horner_zero (c : F) (cs : List F) : horner (c :: cs) 0 = c := by
  rw [horner_cons, mul_zero, zero_add]

theorem horner_ofFn : ∀ {n : Nat} (c : Fin n → F) (x : F),
    horner (List.ofFn c) x = ∑ i, c i * x ^ (i : Nat)
  | 0, _, _ => by simp
  | n + 1, c, x => by
    rw [List.ofFn_succ, horner_cons, horner_ofFn, Fin.sum_univ_succ, Finset.sum_mul, add_comm]
    simp only [Fin.val_zero, pow_zero, mul_one, Fin.val_succ, pow_succ, mul_assoc]

/-- The polynomial with the given coefficients. -/
noncomputable def listPoly (coeffs : List F) : F[X] :=
  coeffs.foldr (fun coeff p => p * X + C coeff) 0

theorem eval_listPoly (x : F) : ∀ coeffs : List F, (listPoly coeffs).eval x = horner coeffs x
  | [] => eval_zero
  | c :: cs => by
    have h := eval_listPoly x cs
    unfold listPoly at h ⊢
    rw [List.foldr_cons, eval_add, eval_mul, eval_X, eval_C, h, horner_cons]

theorem degree_listPoly_lt : ∀ coeffs : List F, (listPoly coeffs).degree < coeffs.length
  | [] => by simp [listPoly]
  | c :: cs => by
    have h := degree_listPoly_lt cs
    unfold listPoly at h ⊢
    rw [List.foldr_cons, List.length_cons]
    refine (degree_add_le _ _).trans_lt (max_lt ?_ ?_)
    · rw [degree_mul, degree_X, Nat.cast_add, Nat.cast_one]
      exact WithBot.add_lt_add_right WithBot.one_ne_bot h
    · refine degree_C_le.trans_lt ?_
      exact_mod_cast Nat.succ_pos cs.length

/-- A polynomial of degree below `n` has `n` coefficients. -/
theorem exists_horner_eq {n : Nat} {p : F[X]} (hdeg : p.degree < n) :
    ∃ coeffs : List F, coeffs.length = n ∧ ∀ x, horner coeffs x = p.eval x := by
  refine ⟨List.ofFn fun i : Fin n => p.coeff i, List.length_ofFn, fun x => ?_⟩
  rw [horner_ofFn, eval_eq_sum_degreeLTEquiv (mem_degreeLT.mpr hdeg)]
  rfl

/-! ## The value at zero -/

section ValueAtZero

variable {ι : Type*} [DecidableEq ι] {s : Finset ι} {x : ι → F}

/-- **Lagrange interpolation at zero.** -/
theorem sum_lagrange_zero (hx : Set.InjOn x s) {p : F[X]} (hdeg : p.degree < s.card) :
    ∑ i ∈ s, p.eval (x i) * ∏ j ∈ s.erase i, x j * (x j - x i)⁻¹ = p.eval 0 := by
  have hp := Lagrange.eq_interpolate hx hdeg
  conv_rhs => rw [hp]
  rw [Lagrange.interpolate_apply, eval_finsetSum]
  refine Finset.sum_congr rfl fun i _ => ?_
  rw [eval_mul, eval_C, Lagrange.basis, eval_prod]
  congr 1
  refine Finset.prod_congr rfl fun j hj => ?_
  rw [Lagrange.basisDivisor, eval_mul, eval_C, eval_sub, eval_X, eval_C, zero_sub, ← neg_sub (x j),
    inv_neg, neg_mul_neg, mul_comm]

/-- A polynomial of degree exactly the number of points is off by its multiple of the polynomial
that vanishes at the points. -/
theorem sum_lagrange_zero_of_degree_eq (hx : Set.InjOn x s) {p : F[X]}
    (hdeg : p.degree = s.card) :
    ∑ i ∈ s, p.eval (x i) * ∏ j ∈ s.erase i, x j * (x j - x i)⁻¹ =
      p.eval 0 - p.leadingCoeff * ∏ i ∈ s, -x i := by
  have hp : p ≠ 0 := fun h => by simp [h] at hdeg
  have hlead : p.leadingCoeff ≠ 0 := leadingCoeff_ne_zero.mpr hp
  have hlower : (p - C p.leadingCoeff * Lagrange.nodal s x).degree < (s.card : WithBot Nat) := by
    rw [← hdeg]
    refine degree_sub_lt_left ?_ hp ?_
    · rw [degree_C_mul hlead, Lagrange.degree_nodal, hdeg]
    · rw [leadingCoeff_mul, leadingCoeff_C, Lagrange.nodal_monic.leadingCoeff, mul_one]
  have hsum := sum_lagrange_zero hx hlower
  rw [eval_sub, eval_mul, eval_C, Lagrange.eval_nodal] at hsum
  simp only [zero_sub] at hsum
  rw [← hsum]
  refine Finset.sum_congr rfl fun i hi => ?_
  rw [eval_sub, eval_mul, Lagrange.eval_nodal_at_node hi, mul_zero, sub_zero]

end ValueAtZero

end Horner

/-! ## Repeated points

The same weights where a point may stand at several positions. With `0⁻¹ = 0` a repeated point
gets weight zero at each of its positions, but its factor stays in the weights of the others. -/

section Repeated

variable {F : Type*} [DecidableEq F] {ι : Type*} [Fintype ι] [DecidableEq ι]

/-- The positions whose point stands at no other position. -/
def unrepeated (x : ι → F) : Finset ι := {i | ∀ j, x j = x i → j = i}

theorem injOn_unrepeated (x : ι → F) : Set.InjOn x (unrepeated x) := by
  intro i _ j hj hij
  rw [Finset.mem_coe, unrepeated, Finset.mem_filter_univ] at hj
  exact hj i hij

variable [Field F]

/-- The factor that the repeated points leave in the weight of position `i`. -/
def repeatedFactor (x : ι → F) (i : ι) : F := ∏ j ∈ (unrepeated x)ᶜ, x j * (x j - x i)⁻¹

/-- On the unrepeated positions the factor of the repeated ones agrees with a polynomial that is
`1` at zero and leaves room for `t` values. -/
def Reconstructs (t : Nat) (x : ι → F) : Prop :=
  ∃ h : F[X], h.eval 0 = 1 ∧ h.natDegree + t ≤ (unrepeated x).card ∧
    ∀ i ∈ unrepeated x, h.eval (x i) = repeatedFactor x i

/-- Different points are unrepeated, and the factor is `1`. -/
theorem reconstructs_of_injective {t : Nat} {x : ι → F} (hx : Function.Injective x)
    (ht : t ≤ Fintype.card ι) : Reconstructs t x := by
  have huniv : unrepeated x = Finset.univ := by
    refine Finset.filter_true_of_mem fun i _ j hij => hx hij
  refine ⟨1, eval_one, ?_, fun i _ => ?_⟩
  · rw [natDegree_one, zero_add, huniv, Finset.card_univ]
    exact ht
  · rw [eval_one, repeatedFactor, huniv, Finset.compl_univ, Finset.prod_empty]

/-- The weights of repeated positions are zero. -/
theorem sum_weights_eq (x : ι → F) (p : F[X]) :
    ∑ i, p.eval (x i) * ∏ j ∈ Finset.univ.erase i, x j * (x j - x i)⁻¹ =
      ∑ i ∈ unrepeated x, p.eval (x i) * repeatedFactor x i *
        ∏ j ∈ (unrepeated x).erase i, x j * (x j - x i)⁻¹ := by
  rw [← Finset.sum_add_sum_compl (unrepeated x)]
  have hrepeated : ∑ i ∈ (unrepeated x)ᶜ,
      p.eval (x i) * ∏ j ∈ Finset.univ.erase i, x j * (x j - x i)⁻¹ = 0 := by
    refine Finset.sum_eq_zero fun i hi => ?_
    rw [Finset.mem_compl, unrepeated, Finset.mem_filter_univ] at hi
    push Not at hi
    obtain ⟨j, hij, hne⟩ := hi
    rw [Finset.prod_eq_zero (Finset.mem_erase.mpr ⟨hne, Finset.mem_univ j⟩), mul_zero]
    rw [hij, sub_self, inv_zero, mul_zero]
  rw [hrepeated, add_zero]
  refine Finset.sum_congr rfl fun i hi => ?_
  have hsplit : Finset.univ.erase i = (unrepeated x).erase i ∪ (unrepeated x)ᶜ := by
    ext j
    by_cases hj : j ∈ unrepeated x
    · simp [hj]
    · have hji : j ≠ i := fun h => hj (h ▸ hi)
      simp [hj, hji]
  have hdisjoint : Disjoint ((unrepeated x).erase i) (unrepeated x)ᶜ :=
    disjoint_compl_right.mono_left (Finset.erase_subset i _)
  rw [hsplit, Finset.prod_union hdisjoint, mul_assoc, mul_comm (repeatedFactor x i)]
  rfl

/-- **When the weights give the value at zero**, for every polynomial of degree below `t`. -/
theorem forall_sum_weights_iff {t : Nat} (ht : 0 < t) {x : ι → F} (hx : ∀ i, x i ≠ 0) :
    (∀ p : F[X], p.degree < t →
        ∑ i, p.eval (x i) * ∏ j ∈ Finset.univ.erase i, x j * (x j - x i)⁻¹ = p.eval 0) ↔
      Reconstructs t x := by
  have hinj := injOn_unrepeated x
  constructor
  · intro hall
    -- the polynomial through the factors; it is the one of the definition
    have hat := fun i (hi : i ∈ unrepeated x) =>
      Lagrange.eval_interpolate_at_node (repeatedFactor x) hinj hi
    have hdeg := Lagrange.degree_interpolate_lt (repeatedFactor x) hinj
    generalize Lagrange.interpolate (unrepeated x) x (repeatedFactor x) = h at hat hdeg
    have hmul : ∀ p : F[X], p.degree < t →
        ∑ i ∈ unrepeated x, (p * h).eval (x i) *
          ∏ j ∈ (unrepeated x).erase i, x j * (x j - x i)⁻¹ = p.eval 0 := by
      intro p hp
      rw [← hall p hp, sum_weights_eq]
      refine Finset.sum_congr rfl fun i hi => ?_
      rw [eval_mul, hat i hi]
    have hone : h.eval 0 = 1 := by
      have hvalue := hmul 1 (by rw [degree_one]; exact_mod_cast ht)
      rw [one_mul, sum_lagrange_zero hinj hdeg, eval_one] at hvalue
      exact hvalue
    have hne : h ≠ 0 := fun h0 => by simp [h0] at hone
    have hnat : h.natDegree < (unrepeated x).card := (natDegree_lt_iff_degree_lt hne).mpr hdeg
    refine ⟨h, hone, ?_, hat⟩
    by_contra hroom
    -- otherwise a power of the variable reaches the number of points and misses its value
    set d := (unrepeated x).card - h.natDegree with hd
    have hpow : (X ^ d * h : F[X]).degree = (unrepeated x).card := by
      rw [degree_mul, degree_X_pow, degree_eq_natDegree hne]
      exact_mod_cast (by omega : d + h.natDegree = (unrepeated x).card)
    have hvalue := hmul (X ^ d) (by rw [degree_X_pow]; exact_mod_cast (by omega : d < t))
    rw [sum_lagrange_zero_of_degree_eq hinj hpow, eval_mul, eval_pow, eval_X,
      zero_pow (by omega : d ≠ 0), zero_mul, zero_sub, neg_eq_zero] at hvalue
    refine mul_ne_zero ?_ (Finset.prod_ne_zero_iff.mpr fun i _ => neg_ne_zero.mpr (hx i)) hvalue
    exact leadingCoeff_ne_zero.mpr fun h0 => by simp [h0] at hpow
  · rintro ⟨h, hone, hroom, hat⟩ p hp
    have hdeg : (p * h).degree < ((unrepeated x).card : WithBot Nat) := by
      by_cases hp0 : p = 0
      · rw [hp0, zero_mul, degree_zero]
        exact WithBot.bot_lt_coe _
      have hpt : p.natDegree < t := (natDegree_lt_iff_degree_lt hp0).mpr hp
      refine (natDegree_lt_iff_degree_lt ?_).mp ?_
      · exact mul_ne_zero hp0 fun h0 => by simp [h0] at hone
      · exact natDegree_mul_le.trans_lt (by omega)
    calc ∑ i, p.eval (x i) * ∏ j ∈ Finset.univ.erase i, x j * (x j - x i)⁻¹
        = ∑ i ∈ unrepeated x, (p * h).eval (x i) *
            ∏ j ∈ (unrepeated x).erase i, x j * (x j - x i)⁻¹ := by
          rw [sum_weights_eq]
          refine Finset.sum_congr rfl fun i hi => ?_
          rw [eval_mul, hat i hi]
      _ = p.eval 0 := by rw [sum_lagrange_zero hinj hdeg, eval_mul, hone, mul_one]

end Repeated

/-! ## Counting -/

section Counting

variable {F : Type*} [Field F] {t k : Nat}

/-- The values of the polynomial with coefficients `c` at the points `x`. -/
def evalAt (x : Fin k → F) : (Fin t → F) →+ (Fin k → F) where
  toFun c i := ∑ l, c l * x i ^ (l : Nat)
  map_zero' := by
    funext i
    simp
  map_add' c d := by
    funext i
    simp only [Pi.add_apply, add_mul, Finset.sum_add_distrib]

/-- Any values at `k ≤ t` different points are taken. -/
theorem evalAt_surjective {x : Fin k → F} (hx : Function.Injective x) (hk : k ≤ t) :
    Function.Surjective (evalAt (t := t) x) := by
  intro y
  have hdeg : (Lagrange.interpolate Finset.univ x y).degree < (t : WithBot Nat) := by
    refine (Lagrange.degree_interpolate_lt y hx.injOn).trans_le ?_
    rw [Finset.card_univ, Fintype.card_fin]
    exact_mod_cast hk
  refine ⟨fun l => (Lagrange.interpolate Finset.univ x y).coeff l, funext fun i => ?_⟩
  have heval := Lagrange.eval_interpolate_at_node y hx.injOn (Finset.mem_univ i)
  rw [eval_eq_sum_degreeLTEquiv (mem_degreeLT.mpr hdeg)] at heval
  exact heval

/-- **Prescribing `k` values leaves `|F| ^ (t - k)` coefficient vectors.** -/
theorem card_evalAt_eq [Fintype F] [DecidableEq F] {x : Fin k → F} (hx : Function.Injective x)
    (hk : k ≤ t) (y : Fin k → F) :
    (Finset.univ.filter fun c : Fin t → F => evalAt x c = y).card =
      Fintype.card F ^ (t - k) := by
  have hsurj := evalAt_surjective hx hk
  -- all fibres have one size, and together they are the whole space
  have hfibre : ∀ z, (Finset.univ.filter fun c : Fin t → F => evalAt x c = z).card =
      (Finset.univ.filter fun c : Fin t → F => evalAt x c = y).card := fun z =>
    AddMonoidHom.card_fiber_eq_of_mem_range (evalAt x) (hsurj z) (hsurj y)
  have htotal := Finset.card_eq_sum_card_fiberwise (s := Finset.univ) (t := Finset.univ)
    (f := evalAt (t := t) x) (fun _ _ => Finset.mem_univ _)
  simp only [hfibre, Finset.sum_const, Finset.card_univ, Fintype.card_fun, Fintype.card_fin,
    smul_eq_mul] at htotal
  refine Nat.eq_of_mul_eq_mul_left (pow_pos (Fintype.card_pos (α := F)) k) ?_
  rw [← htotal, ← pow_add, Nat.add_sub_cancel' hk]

end Counting

end Keepstone.Lib
