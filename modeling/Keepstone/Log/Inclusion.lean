import Keepstone.Lib.Sha256
import Keepstone.Log.Merkle

/-!
# Inclusion proofs are complete, sound and unique

The generator `path` collects the siblings bottom-up; the verifier `computeRoot` recurses on
`(index, n)` and reads them off the proof at a cursor. Both recursions split at
`largestPowerOfTwoLess n`, and `computeRoot_left_iff` / `computeRoot_right_iff` say what one
level of the verifier does.

Results:
* `computeRoot_complete`: reading the honest path from the genuine leaf gives the tree hash;
* `computeRoot_sound`: whatever the proof holds, reaching the tree hash forces the leaf and every
  sibling read to be the tree's own, or a pair combined for the tree collides with one combined
  by the verifier;
* **`verifyInclusion_complete_sound_unique`**: both directions for `verify_inclusion`.
-/

namespace Keepstone.Log

open Keepstone.Lib

variable {sha256 : List UInt8 → Hash}

/-! ## One level of the generator and of the verifier -/

theorem path_of_length_le_one {leaves : List Hash} (hn : leaves.length ≤ 1) (index : Nat) :
    path sha256 leaves index = [] := by
  rw [path, dif_pos hn]

theorem path_left {leaves : List Hash} {index : Nat} (hn : 2 ≤ leaves.length)
    (hi : index < largestPowerOfTwoLess leaves.length) :
    path sha256 leaves index =
      path sha256 (leaves.take (largestPowerOfTwoLess leaves.length)) index ++
        [mth sha256 (leaves.drop (largestPowerOfTwoLess leaves.length))] := by
  rw [path, dif_neg (by omega), if_pos hi, if_pos hi]

theorem path_right {leaves : List Hash} {index : Nat} (hn : 2 ≤ leaves.length)
    (hi : ¬ index < largestPowerOfTwoLess leaves.length) :
    path sha256 leaves index =
      path sha256 (leaves.drop (largestPowerOfTwoLess leaves.length))
          (index - largestPowerOfTwoLess leaves.length) ++
        [mth sha256 (leaves.take (largestPowerOfTwoLess leaves.length))] := by
  rw [path, dif_neg (by omega), if_neg hi, if_neg hi]

theorem computeRoot_one (leaf : Hash) (index : Nat) (proof : List Hash) (pos : Nat) :
    computeRoot sha256 leaf index 1 proof pos = some (leaf, pos) := by
  rw [computeRoot, dif_neg (by omega), dif_pos rfl]

section Level

variable {leaf root : Hash} {index n pos used : Nat} {proof : List Hash}

theorem computeRoot_left_iff (hn : 2 ≤ n) (hi : index < largestPowerOfTwoLess n) :
    computeRoot sha256 leaf index n proof pos = some (root, used) ↔
      ∃ left right next,
        computeRoot sha256 leaf index (largestPowerOfTwoLess n) proof pos = some (left, next) ∧
        proof[next]? = some right ∧ root = nodeHash sha256 left right ∧ used = next + 1 := by
  rw [computeRoot, dif_neg (by omega), dif_neg (by omega), if_pos hi]
  simp only [Option.bind_eq_bind, Option.bind_eq_some_iff, Prod.exists, Option.some.injEq,
    Prod.mk.injEq]
  constructor
  · rintro ⟨left, next, hc, right, hr, rfl, rfl⟩
    exact ⟨left, right, next, hc, hr, rfl, rfl⟩
  · rintro ⟨left, right, next, hc, hr, rfl, rfl⟩
    exact ⟨left, next, hc, right, hr, rfl, rfl⟩

theorem computeRoot_right_iff (hn : 2 ≤ n) (hi : ¬ index < largestPowerOfTwoLess n) :
    computeRoot sha256 leaf index n proof pos = some (root, used) ↔
      ∃ left right next,
        computeRoot sha256 leaf (index - largestPowerOfTwoLess n) (n - largestPowerOfTwoLess n)
          proof pos = some (right, next) ∧
        proof[next]? = some left ∧ root = nodeHash sha256 left right ∧ used = next + 1 := by
  rw [computeRoot, dif_neg (by omega), dif_neg (by omega), if_neg hi]
  simp only [Option.bind_eq_bind, Option.bind_eq_some_iff, Prod.exists, Option.some.injEq,
    Prod.mk.injEq]
  constructor
  · rintro ⟨right, next, hc, left, hl, rfl, rfl⟩
    exact ⟨left, right, next, hc, hl, rfl, rfl⟩
  · rintro ⟨left, right, next, hc, hl, rfl, rfl⟩
    exact ⟨right, next, hc, left, hl, rfl, rfl⟩

/-- On the left branch the pairs are those of the subtree and the pair combined here. -/
theorem computeRootPairs_left {left right : Hash} {next : Nat} (hn : 2 ≤ n)
    (hi : index < largestPowerOfTwoLess n)
    (hc : computeRoot sha256 leaf index (largestPowerOfTwoLess n) proof pos = some (left, next))
    (hr : proof[next]? = some right) :
    computeRootPairs sha256 leaf index n proof pos =
      computeRootPairs sha256 leaf index (largestPowerOfTwoLess n) proof pos ++
        [(left, right)] := by
  rw [computeRootPairs, dif_neg (by omega), if_pos hi, hc]
  simp only [hr, Option.map_some, Option.toList_some]

theorem computeRootPairs_right {left right : Hash} {next : Nat} (hn : 2 ≤ n)
    (hi : ¬ index < largestPowerOfTwoLess n)
    (hc : computeRoot sha256 leaf (index - largestPowerOfTwoLess n) (n - largestPowerOfTwoLess n)
      proof pos = some (right, next)) (hl : proof[next]? = some left) :
    computeRootPairs sha256 leaf index n proof pos =
      computeRootPairs sha256 leaf (index - largestPowerOfTwoLess n)
          (n - largestPowerOfTwoLess n) proof pos ++ [(left, right)] := by
  rw [computeRootPairs, dif_neg (by omega), if_neg hi, hc]
  simp only [hl, Option.map_some, Option.toList_some]

end Level

/-! ## Completeness -/

/-- The honest path, read from any position, recomputes the tree hash. -/
theorem computeRoot_complete : ∀ {leaves : List Hash} {index : Nat} {leaf : Hash},
    leaves[index]? = some leaf → ∀ pre post : List Hash,
      computeRoot sha256 leaf index leaves.length (pre ++ path sha256 leaves index ++ post)
          pre.length =
        some (mth sha256 leaves, pre.length + (path sha256 leaves index).length) := by
  intro leaves
  induction hn : leaves.length using Nat.strongRecOn generalizing leaves with
  | ind n ih =>
  subst hn
  intro index leaf hleaf pre post
  have hidx : index < leaves.length := (List.getElem?_eq_some_iff.mp hleaf).1
  rcases Nat.lt_or_ge leaves.length 2 with hlt | h2
  · match leaves, hlt, hidx with
    | [x], _, hidx =>
      have h0 : index = 0 := by simpa using hidx
      subst h0
      have hx : x = leaf := by simpa using hleaf
      rw [path_of_length_le_one (by simp), mth_singleton, hx]
      exact computeRoot_one leaf 0 (pre ++ [] ++ post) pre.length
  · have hk := largestPowerOfTwoLess_lt h2
    have hk0 := largestPowerOfTwoLess_pos h2
    by_cases hi : index < largestPowerOfTwoLess leaves.length
    · have hsub : (leaves.take (largestPowerOfTwoLess leaves.length))[index]? = some leaf := by
        rw [List.getElem?_take_of_lt hi, hleaf]
      have hrec := ih _ hk (length_take_split h2) hsub pre
        ([mth sha256 (leaves.drop (largestPowerOfTwoLess leaves.length))] ++ post)
      rw [path_left h2 hi, ← List.append_assoc pre, List.append_assoc _ _ post,
        computeRoot_left_iff h2 hi]
      refine ⟨_, _, _, hrec, ?_, mth_split h2, ?_⟩
      · rw [List.getElem?_append_right (by simp)]
        simp
      · simp only [List.length_append, List.length_singleton]
        omega
    · have hsub : (leaves.drop (largestPowerOfTwoLess leaves.length))[
          index - largestPowerOfTwoLess leaves.length]? = some leaf := by
        rw [List.getElem?_drop, Nat.add_sub_cancel' (by omega), hleaf]
      have hrec := ih _ (by omega) List.length_drop hsub pre
        ([mth sha256 (leaves.take (largestPowerOfTwoLess leaves.length))] ++ post)
      rw [path_right h2 hi, ← List.append_assoc pre, List.append_assoc _ _ post,
        computeRoot_right_iff h2 hi]
      refine ⟨_, _, _, hrec, ?_, mth_split h2, ?_⟩
      · rw [List.getElem?_append_right (by simp)]
        simp
      · simp only [List.length_append, List.length_singleton]
        omega

/-! ## Soundness -/

/-- **Reaching the tree hash pins the leaf and every sibling read.** The proof read between the
two positions is the honest path, or the tree and the verifier combined colliding pairs. -/
theorem computeRoot_sound : ∀ {leaves : List Hash} {index pos used : Nat} {leaf : Hash}
    {proof : List Hash}, index < leaves.length →
    computeRoot sha256 leaf index leaves.length proof pos = some (mth sha256 leaves, used) →
      (leaves[index]? = some leaf ∧
        proof.take used = proof.take pos ++ path sha256 leaves index) ∨
      Collides (Function.uncurry (nodeHash sha256)) (mthPairs sha256 leaves)
        (computeRootPairs sha256 leaf index leaves.length proof pos) := by
  intro leaves
  induction hn : leaves.length using Nat.strongRecOn generalizing leaves with
  | ind n ih =>
  subst hn
  intro index pos used leaf proof hidx hroot
  rcases Nat.lt_or_ge leaves.length 2 with hlt | h2
  · match leaves, hlt, hidx with
    | [x], _, hidx =>
      have h0 : index = 0 := by simpa using hidx
      subst h0
      rw [mth_singleton] at hroot
      obtain ⟨rfl, rfl⟩ :=
        Prod.mk.inj (Option.some.inj ((computeRoot_one leaf 0 proof pos).symm.trans hroot))
      left
      rw [path_of_length_le_one (by simp), List.append_nil]
      exact ⟨rfl, rfl⟩
  · have hk := largestPowerOfTwoLess_lt h2
    have hk0 := largestPowerOfTwoLess_pos h2
    have hdrop : (leaves.drop (largestPowerOfTwoLess leaves.length)).length =
        leaves.length - largestPowerOfTwoLess leaves.length := List.length_drop
    by_cases hi : index < largestPowerOfTwoLess leaves.length
    · obtain ⟨left, right, next, hc, hr, heq, rfl⟩ := (computeRoot_left_iff h2 hi).mp hroot
      have hpairs := computeRootPairs_left h2 hi hc hr
      have hmem : (left, right) ∈ computeRootPairs sha256 leaf index leaves.length proof pos := by
        rw [hpairs]
        exact List.mem_append_right _ List.mem_cons_self
      -- the pair combined at this level is the tree's, or it collides with it
      rcases pair_or_collides h2 hmem heq with ⟨rfl, rfl⟩ | hcol
      · rcases ih _ hk (length_take_split h2) hi hc with ⟨hleaf, hproof⟩ | hcol
        · left
          rw [List.getElem?_take_of_lt hi] at hleaf
          rw [take_succ_of_getElem? hr, hproof, path_left h2 hi, List.append_assoc]
          exact ⟨hleaf, rfl⟩
        · refine Or.inr (hcol.mono (mthPairs_take_sub h2) fun p hp => ?_)
          rw [hpairs]
          exact List.mem_append_left _ hp
      · exact Or.inr hcol
    · obtain ⟨left, right, next, hc, hl, heq, rfl⟩ := (computeRoot_right_iff h2 hi).mp hroot
      have hpairs := computeRootPairs_right h2 hi hc hl
      have hmem : (left, right) ∈ computeRootPairs sha256 leaf index leaves.length proof pos := by
        rw [hpairs]
        exact List.mem_append_right _ List.mem_cons_self
      rcases pair_or_collides h2 hmem heq with ⟨rfl, rfl⟩ | hcol
      · rcases ih _ (by omega) hdrop (by omega) hc with ⟨hleaf, hproof⟩ | hcol
        · left
          rw [List.getElem?_drop, Nat.add_sub_cancel' (by omega)] at hleaf
          rw [take_succ_of_getElem? hl, hproof, path_right h2 hi, List.append_assoc]
          exact ⟨hleaf, rfl⟩
        · refine Or.inr (hcol.mono (mthPairs_drop_sub h2) fun p hp => ?_)
          rw [hpairs]
          exact List.mem_append_left _ hp
      · exact Or.inr hcol

/-! ## `verify_inclusion` -/

theorem verifyInclusion_iff {leaf root : Hash} {index n : Nat} {proof : List Hash}
    (hidx : index < n) :
    verifyInclusion sha256 leaf index n proof root = true ↔
      computeRoot sha256 leaf index n proof 0 = some (root, proof.length) := by
  unfold verifyInclusion
  rw [if_neg (by simp only [Bool.or_eq_true, decide_eq_true_eq]; omega)]
  cases computeRoot sha256 leaf index n proof 0 with
  | none => simp
  | some r =>
    obtain ⟨computed, used⟩ := r
    simp only [Bool.and_eq_true, decide_eq_true_eq, Option.some.injEq, Prod.mk.injEq]
    exact and_comm

/-- The honest proof of the genuine leaf verifies. -/
theorem verifyInclusion_complete {leaves : List Hash} {index : Nat} {leaf : Hash}
    (hleaf : leaves[index]? = some leaf) :
    inclusionProof sha256 leaves index = .ok (path sha256 leaves index) ∧
      verifyInclusion sha256 leaf index leaves.length (path sha256 leaves index)
        (mth sha256 leaves) = true := by
  have hidx : index < leaves.length := (List.getElem?_eq_some_iff.mp hleaf).1
  refine ⟨?_, ?_⟩
  · unfold inclusionProof
    rw [if_neg (by omega)]
  · have hc := @computeRoot_complete sha256 _ _ _ hleaf [] []
    rw [verifyInclusion_iff hidx]
    simpa using hc

/-- **Inclusion proofs are complete, sound and unique.** Against the tree hash of `leaves`, the
honest proof of the genuine leaf verifies; and whatever verifies is the genuine leaf with the
honest proof, unless a pair combined for `mth leaves` and a different pair combined by
`compute_root` have one `node_hash`. -/
theorem verifyInclusion_complete_sound_unique (sha256 : List UInt8 → Hash) (leaves : List Hash)
    (index : Nat) (hidx : index < leaves.length) (leaf : Hash) (proof : List Hash) :
    (leaf = leaves[index] ∧ inclusionProof sha256 leaves index = .ok proof →
      verifyInclusion sha256 leaf index leaves.length proof (mth sha256 leaves) = true) ∧
    (verifyInclusion sha256 leaf index leaves.length proof (mth sha256 leaves) = true →
      (leaf = leaves[index] ∧ inclusionProof sha256 leaves index = .ok proof) ∨
      Collides (Function.uncurry (nodeHash sha256)) (mthPairs sha256 leaves)
        (computeRootPairs sha256 leaf index leaves.length proof 0)) := by
  obtain ⟨hgen, hverify⟩ := @verifyInclusion_complete sha256 leaves index _
    (List.getElem?_eq_getElem hidx)
  rw [hgen]
  constructor
  · rintro ⟨rfl, hp⟩
    obtain rfl := Except.ok.inj hp
    exact hverify
  · intro hroot
    rcases computeRoot_sound hidx ((verifyInclusion_iff hidx).mp hroot) with ⟨hleaf, hproof⟩ | hcol
    · left
      rw [List.getElem?_eq_getElem hidx] at hleaf
      rw [List.take_length, List.take_zero, List.nil_append] at hproof
      exact ⟨(Option.some.inj hleaf).symm, by rw [← hproof]⟩
    · exact Or.inr hcol

/-- Leaf 2 of a three-leaf tree, the leaf whose proof is shorter than the others'. -/
theorem verifyInclusion_odd_leaf :
    let leaves := [[], [1], [2]].map (leafHash Sha256.digest)
    verifyInclusion Sha256.digest (leafHash Sha256.digest [2]) 2 3
      [nodeHash Sha256.digest (leafHash Sha256.digest []) (leafHash Sha256.digest [1])]
      (mth Sha256.digest leaves) = true :=
  (verifyInclusion_complete_sound_unique Sha256.digest
    ([[], [1], [2]].map (leafHash Sha256.digest)) 2 (by decide) _ _).1
    ⟨rfl, by decide +kernel⟩

end Keepstone.Log
