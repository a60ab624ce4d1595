import Keepstone.Lib.Sha256
import Keepstone.Log.Merkle

/-!
# Consistency proofs accept exactly honest extensions

`verifySubproof` rebuilds the old and the new root side by side. While the descent stays on left
subtrees the old tree *is* a left spine of the new one and `oldKnown` lets the old root stand for
it unproved; the first step to the right clears the flag, and both roots are rebuilt from proof
hashes from then on. Past the split point the old tree splits where the new one does
(`largestPowerOfTwoLess_stable`), which is what makes one sibling serve both.

Results:
* `verifySubproof_complete`: the honest proof rebuilds the prefix root and the new root;
* `verifySubproof_sound`: a walk that arrives at the two tree hashes forces the old list to be a
  prefix and the hashes read to be the honest proof, or exhibits a collision;
* **`verifyConsistency_accepts_exactly_extensions`**: both directions for `verify_consistency`,
  the exits `m = 0` and `m = n` included.
-/

namespace Keepstone.Log

open Keepstone.Lib

variable {sha256 : List UInt8 → Hash}

/-! ## One level of the generator and of the verifier -/

section Level

variable {m n pos used : Nat} {leaves proof : List Hash} {oldRoot old new : Hash}
  {oldKnown : Bool}

theorem subproof_self (h : 0 < m ∧ m ≤ leaves.length) (hm : m = leaves.length) :
    subproof sha256 m leaves oldKnown h = if oldKnown then [] else [mth sha256 leaves] := by
  rw [subproof, dif_pos hm]

theorem subproof_left (h : 0 < m ∧ m ≤ leaves.length) (hm : m ≠ leaves.length)
    (hk : m ≤ largestPowerOfTwoLess leaves.length)
    (h' : 0 < m ∧ m ≤ (leaves.take (largestPowerOfTwoLess leaves.length)).length) :
    subproof sha256 m leaves oldKnown h =
      subproof sha256 m (leaves.take (largestPowerOfTwoLess leaves.length)) oldKnown h' ++
        [mth sha256 (leaves.drop (largestPowerOfTwoLess leaves.length))] := by
  rw [subproof, dif_neg hm, dif_pos hk]

theorem subproof_right (h : 0 < m ∧ m ≤ leaves.length) (hm : m ≠ leaves.length)
    (hk : ¬ m ≤ largestPowerOfTwoLess leaves.length)
    (h' : 0 < m - largestPowerOfTwoLess leaves.length ∧ m - largestPowerOfTwoLess leaves.length ≤
      (leaves.drop (largestPowerOfTwoLess leaves.length)).length) :
    subproof sha256 m leaves oldKnown h =
      subproof sha256 (m - largestPowerOfTwoLess leaves.length)
          (leaves.drop (largestPowerOfTwoLess leaves.length)) false h' ++
        [mth sha256 (leaves.take (largestPowerOfTwoLess leaves.length))] := by
  rw [subproof, dif_neg hm, dif_neg hk]

theorem verifySubproof_self_known (h : 0 < m ∧ m ≤ n) (hm : m = n) :
    verifySubproof sha256 m n oldRoot proof pos true h = some (oldRoot, oldRoot, pos) := by
  rw [verifySubproof, dif_pos hm, if_pos rfl]

theorem verifySubproof_self_unknown_iff (h : 0 < m ∧ m ≤ n) (hm : m = n) :
    verifySubproof sha256 m n oldRoot proof pos false h = some (old, new, used) ↔
      proof[pos]? = some old ∧ new = old ∧ used = pos + 1 := by
  rw [verifySubproof, dif_pos hm, if_neg Bool.false_ne_true]
  simp only [Option.bind_eq_bind, Option.bind_eq_some_iff, Option.some.injEq, Prod.mk.injEq]
  constructor
  · rintro ⟨x, hx, rfl, rfl, rfl⟩
    exact ⟨hx, rfl, rfl⟩
  · rintro ⟨hx, rfl, rfl⟩
    exact ⟨new, hx, rfl, rfl, rfl⟩

theorem verifySubproof_left_iff (h : 0 < m ∧ m ≤ n) (hm : m ≠ n)
    (hk : m ≤ largestPowerOfTwoLess n) :
    verifySubproof sha256 m n oldRoot proof pos oldKnown h = some (old, new, used) ↔
      ∃ newLeft right next,
        verifySubproof sha256 m (largestPowerOfTwoLess n) oldRoot proof pos oldKnown ⟨h.1, hk⟩ =
          some (old, newLeft, next) ∧
        proof[next]? = some right ∧ new = nodeHash sha256 newLeft right ∧ used = next + 1 := by
  rw [verifySubproof, dif_neg hm, dif_pos hk]
  simp only [Option.bind_eq_bind, Option.bind_eq_some_iff, Prod.exists, Option.some.injEq,
    Prod.mk.injEq]
  constructor
  · rintro ⟨_, newLeft, next, hv, right, hr, rfl, rfl, rfl⟩
    exact ⟨newLeft, right, next, hv, hr, rfl, rfl⟩
  · rintro ⟨newLeft, right, next, hv, hr, rfl, rfl⟩
    exact ⟨old, newLeft, next, hv, right, hr, rfl, rfl, rfl⟩

theorem verifySubproof_right_iff (h : 0 < m ∧ m ≤ n) (hm : m ≠ n)
    (hk : ¬ m ≤ largestPowerOfTwoLess n)
    (h' : 0 < m - largestPowerOfTwoLess n ∧ m - largestPowerOfTwoLess n ≤
      n - largestPowerOfTwoLess n) :
    verifySubproof sha256 m n oldRoot proof pos oldKnown h = some (old, new, used) ↔
      ∃ oldRight newRight left next,
        verifySubproof sha256 (m - largestPowerOfTwoLess n) (n - largestPowerOfTwoLess n) oldRoot
          proof pos false h' = some (oldRight, newRight, next) ∧
        proof[next]? = some left ∧ old = nodeHash sha256 left oldRight ∧
        new = nodeHash sha256 left newRight ∧ used = next + 1 := by
  rw [verifySubproof, dif_neg hm, dif_neg hk]
  simp only [Option.bind_eq_bind, Option.bind_eq_some_iff, Prod.exists, Option.some.injEq,
    Prod.mk.injEq]
  constructor
  · rintro ⟨oldRight, newRight, next, hv, left, hl, rfl, rfl, rfl⟩
    exact ⟨oldRight, newRight, left, next, hv, hl, rfl, rfl, rfl⟩
  · rintro ⟨oldRight, newRight, left, next, hv, hl, rfl, rfl, rfl⟩
    exact ⟨oldRight, newRight, next, hv, left, hl, rfl, rfl, rfl⟩

theorem verifySubproofPairs_left {newLeft right : Hash} {next : Nat} (h : 0 < m ∧ m ≤ n)
    (hm : m ≠ n) (hk : m ≤ largestPowerOfTwoLess n)
    (hv : verifySubproof sha256 m (largestPowerOfTwoLess n) oldRoot proof pos oldKnown
      ⟨h.1, hk⟩ = some (old, newLeft, next)) (hr : proof[next]? = some right) :
    verifySubproofPairs sha256 m n oldRoot proof pos oldKnown h =
      verifySubproofPairs sha256 m (largestPowerOfTwoLess n) oldRoot proof pos oldKnown
          ⟨h.1, hk⟩ ++ [(newLeft, right)] := by
  rw [verifySubproofPairs, dif_neg hm, dif_pos hk, hv]
  simp only [hr, Option.map_some, Option.toList_some]

theorem verifySubproofPairs_right {oldRight newRight left : Hash} {next : Nat}
    (h : 0 < m ∧ m ≤ n) (hm : m ≠ n) (hk : ¬ m ≤ largestPowerOfTwoLess n)
    (h' : 0 < m - largestPowerOfTwoLess n ∧ m - largestPowerOfTwoLess n ≤
      n - largestPowerOfTwoLess n)
    (hv : verifySubproof sha256 (m - largestPowerOfTwoLess n) (n - largestPowerOfTwoLess n)
      oldRoot proof pos false h' = some (oldRight, newRight, next))
    (hl : proof[next]? = some left) :
    verifySubproofPairs sha256 m n oldRoot proof pos oldKnown h =
      verifySubproofPairs sha256 (m - largestPowerOfTwoLess n) (n - largestPowerOfTwoLess n)
          oldRoot proof pos false h' ++ [(left, oldRight), (left, newRight)] := by
  rw [verifySubproofPairs, dif_neg hm, dif_neg hk, hv]
  simp only [hl, Option.toList_some, List.flatMap_cons, List.flatMap_nil, List.append_nil]

end Level

/-- A prefix that reaches into the right subtree splits where the whole list does. -/
theorem mth_take_split {leaves : List Hash} {m : Nat} (hm : m ≤ leaves.length)
    (h2 : 2 ≤ leaves.length) (hk : largestPowerOfTwoLess leaves.length < m) :
    mth sha256 (leaves.take m) =
      nodeHash sha256 (mth sha256 (leaves.take (largestPowerOfTwoLess leaves.length)))
        (mth sha256 ((leaves.drop (largestPowerOfTwoLess leaves.length)).take
          (m - largestPowerOfTwoLess leaves.length))) := by
  have hlen : (leaves.take m).length = m := by rw [List.length_take]; omega
  have hpos := largestPowerOfTwoLess_pos h2
  rw [mth_split (by omega), hlen, largestPowerOfTwoLess_stable h2 hk hm, List.take_take,
    min_eq_left hk.le, List.drop_take]

/-! ## Completeness -/

/-- The honest proof, read from any position, rebuilds the prefix root and the new root. -/
theorem verifySubproof_complete : ∀ {n : Nat} {leaves : List Hash}, leaves.length = n →
    ∀ {m : Nat} {oldKnown : Bool} (oldRoot : Hash) (h : 0 < m ∧ m ≤ leaves.length)
      (hn : 0 < m ∧ m ≤ n), (oldKnown = true → oldRoot = mth sha256 (leaves.take m)) →
    ∀ pre post : List Hash,
      verifySubproof sha256 m n oldRoot (pre ++ subproof sha256 m leaves oldKnown h ++ post)
          pre.length oldKnown hn =
        some (mth sha256 (leaves.take m), mth sha256 leaves,
          pre.length + (subproof sha256 m leaves oldKnown h).length) := by
  intro n
  induction n using Nat.strongRecOn with
  | ind n ih =>
  rintro leaves rfl m oldKnown oldRoot h hn hold pre post
  by_cases hm : m = leaves.length
  · have htake : leaves.take m = leaves := List.take_of_length_le hm.ge
    rw [subproof_self h hm, htake]
    rw [htake] at hold
    cases oldKnown with
    | true =>
      rw [verifySubproof_self_known hn hm, hold rfl]
      rfl
    | false =>
      rw [verifySubproof_self_unknown_iff hn hm]
      refine ⟨?_, rfl, rfl⟩
      rw [List.append_assoc, List.getElem?_append_right (le_refl _)]
      simp
  · have h2 : 2 ≤ leaves.length := by omega
    have hlt := largestPowerOfTwoLess_lt h2
    have hpos := largestPowerOfTwoLess_pos h2
    have htlen := length_take_split h2
    by_cases hk : m ≤ largestPowerOfTwoLess leaves.length
    · have hsub : 0 < m ∧ m ≤ (leaves.take (largestPowerOfTwoLess leaves.length)).length := by
        omega
      have htake : (leaves.take (largestPowerOfTwoLess leaves.length)).take m = leaves.take m := by
        rw [List.take_take, min_eq_left hk]
      have hrec := ih _ hlt htlen oldRoot hsub ⟨h.1, hk⟩ (by rw [htake]; exact hold) pre
        ([mth sha256 (leaves.drop (largestPowerOfTwoLess leaves.length))] ++ post)
      rw [htake] at hrec
      rw [subproof_left h hm hk hsub, ← List.append_assoc pre, List.append_assoc _ _ post,
        verifySubproof_left_iff hn hm hk]
      refine ⟨_, _, _, hrec, ?_, mth_split h2, ?_⟩
      · rw [List.getElem?_append_right (by simp)]
        simp
      · simp only [List.length_append, List.length_singleton]
        omega
    · have hdlen : (leaves.drop (largestPowerOfTwoLess leaves.length)).length =
          leaves.length - largestPowerOfTwoLess leaves.length := List.length_drop
      have hsub : 0 < m - largestPowerOfTwoLess leaves.length ∧
          m - largestPowerOfTwoLess leaves.length ≤
            (leaves.drop (largestPowerOfTwoLess leaves.length)).length := by omega
      have hrec := ih _ (by omega) hdlen oldRoot hsub (hdlen ▸ hsub)
        (fun hf => absurd hf Bool.false_ne_true) pre
        ([mth sha256 (leaves.take (largestPowerOfTwoLess leaves.length))] ++ post)
      rw [subproof_right h hm hk hsub, ← List.append_assoc pre, List.append_assoc _ _ post,
        verifySubproof_right_iff hn hm hk (hdlen ▸ hsub)]
      refine ⟨_, _, _, _, hrec, ?_, mth_take_split h.2 h2 (by omega), mth_split h2, ?_⟩
      · rw [List.getElem?_append_right (by simp)]
        simp
      · simp only [List.length_append, List.length_singleton]
        omega

/-! ## Soundness -/

theorem eq_take_of_split {old new : List Hash} {k : Nat} (hk : k ≤ old.length)
    (hL : old.take k = new.take k) (hR : old.drop k = (new.drop k).take (old.length - k)) :
    old = new.take old.length :=
  calc old = old.take k ++ old.drop k := (List.take_append_drop k old).symm
    _ = new.take k ++ (new.drop k).take (old.length - k) := by rw [hL, hR]
    _ = new.take (k + (old.length - k)) := List.take_add.symm
    _ = new.take old.length := by rw [Nat.add_sub_cancel' hk]

/-- At one size, the walk compares the two tree hashes, directly or through the hash it reads. -/
theorem verifySubproof_self_sound {old new proof : List Hash} {oldKnown : Bool} {oldRoot : Hash}
    {pos used : Nat} (h : 0 < old.length ∧ old.length ≤ new.length) (hm : old.length = new.length)
    (hv : verifySubproof sha256 old.length new.length oldRoot proof pos oldKnown h =
      some (mth sha256 old, mth sha256 new, used)) :
    mth sha256 old = mth sha256 new ∧
      proof.take used = proof.take pos ++ subproof sha256 old.length new oldKnown h := by
  rw [subproof_self h hm]
  cases oldKnown with
  | true =>
    rw [verifySubproof_self_known h hm] at hv
    simp only [Option.some.injEq, Prod.mk.injEq] at hv
    obtain ⟨ho, hne, rfl⟩ := hv
    refine ⟨ho.symm.trans hne, ?_⟩
    rw [if_pos rfl, List.append_nil]
  | false =>
    obtain ⟨hx, hne, rfl⟩ := (verifySubproof_self_unknown_iff h hm).mp hv
    refine ⟨hne.symm, ?_⟩
    rw [if_neg Bool.false_ne_true, take_succ_of_getElem? hx, hne]

/-- Past the split point the old list splits where the new one does: one left hash combined with
two right ones to the two roots pins the common left part, or pairs collide. -/
theorem right_split_binding {old new : List Hash} {left oldRight newRight : Hash}
    {pairs : List (Hash × Hash)} (h2 : 2 ≤ new.length)
    (hk : largestPowerOfTwoLess new.length < old.length) (hle : old.length ≤ new.length)
    (hpo : ∀ p ∈ mthPairs sha256 old, p ∈ pairs) (hpn : ∀ p ∈ mthPairs sha256 new, p ∈ pairs)
    (hmemo : (left, oldRight) ∈ pairs) (hmemn : (left, newRight) ∈ pairs)
    (heqo : mth sha256 old = nodeHash sha256 left oldRight)
    (heqn : mth sha256 new = nodeHash sha256 left newRight) :
    (old.take (largestPowerOfTwoLess new.length) = new.take (largestPowerOfTwoLess new.length) ∧
      left = mth sha256 (new.take (largestPowerOfTwoLess new.length)) ∧
      oldRight = mth sha256 (old.drop (largestPowerOfTwoLess new.length)) ∧
      newRight = mth sha256 (new.drop (largestPowerOfTwoLess new.length))) ∨
    Collides (Function.uncurry (nodeHash sha256)) pairs pairs := by
  have hpos := largestPowerOfTwoLess_pos h2
  have ho2 : 2 ≤ old.length := by omega
  have hstable := largestPowerOfTwoLess_stable h2 hk hle
  rcases pair_or_collides ho2 hmemo heqo with ⟨hlo, hro⟩ | hcol
  · rcases pair_or_collides h2 hmemn heqn with ⟨hln, hrn⟩ | hcol
    · rw [hstable] at hlo hro
      have hlen : (old.take (largestPowerOfTwoLess new.length)).length =
          (new.take (largestPowerOfTwoLess new.length)).length := by
        rw [length_take_split h2, List.length_take]
        omega
      rcases mth_binding hlen (hlo.symm.trans hln) with hL | hcol
      · exact Or.inl ⟨hL, hln, hro, hrn⟩
      · exact Or.inr (hcol.mono (fun p hp => hpo p (mthPairs_take_sub ho2 p (hstable ▸ hp)))
          fun p hp => hpn p (mthPairs_take_sub h2 p hp))
    · exact Or.inr (hcol.mono hpn fun _ hp => hp)
  · exact Or.inr (hcol.mono hpo fun _ hp => hp)

/-- **Arriving at the two tree hashes pins the prefix and every hash read.** `pairs` collects
what the two tree hashes and the walk combine; the old list is a prefix of the new one and the
hashes read are the honest proof, or two different pairs of it have one `node_hash`. -/
theorem verifySubproof_sound : ∀ {n : Nat} {new : List Hash}, new.length = n →
    ∀ {old proof : List Hash} {oldKnown : Bool} {oldRoot : Hash} {pos used : Nat}
      {pairs : List (Hash × Hash)} (h : 0 < old.length ∧ old.length ≤ new.length)
      (hn : 0 < old.length ∧ old.length ≤ n), (oldKnown = true → oldRoot = mth sha256 old) →
    verifySubproof sha256 old.length n oldRoot proof pos oldKnown hn =
      some (mth sha256 old, mth sha256 new, used) →
    (∀ p ∈ mthPairs sha256 old, p ∈ pairs) → (∀ p ∈ mthPairs sha256 new, p ∈ pairs) →
    (∀ p ∈ verifySubproofPairs sha256 old.length n oldRoot proof pos oldKnown hn, p ∈ pairs) →
      (old = new.take old.length ∧
        proof.take used = proof.take pos ++ subproof sha256 old.length new oldKnown h) ∨
      Collides (Function.uncurry (nodeHash sha256)) pairs pairs := by
  intro n
  induction n using Nat.strongRecOn with
  | ind n ih =>
  rintro new rfl old proof oldKnown oldRoot pos used pairs h hn hold hv hpo hpn hpv
  by_cases hm : old.length = new.length
  · obtain ⟨hroot, hproof⟩ := verifySubproof_self_sound h hm hv
    rcases mth_binding hm hroot with heq | hcol
    · exact Or.inl ⟨by rw [hm, List.take_length]; exact heq, hproof⟩
    · exact Or.inr (hcol.mono hpo hpn)
  · have h2 : 2 ≤ new.length := by omega
    have hlt := largestPowerOfTwoLess_lt h2
    have hpos := largestPowerOfTwoLess_pos h2
    have htlen := length_take_split h2
    by_cases hk : old.length ≤ largestPowerOfTwoLess new.length
    · -- the old list lies in the left subtree
      obtain ⟨newLeft, right, next, hvl, hr, heq, rfl⟩ := (verifySubproof_left_iff hn hm hk).mp hv
      rw [verifySubproofPairs_left hn hm hk hvl hr] at hpv
      have hmem : (newLeft, right) ∈ pairs := hpv _ (List.mem_append_right _ List.mem_cons_self)
      rcases pair_or_collides h2 hmem heq with ⟨rfl, rfl⟩ | hcol
      · have hsub : 0 < old.length ∧
            old.length ≤ (new.take (largestPowerOfTwoLess new.length)).length := by omega
        rcases ih _ hlt htlen hsub ⟨h.1, hk⟩ hold hvl hpo
          (fun p hp => hpn p (mthPairs_take_sub h2 p hp))
          (fun p hp => hpv p (List.mem_append_left _ hp)) with ⟨hpre, hproof⟩ | hcol
        · left
          rw [List.take_take, min_eq_left hk] at hpre
          rw [take_succ_of_getElem? hr, hproof, subproof_left h hm hk hsub, List.append_assoc]
          exact ⟨hpre, rfl⟩
        · exact Or.inr hcol
      · exact Or.inr (hcol.mono hpn fun _ hp => hp)
    · -- the old list reaches into the right subtree
      have hdlen : (new.drop (largestPowerOfTwoLess new.length)).length =
          new.length - largestPowerOfTwoLess new.length := List.length_drop
      have hodlen : (old.drop (largestPowerOfTwoLess new.length)).length =
          old.length - largestPowerOfTwoLess new.length := List.length_drop
      have hsub : 0 < (old.drop (largestPowerOfTwoLess new.length)).length ∧
          (old.drop (largestPowerOfTwoLess new.length)).length ≤
            (new.drop (largestPowerOfTwoLess new.length)).length := by omega
      have hstable := largestPowerOfTwoLess_stable h2 (by omega) h.2
      have ho2 : 2 ≤ old.length := by omega
      obtain ⟨oldRight, newRight, left, next, hvr, hl, heqo, heqn, rfl⟩ :=
        (verifySubproof_right_iff hn hm hk (hodlen ▸ hdlen ▸ hsub)).mp hv
      rw [verifySubproofPairs_right hn hm hk (hodlen ▸ hdlen ▸ hsub) hvr hl] at hpv
      have hmemo : (left, oldRight) ∈ pairs :=
        hpv _ (List.mem_append_right _ List.mem_cons_self)
      have hmemn : (left, newRight) ∈ pairs :=
        hpv _ (List.mem_append_right _ (List.mem_cons_of_mem _ List.mem_cons_self))
      rcases right_split_binding h2 (not_le.mp hk) h.2 hpo hpn hmemo hmemn heqo heqn with
        ⟨hL, hln, rfl, rfl⟩ | hcol
      · have hvr' := hvr
        simp only [← hodlen] at hvr'
        rcases ih _ (by omega) hdlen hsub (hdlen ▸ hsub)
          (fun hf => absurd hf Bool.false_ne_true) hvr'
          (fun p hp => hpo p (mthPairs_drop_sub ho2 p (hstable ▸ hp)))
          (fun p hp => hpn p (mthPairs_drop_sub h2 p hp))
          (fun p hp => hpv p (List.mem_append_left _ (by simpa only [hodlen] using hp)))
          with ⟨hpre, hproof⟩ | hcol
        · simp only [hodlen] at hpre hproof
          refine Or.inl ⟨eq_take_of_split (by omega) hL hpre, ?_⟩
          rw [take_succ_of_getElem? hl, hproof, subproof_right h hm hk (hodlen ▸ hsub),
            List.append_assoc, hln]
        · exact Or.inr hcol
      · exact Or.inr hcol

/-! ## `verify_consistency` -/

/-- What `verify_consistency` checks, by size: nothing is read for `m = 0` and `m = n`. -/
theorem verifyConsistency_iff {m n : Nat} {oldRoot newRoot : Hash} {proof : List Hash} :
    verifyConsistency sha256 m n oldRoot newRoot proof = true ↔
      (m = 0 ∧ proof = [] ∧ oldRoot = mth sha256 []) ∨
      (0 < m ∧ m = n ∧ proof = [] ∧ oldRoot = newRoot) ∨
      ∃ h : 0 < m ∧ m < n, verifySubproof sha256 m n oldRoot proof 0 true ⟨h.1, h.2.le⟩ =
        some (oldRoot, newRoot, proof.length) := by
  unfold verifyConsistency
  by_cases hmn : n < m
  · rw [dif_pos hmn]
    constructor
    · intro h
      exact absurd h Bool.false_ne_true
    · rintro (⟨h, -⟩ | ⟨-, h, -⟩ | ⟨h, -⟩) <;> omega
  · rw [dif_neg hmn]
    by_cases h0 : m = 0
    · rw [dif_pos h0]
      simp only [Bool.and_eq_true, List.isEmpty_iff, decide_eq_true_eq]
      constructor
      · rintro ⟨hp, ho⟩
        exact Or.inl ⟨h0, hp, ho⟩
      · rintro (⟨-, h⟩ | ⟨h, -⟩ | ⟨h, -⟩)
        · exact h
        · omega
        · omega
    · rw [dif_neg h0]
      by_cases heq : m = n
      · rw [if_pos heq]
        simp only [Bool.and_eq_true, List.isEmpty_iff, decide_eq_true_eq]
        constructor
        · rintro ⟨hp, ho⟩
          exact Or.inr (Or.inl ⟨by omega, heq, hp, ho⟩)
        · rintro (⟨h, -⟩ | ⟨-, -, h⟩ | ⟨h, -⟩)
          · omega
          · exact h
          · omega
      · rw [if_neg heq]
        constructor
        · intro h
          refine Or.inr (Or.inr ⟨⟨by omega, by omega⟩, ?_⟩)
          split at h
          · rename_i old new used hv
            simp only [Bool.and_eq_true, decide_eq_true_eq] at h
            obtain ⟨⟨rfl, rfl⟩, rfl⟩ := h
            exact hv
          · exact absurd h Bool.false_ne_true
        · rintro (⟨h, -⟩ | ⟨-, h, -⟩ | ⟨h, hv⟩)
          · omega
          · omega
          · rw [hv]
            simp

/-- **The generated proof verifies** for every prefix, the empty one and the whole list
included. -/
theorem verifyConsistency_complete {new : List Hash} {m : Nat} (hm : m ≤ new.length) :
    ∃ proof, consistencyProof sha256 new m = .ok proof ∧
      verifyConsistency sha256 m new.length (mth sha256 (new.take m)) (mth sha256 new) proof =
        true := by
  by_cases h0 : m = 0 ∨ m = new.length
  · refine ⟨[], by rw [consistencyProof, dif_pos hm, dif_pos h0], ?_⟩
    rw [verifyConsistency_iff]
    rcases Nat.eq_zero_or_pos m with rfl | hpos
    · exact Or.inl ⟨rfl, rfl, by rw [List.take_zero]⟩
    · have hmn : m = new.length := by omega
      exact Or.inr (Or.inl ⟨hpos, hmn, rfl, by rw [hmn, List.take_length]⟩)
  · refine ⟨_, by rw [consistencyProof, dif_pos hm, dif_neg h0], ?_⟩
    rw [verifyConsistency_iff]
    have hv : verifySubproof sha256 m new.length (mth sha256 (new.take m))
        ([] ++ subproof sha256 m new true ⟨by omega, hm⟩ ++ []) 0 true ⟨by omega, hm⟩ = _ :=
      verifySubproof_complete rfl _ _ _ (fun _ => rfl) [] []
    refine Or.inr (Or.inr ⟨⟨by omega, by omega⟩, ?_⟩)
    simpa using hv

/-- The pairs handed to `node_hash` while the two tree hashes are computed and while the proof
is verified against them. -/
def consistencyCheckPairs (sha256 : List UInt8 → Hash) (old new proof : List Hash) :
    List (Hash × Hash) :=
  mthPairs sha256 old ++ mthPairs sha256 new ++
    verifyConsistencyPairs sha256 old.length new.length (mth sha256 old) proof

/-- **Consistency proofs accept exactly honest extensions.** The generated proof for a prefix
verifies against the prefix's and the whole list's tree hashes; and whatever is accepted for the
tree hashes of `old` and `new` shows `old` to be a prefix of `new` and is the generated proof,
unless the computations of the two tree hashes and of the verification combined two different
pairs with one `node_hash`. -/
theorem verifyConsistency_accepts_exactly_extensions (sha256 : List UInt8 → Hash) :
    (∀ (new : List Hash) (m : Nat), m ≤ new.length →
      ∃ proof, consistencyProof sha256 new m = .ok proof ∧
        verifyConsistency sha256 m new.length (mth sha256 (new.take m)) (mth sha256 new) proof =
          true) ∧
    (∀ old new proof : List Hash,
      verifyConsistency sha256 old.length new.length (mth sha256 old) (mth sha256 new) proof =
        true →
      (old.length ≤ new.length ∧ old = new.take old.length ∧
        consistencyProof sha256 new old.length = .ok proof) ∨
      Collides (Function.uncurry (nodeHash sha256)) (consistencyCheckPairs sha256 old new proof)
        (consistencyCheckPairs sha256 old new proof)) := by
  constructor
  · exact fun new m hm => verifyConsistency_complete hm
  · intro old new proof hacc
    have hold : ∀ p ∈ mthPairs sha256 old, p ∈ consistencyCheckPairs sha256 old new proof :=
      fun p hp => List.mem_append_left _ (List.mem_append_left _ hp)
    have hnew : ∀ p ∈ mthPairs sha256 new, p ∈ consistencyCheckPairs sha256 old new proof :=
      fun p hp => List.mem_append_left _ (List.mem_append_right _ hp)
    rcases verifyConsistency_iff.mp hacc with ⟨h0, rfl, -⟩ | ⟨hpos, hlen, rfl, heq⟩ | ⟨h, hv⟩
    · left
      rw [h0, consistencyProof, dif_pos (Nat.zero_le _), dif_pos (Or.inl rfl), List.take_zero]
      exact ⟨Nat.zero_le _, List.length_eq_zero_iff.mp h0, rfl⟩
    · rcases mth_binding hlen heq with rfl | hcol
      · left
        rw [consistencyProof, dif_pos (le_refl _), dif_pos (Or.inr rfl), List.take_length]
        exact ⟨le_refl _, rfl, rfl⟩
      · exact Or.inr (hcol.mono hold hnew)
    · rcases verifySubproof_sound rfl ⟨h.1, h.2.le⟩ ⟨h.1, h.2.le⟩ (fun _ => rfl) hv hold hnew
        (fun p hp => List.mem_append_right _ (by rw [verifyConsistencyPairs, dif_pos h]; exact hp))
        with ⟨hpre, hproof⟩ | hcol
      · left
        rw [List.take_length, List.take_zero, List.nil_append] at hproof
        rw [consistencyProof, dif_pos h.2.le, dif_neg (by omega), ← hproof]
        exact ⟨h.2.le, hpre, rfl⟩
      · exact Or.inr hcol

/-- The first two of three leaves: the old tree is the left subtree, and the proof is the third
leaf alone. -/
theorem verifyConsistency_left_subtree :
    let leaves := [[], [1], [2]].map (leafHash Sha256.digest)
    ∃ proof, consistencyProof Sha256.digest leaves 2 = .ok proof ∧
      verifyConsistency Sha256.digest 2 leaves.length (mth Sha256.digest (leaves.take 2))
        (mth Sha256.digest leaves) proof = true :=
  (verifyConsistency_accepts_exactly_extensions Sha256.digest).1 _ 2 (by decide)

end Keepstone.Log
