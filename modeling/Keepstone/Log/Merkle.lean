import Keepstone.Lib.Bytes
import Keepstone.Lib.Collision
import Mathlib.Tactic.Ring

/-!
# The Merkle tree of the transparency log (`crates/log/src/merkle.rs`)

The tree hash, the two proof generators and the two proof verifiers, as written. SHA-256 is a
third-party crate, so it is a parameter `sha256`; everything below holds for every such function.

* `largestPowerOfTwoLess` (`merkle.rs:45-51`) is the doubling loop; `n` turns are more than it
  ever takes (`largestPowerOfTwoLess_spec`).
* `mth`, `path`, `computeRoot` recurse on the tree split at that power of two. `subproof` and
  `verifySubproof` do so under the guard `0 < m ≤ n` their callers establish
  (`merkle.rs:142-147`, `181-191`), which is an argument here: with it the `m == n` test fails
  only for `n ≥ 2`, so the recursion is well founded. (The Rust functions are private and would
  not return on `(0, 1)`.)
* The verifiers thread a cursor `pos` into the proof and return the position reached.
* `mthPairs`, `computeRootPairs` and `verifySubproofPairs` list the argument pairs the function
  of that name hands to `node_hash`, in call order. They state which collisions a computation
  exhibits.

`usize` is `Nat`: a slice of hashes has far fewer than `2^63` elements, so nothing wraps on the
sizes of real lists.
-/

namespace Keepstone.Log

open Keepstone.Lib

/-- A 32-byte SHA-256 hash. -/
abbrev Hash := Bytes 32

/-- `LogError`. -/
inductive LogError where
  | indexOutOfRange
  | proofInvalid
  | treeHeadInvalid
  deriving Repr, DecidableEq

/-- `Display` for `LogError`. -/
def LogError.text : LogError → String
  | indexOutOfRange => "index out of range"
  | proofInvalid => "proof verification failed"
  | treeHeadInvalid => "tree head verification failed"

/-! ## The split point -/

/-- The loop `while k * 2 < n { k *= 2; }`, at most `fuel` turns of it. -/
def doubleWhile (n : Nat) : Nat → Nat → Nat
  | 0, k => k
  | fuel + 1, k => if k * 2 < n then doubleWhile n fuel (k * 2) else k

/-- `largest_power_of_two_less`. -/
def largestPowerOfTwoLess (n : Nat) : Nat := doubleWhile n n 1

theorem doubleWhile_pow (n : Nat) :
    ∀ fuel j, ∃ i, doubleWhile n fuel (2 ^ j) = 2 ^ i
  | 0, j => ⟨j, rfl⟩
  | fuel + 1, j => by
    unfold doubleWhile
    split
    · exact doubleWhile_pow n fuel (j + 1)
    · exact ⟨j, rfl⟩

theorem doubleWhile_lt {n : Nat} : ∀ fuel {k}, k < n → doubleWhile n fuel k < n
  | 0, _, h => h
  | fuel + 1, k, h => by
    unfold doubleWhile
    split
    · rename_i hlt
      exact doubleWhile_lt fuel hlt
    · exact h

/-- With fuel for every doubling up to `n`, the loop has ended: doubling once more reaches `n`. -/
theorem le_doubleWhile {n : Nat} : ∀ fuel {k}, 0 < k → n ≤ k + fuel → n ≤ 2 * doubleWhile n fuel k
  | 0, k, _, hf => by
    unfold doubleWhile
    omega
  | fuel + 1, k, hk, hf => by
    unfold doubleWhile
    split
    · exact le_doubleWhile fuel (by omega) (by omega)
    · omega

/-- **The split point**: a power of two `k` with `k < n ≤ 2k`. -/
theorem largestPowerOfTwoLess_spec {n : Nat} (hn : 2 ≤ n) :
    (∃ i, largestPowerOfTwoLess n = 2 ^ i) ∧ largestPowerOfTwoLess n < n ∧
      n ≤ 2 * largestPowerOfTwoLess n :=
  ⟨doubleWhile_pow n n 0, doubleWhile_lt n (by omega), le_doubleWhile n (by omega) (by omega)⟩

theorem largestPowerOfTwoLess_lt {n : Nat} (hn : 2 ≤ n) : largestPowerOfTwoLess n < n :=
  (largestPowerOfTwoLess_spec hn).2.1

theorem largestPowerOfTwoLess_pos {n : Nat} (hn : 2 ≤ n) : 0 < largestPowerOfTwoLess n := by
  have := (largestPowerOfTwoLess_spec hn).2.2
  omega

/-- Two powers of two that bracket one number are equal. -/
theorem pow_two_unique {i j m : Nat} (hi : 2 ^ i < m ∧ m ≤ 2 * 2 ^ i)
    (hj : 2 ^ j < m ∧ m ≤ 2 * 2 ^ j) : (2 : Nat) ^ i = 2 ^ j := by
  have hle : ∀ {a b : Nat}, 2 ^ a < m → m ≤ 2 * 2 ^ b → a ≤ b := by
    intro a b ha hb
    have : 2 ^ a < 2 ^ (b + 1) := by rw [pow_succ]; omega
    have := (Nat.pow_lt_pow_iff_right (by omega)).mp this
    omega
  rw [le_antisymm (hle hi.1 hj.2) (hle hj.1 hi.2)]

/-- **The split is stable**: a size between the split point of `n` and `n` splits where `n`
does. This is why a prefix that reaches into the right subtree keeps the left one whole. -/
theorem largestPowerOfTwoLess_stable {m n : Nat} (hn : 2 ≤ n)
    (hlo : largestPowerOfTwoLess n < m) (hhi : m ≤ n) :
    largestPowerOfTwoLess m = largestPowerOfTwoLess n := by
  obtain ⟨⟨i, hi⟩, -, hn2⟩ := largestPowerOfTwoLess_spec hn
  have hpos := largestPowerOfTwoLess_pos hn
  have hm : 2 ≤ m := by omega
  obtain ⟨⟨j, hj⟩, hm1, hm2⟩ := largestPowerOfTwoLess_spec hm
  rw [hi, hj]
  exact pow_two_unique ⟨hj ▸ hm1, hj ▸ hm2⟩ ⟨hi ▸ hlo, hi ▸ hhi.trans hn2⟩

/-! ## The tree hash -/

section Tree

variable (sha256 : List UInt8 → Hash)

/-- `leaf_hash`: `SHA-256(0x00 || data)`. -/
def leafHash (data : List UInt8) : Hash := sha256 (0x00 :: data)

/-- `node_hash`: `SHA-256(0x01 || left || right)`. -/
def nodeHash (left right : Hash) : Hash := sha256 (0x01 :: (left.toList ++ right.toList))

/-- `mth`. -/
def mth : List Hash → Hash
  | [] => sha256 []
  | [leaf] => leaf
  | a :: b :: rest =>
    let k := largestPowerOfTwoLess (a :: b :: rest).length
    let left := mth ((a :: b :: rest).take k)
    let right := mth ((a :: b :: rest).drop k)
    nodeHash sha256 left right
termination_by leaves => leaves.length
decreasing_by
  · have := largestPowerOfTwoLess_lt (n := (a :: b :: rest).length) (by simp)
    rw [List.length_take]
    omega
  · have := largestPowerOfTwoLess_pos (n := (a :: b :: rest).length) (by simp)
    rw [List.length_drop]
    simp only [List.length_cons] at this ⊢
    omega

/-- `mth_data`. -/
def mthData (entries : List (List UInt8)) : Hash := mth sha256 (entries.map (leafHash sha256))

/-- The pairs `mth` hands to `node_hash`. -/
def mthPairs : List Hash → List (Hash × Hash)
  | [] => []
  | [_] => []
  | a :: b :: rest =>
    let k := largestPowerOfTwoLess (a :: b :: rest).length
    mthPairs ((a :: b :: rest).take k) ++ mthPairs ((a :: b :: rest).drop k) ++
      [(mth sha256 ((a :: b :: rest).take k), mth sha256 ((a :: b :: rest).drop k))]
termination_by leaves => leaves.length
decreasing_by
  · have := largestPowerOfTwoLess_lt (n := (a :: b :: rest).length) (by simp)
    rw [List.length_take]
    omega
  · have := largestPowerOfTwoLess_pos (n := (a :: b :: rest).length) (by simp)
    rw [List.length_drop]
    simp only [List.length_cons] at this ⊢
    omega

/-! ## Inclusion proofs -/

/-- `path`: the sibling hashes from the leaf up. -/
def path (leaves : List Hash) (index : Nat) : List Hash :=
  let n := leaves.length
  if _h : n ≤ 1 then []
  else
    let k := largestPowerOfTwoLess n
    let proof := if index < k then path (leaves.take k) index else path (leaves.drop k) (index - k)
    if index < k then proof ++ [mth sha256 (leaves.drop k)]
    else proof ++ [mth sha256 (leaves.take k)]
termination_by leaves.length
decreasing_by
  · have := largestPowerOfTwoLess_lt (n := leaves.length) (by omega)
    rw [List.length_take]
    omega
  · have := largestPowerOfTwoLess_pos (n := leaves.length) (by omega)
    rw [List.length_drop]
    omega

/-- `inclusion_proof`. -/
def inclusionProof (leaves : List Hash) (index : Nat) : Except LogError (List Hash) :=
  if leaves.length ≤ index then .error .indexOutOfRange else .ok (path sha256 leaves index)

/-- `compute_root`: the root and the proof position reached. -/
def computeRoot (leaf : Hash) (index n : Nat) (proof : List Hash) (pos : Nat) :
    Option (Hash × Nat) :=
  if _h0 : n = 0 then none
  else if _h1 : n = 1 then some (leaf, pos)
  else
    let k := largestPowerOfTwoLess n
    if index < k then do
      let (left, next) ← computeRoot leaf index k proof pos
      let right ← proof[next]?
      some (nodeHash sha256 left right, next + 1)
    else do
      let (right, next) ← computeRoot leaf (index - k) (n - k) proof pos
      let left ← proof[next]?
      some (nodeHash sha256 left right, next + 1)
termination_by n
decreasing_by
  · exact largestPowerOfTwoLess_lt (by omega)
  · have := largestPowerOfTwoLess_pos (n := n) (by omega)
    omega

/-- `verify_inclusion`. -/
def verifyInclusion (leaf : Hash) (index treeSize : Nat) (proof : List Hash) (root : Hash) : Bool :=
  if treeSize ≤ index || treeSize = 0 then false
  else
    match computeRoot sha256 leaf index treeSize proof 0 with
    | some (computed, used) => used = proof.length && computed = root
    | none => false

/-- The pairs `compute_root` hands to `node_hash` (also when it runs out of proof later). -/
def computeRootPairs (leaf : Hash) (index n : Nat) (proof : List Hash) (pos : Nat) :
    List (Hash × Hash) :=
  if _h : n ≤ 1 then []
  else
    let k := largestPowerOfTwoLess n
    if index < k then
      computeRootPairs leaf index k proof pos ++
        match computeRoot sha256 leaf index k proof pos with
        | some (left, next) => (proof[next]?.map fun right => (left, right)).toList
        | none => []
    else
      computeRootPairs leaf (index - k) (n - k) proof pos ++
        match computeRoot sha256 leaf (index - k) (n - k) proof pos with
        | some (right, next) => (proof[next]?.map fun left => (left, right)).toList
        | none => []
termination_by n
decreasing_by
  · exact largestPowerOfTwoLess_lt (by omega)
  · have := largestPowerOfTwoLess_pos (n := n) (by omega)
    omega

/-! ## Consistency proofs -/

/-- `subproof`, for `0 < m ≤ n`. -/
def subproof (m : Nat) (leaves : List Hash) (oldKnown : Bool) (h : 0 < m ∧ m ≤ leaves.length) :
    List Hash :=
  let n := leaves.length
  if _hmn : m = n then (if oldKnown then [] else [mth sha256 leaves])
  else
    let k := largestPowerOfTwoLess n
    if hk : m ≤ k then
      subproof m (leaves.take k) oldKnown (by rw [List.length_take]; omega) ++
        [mth sha256 (leaves.drop k)]
    else
      subproof (m - k) (leaves.drop k) false (by rw [List.length_drop]; omega) ++
        [mth sha256 (leaves.take k)]
termination_by leaves.length
decreasing_by
  · have := largestPowerOfTwoLess_lt (n := leaves.length) (by omega)
    rw [List.length_take]
    omega
  · have := largestPowerOfTwoLess_pos (n := leaves.length) (by omega)
    rw [List.length_drop]
    omega

/-- `consistency_proof`. -/
def consistencyProof (leaves : List Hash) (m : Nat) : Except LogError (List Hash) :=
  if h : m ≤ leaves.length then
    if h0 : m = 0 ∨ m = leaves.length then .ok []
    else .ok (subproof sha256 m leaves true ⟨by omega, h⟩)
  else .error .indexOutOfRange

/-- `verify_subproof`, for `0 < m ≤ n`: the old root, the new root and the position reached. -/
def verifySubproof (m n : Nat) (oldRoot : Hash) (proof : List Hash) (pos : Nat) (oldKnown : Bool)
    (h : 0 < m ∧ m ≤ n) : Option (Hash × Hash × Nat) :=
  if _hmn : m = n then
    if oldKnown then some (oldRoot, oldRoot, pos)
    else do
      let x ← proof[pos]?
      some (x, x, pos + 1)
  else
    let k := largestPowerOfTwoLess n
    if hk : m ≤ k then do
      let (old, newLeft, next) ← verifySubproof m k oldRoot proof pos oldKnown ⟨h.1, hk⟩
      let right ← proof[next]?
      some (old, nodeHash sha256 newLeft right, next + 1)
    else do
      let (oldRight, newRight, next) ←
        verifySubproof (m - k) (n - k) oldRoot proof pos false ⟨by omega, by omega⟩
      let left ← proof[next]?
      some (nodeHash sha256 left oldRight, nodeHash sha256 left newRight, next + 1)
termination_by n
decreasing_by
  · exact largestPowerOfTwoLess_lt (by omega)
  · have := largestPowerOfTwoLess_pos (n := n) (by omega)
    omega

/-- `verify_consistency`. -/
def verifyConsistency (m n : Nat) (oldRoot newRoot : Hash) (proof : List Hash) : Bool :=
  if hmn : n < m then false
  else if h0 : m = 0 then proof.isEmpty && oldRoot = mth sha256 []
  else if m = n then proof.isEmpty && oldRoot = newRoot
  else
    match verifySubproof sha256 m n oldRoot proof 0 true ⟨by omega, by omega⟩ with
    | some (old, new, used) => used = proof.length && old = oldRoot && new = newRoot
    | none => false

/-- The pairs `verify_subproof` hands to `node_hash`. -/
def verifySubproofPairs (m n : Nat) (oldRoot : Hash) (proof : List Hash) (pos : Nat)
    (oldKnown : Bool) (h : 0 < m ∧ m ≤ n) : List (Hash × Hash) :=
  if _hmn : m = n then []
  else
    let k := largestPowerOfTwoLess n
    if hk : m ≤ k then
      verifySubproofPairs m k oldRoot proof pos oldKnown ⟨h.1, hk⟩ ++
        match verifySubproof sha256 m k oldRoot proof pos oldKnown ⟨h.1, hk⟩ with
        | some (_, newLeft, next) => (proof[next]?.map fun right => (newLeft, right)).toList
        | none => []
    else
      verifySubproofPairs (m - k) (n - k) oldRoot proof pos false ⟨by omega, by omega⟩ ++
        match verifySubproof sha256 (m - k) (n - k) oldRoot proof pos false
            ⟨by omega, by omega⟩ with
        | some (oldRight, newRight, next) =>
          (proof[next]?.toList).flatMap fun left => [(left, oldRight), (left, newRight)]
        | none => []
termination_by n
decreasing_by
  · exact largestPowerOfTwoLess_lt (by omega)
  · have := largestPowerOfTwoLess_pos (n := n) (by omega)
    omega

/-- The pairs `verify_consistency` hands to `node_hash`: none on its three early exits. -/
def verifyConsistencyPairs (m n : Nat) (oldRoot : Hash) (proof : List Hash) :
    List (Hash × Hash) :=
  if h : 0 < m ∧ m < n then
    verifySubproofPairs sha256 m n oldRoot proof 0 true ⟨h.1, h.2.le⟩
  else []

/-! ## One level of the tree

The recursion equations of the functions above, one lemma a branch. Later proofs go through
these and never unfold a definition. -/

variable {sha256}

theorem take_succ_of_getElem? {α : Type*} {l : List α} {i : Nat} {x : α} (h : l[i]? = some x) :
    l.take (i + 1) = l.take i ++ [x] := by
  rw [List.take_add_one, h, Option.toList_some]

theorem length_take_split {leaves : List Hash} (hn : 2 ≤ leaves.length) :
    (leaves.take (largestPowerOfTwoLess leaves.length)).length =
      largestPowerOfTwoLess leaves.length := by
  rw [List.length_take]
  exact min_eq_left (largestPowerOfTwoLess_lt hn).le

theorem mth_singleton (leaf : Hash) : mth sha256 [leaf] = leaf := by rw [mth]

theorem mth_split {leaves : List Hash} (hn : 2 ≤ leaves.length) :
    mth sha256 leaves =
      nodeHash sha256 (mth sha256 (leaves.take (largestPowerOfTwoLess leaves.length)))
        (mth sha256 (leaves.drop (largestPowerOfTwoLess leaves.length))) := by
  match leaves, hn with
  | a :: b :: rest, _ => rw [mth]

theorem mthPairs_split {leaves : List Hash} (hn : 2 ≤ leaves.length) :
    mthPairs sha256 leaves =
      mthPairs sha256 (leaves.take (largestPowerOfTwoLess leaves.length)) ++
        mthPairs sha256 (leaves.drop (largestPowerOfTwoLess leaves.length)) ++
        [(mth sha256 (leaves.take (largestPowerOfTwoLess leaves.length)),
          mth sha256 (leaves.drop (largestPowerOfTwoLess leaves.length)))] := by
  match leaves, hn with
  | a :: b :: rest, _ => rw [mthPairs]

theorem mem_mthPairs_root {leaves : List Hash} (hn : 2 ≤ leaves.length) :
    (mth sha256 (leaves.take (largestPowerOfTwoLess leaves.length)),
      mth sha256 (leaves.drop (largestPowerOfTwoLess leaves.length))) ∈ mthPairs sha256 leaves := by
  rw [mthPairs_split hn]
  exact List.mem_append_right _ List.mem_cons_self

theorem mthPairs_take_sub {leaves : List Hash} (hn : 2 ≤ leaves.length) :
    ∀ p ∈ mthPairs sha256 (leaves.take (largestPowerOfTwoLess leaves.length)),
      p ∈ mthPairs sha256 leaves := by
  intro p hp
  rw [mthPairs_split hn]
  exact List.mem_append_left _ (List.mem_append_left _ hp)

theorem mthPairs_drop_sub {leaves : List Hash} (hn : 2 ≤ leaves.length) :
    ∀ p ∈ mthPairs sha256 (leaves.drop (largestPowerOfTwoLess leaves.length)),
      p ∈ mthPairs sha256 leaves := by
  intro p hp
  rw [mthPairs_split hn]
  exact List.mem_append_left _ (List.mem_append_right _ hp)

/-- A recorded pair with the tree's root hash is the pair the tree combined, or collides with
it. -/
theorem pair_or_collides {leaves : List Hash} (hn : 2 ≤ leaves.length)
    {pairs : List (Hash × Hash)} {left right : Hash} (hmem : (left, right) ∈ pairs)
    (heq : mth sha256 leaves = nodeHash sha256 left right) :
    (left = mth sha256 (leaves.take (largestPowerOfTwoLess leaves.length)) ∧
      right = mth sha256 (leaves.drop (largestPowerOfTwoLess leaves.length))) ∨
    Collides (Function.uncurry (nodeHash sha256)) (mthPairs sha256 leaves) pairs := by
  rw [mth_split hn] at heq
  rcases eq_or_collides (f := Function.uncurry (nodeHash sha256)) (mem_mthPairs_root hn) hmem heq
    with hpair | hcol
  · obtain ⟨hl, hr⟩ := Prod.mk.inj hpair
    exact Or.inl ⟨hl.symm, hr.symm⟩
  · exact Or.inr hcol

/-- **A tree of known size is bound by its root**: two lists of one length with one tree hash
are equal, or the two computations collide. -/
theorem mth_binding : ∀ {xs ys : List Hash}, xs.length = ys.length →
    mth sha256 xs = mth sha256 ys →
      xs = ys ∨ Collides (Function.uncurry (nodeHash sha256)) (mthPairs sha256 xs)
        (mthPairs sha256 ys) := by
  intro xs
  -- induction on the size; both lists split at the same place because they have one length
  induction hn : xs.length using Nat.strongRecOn generalizing xs with
  | ind n ih =>
  subst hn
  intro ys hlen heq
  rcases Nat.lt_or_ge xs.length 2 with hlt | h2
  · match xs, ys, hlt, hlen with
    | [], [], _, _ => exact Or.inl rfl
    | [x], [y], _, _ =>
      rw [mth_singleton, mth_singleton] at heq
      exact Or.inl (by rw [heq])
  · have h2' : 2 ≤ ys.length := hlen ▸ h2
    have hk := largestPowerOfTwoLess_lt h2
    have hk0 := largestPowerOfTwoLess_pos h2
    have htake := length_take_split h2
    rw [mth_split h2'] at heq
    rcases pair_or_collides h2 (mem_mthPairs_root h2') heq with ⟨hl, hr⟩ | hc
    · rw [← hlen] at hl hr
      rcases ih _ (by omega) htake (by rw [List.length_take]; omega) hl.symm with hL | hc
      · rcases ih _ (by rw [List.length_drop]; omega) rfl
          (by rw [List.length_drop, List.length_drop, hlen]) hr.symm with hR | hc
        · left
          rw [← List.take_append_drop (largestPowerOfTwoLess xs.length) xs, hL, hR,
            List.take_append_drop]
        · exact Or.inr (hc.mono (mthPairs_drop_sub h2) (hlen ▸ mthPairs_drop_sub h2'))
      · exact Or.inr (hc.mono (mthPairs_take_sub h2) (hlen ▸ mthPairs_take_sub h2'))
    · exact Or.inr hc

end Tree

end Keepstone.Log
