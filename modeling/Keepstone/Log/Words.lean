import Keepstone.Lib.Except
import Keepstone.Lib.Sha256
import Keepstone.Log.Merkle

/-!
# Verifying proofs in machine words (`crates/log/src/merkle.rs:44-51, 90-131, 171-227`)

The sizes of a tree head come from a peer and are any 64-bit words. Here `usize` is `UInt64`, as on a
64-bit target, and every addition, subtraction and multiplication of the verifiers is written out: a
debug build panics where one wraps, a release build goes on with the wrapped word. `fuel` is the
number of turns and calls that are allowed.

`largest_power_of_two_less` tests `k * 2 < n`, and at `k = 2^63` the product wraps. In a release
build it is then `0`, which is less than `n`, and doubling `0` never ends.

Results:
* `splitLoop_ne_ok`, `splitLoop_returns`: when the loop ends;
* `computeRoot_returns`, `verifySubproof_returns`: below, the verifiers are those on numbers;
* **`verifiers_return_iff`**: for which sizes the verifiers return.
-/

namespace Keepstone.Log.Words

open Keepstone.Lib

/-- How the program was built. -/
inductive Build where
  /-- A wrapping operation panics. -/
  | debug
  /-- It wraps. -/
  | release
  deriving DecidableEq

/-- Why there is no result. -/
inductive Stop where
  | overflow
  /-- More turns or calls than were allowed. -/
  | unfinished
  deriving DecidableEq

/-- A slice of hashes: its length is a word. -/
structure Slice where
  hashes : List Hash
  fits : hashes.length < 2 ^ 64

/-- `len`. -/
def Slice.len (slice : Slice) : UInt64 := UInt64.ofNat slice.hashes.length

/-- A function that returns an `Option`, and may stop on the way. -/
abbrev Checked := OptionT (Except Stop)

/-- `get`. -/
def Slice.get (slice : Slice) (index : UInt64) : Checked Hash :=
  OptionT.mk (.ok slice.hashes[index.toNat]?)

section Operations

variable (build : Build) (a b : UInt64)

/-- The result of an operation, if it is exact or may wrap. -/
def exactly (exact : Prop) [Decidable exact] (word : UInt64) : Except Stop UInt64 :=
  if exact ∨ build = .release then .ok word else .error .overflow

/-- `a + b`. -/
def add : Except Stop UInt64 := exactly build (a.toNat + b.toNat < 2 ^ 64) (a + b)

/-- `a - b`. -/
def sub : Except Stop UInt64 := exactly build (b.toNat ≤ a.toNat) (a - b)

/-- `a * b`. -/
def mul : Except Stop UInt64 := exactly build (a.toNat * b.toNat < 2 ^ 64) (a * b)

variable {build a b}

theorem add_eq (h : a.toNat + b.toNat < 2 ^ 64) :
    ∃ c, add build a b = .ok c ∧ c.toNat = a.toNat + b.toNat :=
  ⟨a + b, if_pos (Or.inl h), (UInt64.toNat_add a b).trans (Nat.mod_eq_of_lt h)⟩

theorem sub_eq (h : b.toNat ≤ a.toNat) :
    ∃ c, sub build a b = .ok c ∧ c.toNat = a.toNat - b.toNat :=
  ⟨a - b, if_pos (Or.inl h), UInt64.toNat_sub_of_le _ _ h⟩

theorem mul_eq (h : a.toNat * b.toNat < 2 ^ 64) :
    ∃ c, mul build a b = .ok c ∧ c.toNat = a.toNat * b.toNat :=
  ⟨a * b, if_pos (Or.inl h), (UInt64.toNat_mul a b).trans (Nat.mod_eq_of_lt h)⟩

theorem mul_ok {c : UInt64} (h : mul build a b = .ok c) : c = a * b := by
  unfold mul exactly at h
  split_ifs at h
  exact (Except.ok.inj h).symm

end Operations

/-! ## The functions -/

section Functions

variable (build : Build)

/-- The loop of `largest_power_of_two_less`. -/
def splitLoop (n : UInt64) : Nat → UInt64 → Except Stop UInt64
  | 0, _ => .error .unfinished
  | fuel + 1, k => do
    if (← mul build k 2) < n then
      let k ← mul build k 2
      splitLoop n fuel k
    else .ok k

/-- `largest_power_of_two_less`. -/
def largestPowerOfTwoLess (fuel : Nat) (n : UInt64) : Except Stop UInt64 := splitLoop build n fuel 1

variable (sha256 : List UInt8 → Hash)

/-- `compute_root`. -/
def computeRoot (leaf : Hash) (proof : Slice) :
    Nat → UInt64 → UInt64 → UInt64 → Checked (Hash × UInt64)
  | 0, _, _, _ => OptionT.mk (.error .unfinished)
  | fuel + 1, index, n, pos =>
    if n = 0 then failure
    else if n = 1 then pure (leaf, pos)
    else do
      let k ← largestPowerOfTwoLess build fuel n
      if index < k then
        let (left, next) ← computeRoot leaf proof fuel index k pos
        let right ← proof.get next
        let next ← add build next 1
        pure (nodeHash sha256 left right, next)
      else
        let index ← sub build index k
        let n ← sub build n k
        let (right, next) ← computeRoot leaf proof fuel index n pos
        let left ← proof.get next
        let next ← add build next 1
        pure (nodeHash sha256 left right, next)

/-- `verify_inclusion`. -/
def verifyInclusion (fuel : Nat) (leaf : Hash) (index treeSize : UInt64) (proof : Slice)
    (root : Hash) : Except Stop Bool :=
  if treeSize ≤ index ∨ treeSize = 0 then .ok false
  else do
    match ← (computeRoot build sha256 leaf proof fuel index treeSize 0).run with
    | some (computed, used) => .ok (used = proof.len && computed = root)
    | none => .ok false

/-- `verify_subproof`. -/
def verifySubproof (oldRoot : Hash) (proof : Slice) :
    Nat → UInt64 → UInt64 → UInt64 → Bool → Checked (Hash × Hash × UInt64)
  | 0, _, _, _, _ => OptionT.mk (.error .unfinished)
  | fuel + 1, m, n, pos, oldKnown =>
    if m = n then
      if oldKnown then pure (oldRoot, oldRoot, pos)
      else do
        let h ← proof.get pos
        let next ← add build pos 1
        pure (h, h, next)
    else do
      let k ← largestPowerOfTwoLess build fuel n
      if m ≤ k then
        let (old, newLeft, next) ← verifySubproof oldRoot proof fuel m k pos oldKnown
        let right ← proof.get next
        let next ← add build next 1
        pure (old, nodeHash sha256 newLeft right, next)
      else
        let m ← sub build m k
        let n ← sub build n k
        let (oldRight, newRight, next) ← verifySubproof oldRoot proof fuel m n pos false
        let left ← proof.get next
        let next ← add build next 1
        pure (nodeHash sha256 left oldRight, nodeHash sha256 left newRight, next)

/-- `verify_consistency`. -/
def verifyConsistency (fuel : Nat) (m n : UInt64) (oldRoot newRoot : Hash) (proof : Slice) :
    Except Stop Bool :=
  if n < m then .ok false
  else if m = 0 then .ok (proof.hashes.isEmpty && oldRoot = mth sha256 [])
  else if m = n then .ok (proof.hashes.isEmpty && oldRoot = newRoot)
  else do
    match ← (verifySubproof build sha256 oldRoot proof fuel m n 0 true).run with
    | some (old, new, used) => .ok (used = proof.len && old = oldRoot && new = newRoot)
    | none => .ok false

end Functions

/-! ## The loop -/

section Loop

variable {build : Build} {n : UInt64}

/-- The words that doubling `1` goes through. -/
def Doubled (k : UInt64) : Prop := k = 0 ∨ ∃ i < 64, k = UInt64.ofNat (2 ^ i)

theorem Doubled.mul_two {k : UInt64} (h : Doubled k) : Doubled (k * 2) := by
  rcases h with rfl | ⟨i, hi, rfl⟩
  · exact Or.inl rfl
  · rcases Nat.lt_or_ge (i + 1) 64 with hlt | hge
    · refine Or.inr ⟨i + 1, hlt, ?_⟩
      rw [pow_succ, UInt64.ofNat_mul]
      rfl
    · obtain rfl : i = 63 := by omega
      exact Or.inl (by decide)

theorem Doubled.lt {k : UInt64} (h : Doubled k) (hn : 2 ^ 63 < n.toNat) : k < n := by
  rw [UInt64.lt_iff_toNat_lt]
  rcases h with rfl | ⟨i, hi, rfl⟩
  · exact Nat.lt_of_le_of_lt (Nat.zero_le _) hn
  · have hle : 2 ^ i ≤ 2 ^ 63 := Nat.pow_le_pow_right (by omega) (by omega)
    rw [UInt64.toNat_ofNat', Nat.mod_eq_of_lt (by omega)]
    omega

/-- **The loop never ends on a size above `2^63`.** -/
theorem splitLoop_ne_ok (hn : 2 ^ 63 < n.toNat) {k : UInt64} (hk : Doubled k) (fuel : Nat)
    (result : UInt64) : splitLoop build n fuel k ≠ .ok result := by
  induction fuel generalizing k with
  | zero => exact nofun
  | succ fuel ih =>
    intro h
    simp only [splitLoop, bind_ok_iff] at h
    obtain ⟨twice, htwice, h⟩ := h
    obtain rfl := mul_ok htwice
    rw [if_pos (hk.mul_two.lt hn), bind_ok_iff] at h
    obtain ⟨_, hagain, h⟩ := h
    obtain rfl := mul_ok hagain
    exact ih hk.mul_two h

/-- Up to `2^63`, the loop is the one on numbers. -/
theorem splitLoop_returns (hn : n.toNat ≤ 2 ^ 63) {fuel more : Nat} {k : UInt64}
    (hk : k.toNat < n.toNat) (hfuel : n.toNat ≤ k.toNat * 2 ^ fuel)
    (hmore : n.toNat ≤ k.toNat * 2 ^ more) :
    ∃ k', splitLoop build n fuel k = .ok k' ∧ k'.toNat = doubleWhile n.toNat more k.toNat := by
  induction fuel generalizing more k with
  | zero => omega
  | succ fuel ih =>
    cases more with
    | zero => omega
    | succ more =>
      have hfits : k.toNat * (2 : UInt64).toNat < 2 ^ 64 := by
        change k.toNat * 2 < 2 ^ 64
        omega
      obtain ⟨twice, htwice, hnat⟩ := @mul_eq build k 2 hfits
      change twice.toNat = k.toNat * 2 at hnat
      rw [pow_succ'] at hfuel hmore
      rw [doubleWhile, splitLoop]
      simp only [htwice]
      change ∃ k', (if twice < n then splitLoop build n fuel twice else .ok k) = .ok k' ∧ _
      have hiff : twice < n ↔ k.toNat * 2 < n.toNat := by
        rw [UInt64.lt_iff_toNat_lt, hnat]
      by_cases hlt : k.toNat * 2 < n.toNat
      · rw [if_pos (hiff.mpr hlt), if_pos hlt, ← hnat]
        refine ih (hnat ▸ hlt) ?_ ?_
        · rwa [hnat, Nat.mul_assoc]
        · rwa [hnat, Nat.mul_assoc]
      · rw [if_neg (mt hiff.mp hlt), if_neg hlt]
        exact ⟨k, rfl, rfl⟩

/-- `largest_power_of_two_less`, up to `2^63`. -/
theorem largestPowerOfTwoLess_returns (hn : n.toNat ≤ 2 ^ 63) (htwo : 2 ≤ n.toNat) {fuel : Nat}
    (hfuel : n.toNat ≤ fuel) :
    ∃ k, largestPowerOfTwoLess build fuel n = .ok k ∧
      k.toNat = Log.largestPowerOfTwoLess n.toNat := by
  have hpow : ∀ turns, n.toNat ≤ turns → n.toNat ≤ (1 : UInt64).toNat * 2 ^ turns := by
    intro turns hturns
    change n.toNat ≤ 1 * 2 ^ turns
    have := Nat.lt_two_pow_self (n := turns)
    omega
  exact splitLoop_returns hn htwo (hpow fuel hfuel) (hpow n.toNat (Nat.le_refl _))

theorem largestPowerOfTwoLess_ne_ok (hn : 2 ^ 63 < n.toNat) (fuel : Nat) (k : UInt64) :
    largestPowerOfTwoLess build fuel n ≠ .ok k :=
  splitLoop_ne_ok hn (Or.inr ⟨0, by decide, rfl⟩) fuel k

end Loop

/-! ## The verifiers up to `2^63` -/

section Verifiers

variable {build : Build} {sha256 : List UInt8 → Hash} {proof : Slice}

/-- `x` returns, and what it returns is `y`, read by `f`. -/
def Agrees {α β : Type} (f : α → β) (x : Checked α) (y : Option β) : Prop :=
  ∃ result, x.run = .ok result ∧ result.map f = y

namespace Agrees

variable {α β γ δ : Type} {f : α → β} {g : γ → δ}

theorem pure {a : α} {b : β} (h : f a = b) : Agrees f (Pure.pure a) (some b) :=
  ⟨some a, rfl, congrArg some h⟩

theorem failure : Agrees f Alternative.failure none := ⟨none, rfl, rfl⟩

/-- What agrees composes. -/
theorem bind {x : Checked α} {y : Option β} {k : α → Checked γ} {k' : β → Option δ}
    (hx : Agrees f x y) (hk : ∀ a, Agrees g (k a) (k' (f a))) : Agrees g (x >>= k) (y >>= k') := by
  obtain ⟨result, hrun, rfl⟩ := hx
  cases result with
  | none => exact ⟨none, by rw [OptionT.run_bind, hrun]; rfl, rfl⟩
  | some a =>
    obtain ⟨result, hresult, hsame⟩ := hk a
    exact ⟨result, by rw [OptionT.run_bind, hrun, ← hresult]; rfl, hsame⟩

/-- An operation that does not stop. -/
theorem lift {x : Except Stop α} {a : α} (hx : x = .ok a) {k : α → Checked γ} {y : Option δ}
    (hk : Agrees g (k a) y) : Agrees g ((liftM x : Checked α) >>= k) y := by
  obtain ⟨result, hresult, hsame⟩ := hk
  exact ⟨result, by rw [hx, ← hresult]; rfl, hsame⟩

/-- A hash that is read, and the position after it, which is a word since the hash is there. -/
theorem read {next : UInt64} {k : Hash → UInt64 → Checked γ} {k' : Hash → Option δ}
    (hk : ∀ hash after, after.toNat = next.toNat + 1 → Agrees g (k hash after) (k' hash)) :
    Agrees g (do
      let hash ← proof.get next
      let after ← add build next 1
      k hash after) (proof.hashes[next.toNat]? >>= k') := by
  cases hhash : proof.hashes[next.toNat]? with
  | none => exact ⟨none, by simp [Slice.get, hhash]; rfl, rfl⟩
  | some hash =>
    have hlt : next.toNat < proof.hashes.length := (List.getElem?_eq_some_iff.mp hhash).1
    have hfits := proof.fits
    obtain ⟨after, hadd, hafter⟩ :=
      @add_eq build next 1 (by change next.toNat + 1 < 2 ^ 64; omega)
    obtain ⟨result, hresult, hsame⟩ := lift hadd (hk hash after hafter)
    refine ⟨result, ?_, hsame⟩
    rw [← hresult]
    simp [Slice.get, hhash]
    rfl

end Agrees

/-- A position as a number. -/
def found (result : Hash × UInt64) : Hash × Nat := (result.1, result.2.toNat)

/-- **`compute_root` is the one on numbers.** -/
theorem computeRoot_returns {leaf : Hash} {fuel : Nat} {index n pos : UInt64}
    (hn : n.toNat ≤ 2 ^ 63) (hfuel : n.toNat < fuel) :
    Agrees found (computeRoot build sha256 leaf proof fuel index n pos)
      (Log.computeRoot sha256 leaf index.toNat n.toNat proof.hashes pos.toNat) := by
  induction fuel generalizing index n pos with
  | zero => omega
  | succ fuel ih =>
    rw [computeRoot, Log.computeRoot]
    by_cases h0 : n.toNat = 0
    · rw [if_pos (UInt64.toNat_inj.mp h0), dif_pos h0]
      exact Agrees.failure
    by_cases h1 : n.toNat = 1
    · rw [if_neg fun h => h0 (congrArg UInt64.toNat h), if_pos (UInt64.toNat_inj.mp h1),
        dif_neg h0, dif_pos h1]
      exact Agrees.pure rfl
    obtain ⟨k, hk, hnat⟩ := @largestPowerOfTwoLess_returns build n hn (by omega) fuel (by omega)
    have hlt := Log.largestPowerOfTwoLess_lt (n := n.toNat) (by omega)
    have hpos := Log.largestPowerOfTwoLess_pos (n := n.toNat) (by omega)
    rw [if_neg fun h => h0 (congrArg UInt64.toNat h), if_neg fun h => h1 (congrArg UInt64.toNat h),
      dif_neg h0, dif_neg h1]
    rw [← hnat] at hlt hpos
    refine Agrees.lift hk ?_
    have hiff : index < k ↔ index.toNat < k.toNat := UInt64.lt_iff_toNat_lt
    simp only [← hnat]
    by_cases hi : index.toNat < k.toNat
    · rw [if_pos (hiff.mpr hi), if_pos hi]
      refine Agrees.bind (ih (by omega) (by omega)) fun result => Agrees.read ?_
      exact fun hash after hafter => Agrees.pure (Prod.ext rfl hafter)
    · rw [if_neg (mt hiff.mp hi), if_neg hi]
      obtain ⟨index', hindex, hindexNat⟩ := @sub_eq build index k (by omega)
      obtain ⟨n', hn', hnNat⟩ := @sub_eq build n k (by omega)
      refine Agrees.lift hindex (Agrees.lift hn' ?_)
      rw [← hindexNat, ← hnNat]
      refine Agrees.bind (ih (by omega) (by omega)) fun result => Agrees.read ?_
      exact fun hash after hafter => Agrees.pure (Prod.ext rfl hafter)

/-- The two hashes, and the position as a number. -/
def foundBoth (result : Hash × Hash × UInt64) : Hash × Hash × Nat :=
  (result.1, result.2.1, result.2.2.toNat)

/-- **`verify_subproof` is the one on numbers.** -/
theorem verifySubproof_returns {oldRoot : Hash} {fuel : Nat} {m n pos : UInt64} {oldKnown : Bool}
    (h : 0 < m.toNat ∧ m.toNat ≤ n.toNat) (hn : n.toNat ≤ 2 ^ 63) (hfuel : n.toNat < fuel) :
    Agrees foundBoth (verifySubproof build sha256 oldRoot proof fuel m n pos oldKnown)
      (Log.verifySubproof sha256 m.toNat n.toNat oldRoot proof.hashes pos.toNat oldKnown h) := by
  induction fuel generalizing m n pos oldKnown with
  | zero => omega
  | succ fuel ih =>
    rw [verifySubproof, Log.verifySubproof]
    by_cases hsame : m.toNat = n.toNat
    · rw [if_pos (UInt64.toNat_inj.mp hsame), dif_pos hsame]
      cases oldKnown with
      | true => exact Agrees.pure rfl
      | false =>
        exact Agrees.read fun hash after hafter =>
          Agrees.pure (Prod.ext rfl (Prod.ext rfl hafter))
    obtain ⟨k, hk, hnat⟩ := @largestPowerOfTwoLess_returns build n hn (by omega) fuel (by omega)
    have hlt := Log.largestPowerOfTwoLess_lt (n := n.toNat) (by omega)
    have hpos := Log.largestPowerOfTwoLess_pos (n := n.toNat) (by omega)
    rw [if_neg fun h => hsame (congrArg UInt64.toNat h), dif_neg hsame]
    rw [← hnat] at hlt hpos
    refine Agrees.lift hk ?_
    have hiff : m ≤ k ↔ m.toNat ≤ k.toNat := UInt64.le_iff_toNat_le
    simp only [← hnat]
    by_cases hm : m.toNat ≤ k.toNat
    · rw [if_pos (hiff.mpr hm), dif_pos hm]
      refine Agrees.bind (ih ⟨h.1, hm⟩ (by omega) (by omega)) fun result => Agrees.read ?_
      exact fun hash after hafter => Agrees.pure (Prod.ext rfl (Prod.ext rfl hafter))
    · rw [if_neg (mt hiff.mp hm), dif_neg hm]
      obtain ⟨m', hm', hmNat⟩ := @sub_eq build m k (by omega)
      obtain ⟨n', hn', hnNat⟩ := @sub_eq build n k (by omega)
      refine Agrees.lift hm' (Agrees.lift hn' ?_)
      simp only [← hmNat, ← hnNat]
      refine Agrees.bind (ih (by omega) (by omega) (by omega)) fun result => Agrees.read ?_
      exact fun hash after hafter => Agrees.pure (Prod.ext rfl (Prod.ext rfl hafter))

theorem Slice.eq_len_iff {used : UInt64} : used = proof.len ↔ used.toNat = proof.hashes.length := by
  rw [← UInt64.toNat_inj, Slice.len, UInt64.toNat_ofNat', Nat.mod_eq_of_lt proof.fits]

end Verifiers

/-! ## Which sizes are verified -/

section Sizes

variable (build : Build) (sha256 : List UInt8 → Hash) (proof : Slice)

/-- A run returns: any number of turns and calls from some on is enough. -/
def Returns (run : Nat → Except Stop Bool) (result : Bool) : Prop :=
  ∃ turns, ∀ fuel ≥ turns, run fuel = .ok result

/-- Below, `verify_inclusion` returns what it does on numbers. -/
theorem verifyInclusion_returns {leaf root : Hash} {index treeSize : UInt64}
    (h : ¬ (index < treeSize ∧ 2 ^ 63 < treeSize.toNat)) :
    Returns (fun fuel => verifyInclusion build sha256 fuel leaf index treeSize proof root)
      (Log.verifyInclusion sha256 leaf index.toNat treeSize.toNat proof.hashes root) := by
  refine ⟨treeSize.toNat + 1, fun fuel hfuel => ?_⟩
  have hiff : treeSize ≤ index ∨ treeSize = 0 ↔
      treeSize.toNat ≤ index.toNat ∨ treeSize.toNat = 0 := by
    rw [UInt64.le_iff_toNat_le, ← UInt64.toNat_inj]
    rfl
  change verifyInclusion build sha256 fuel leaf index treeSize proof root = _
  unfold verifyInclusion Log.verifyInclusion
  by_cases hrange : treeSize.toNat ≤ index.toNat ∨ treeSize.toNat = 0
  · rw [if_pos (hiff.mpr hrange), if_pos (by simpa using hrange)]
  · rw [if_neg (mt hiff.mp hrange), if_neg (by simpa using hrange)]
    rw [UInt64.lt_iff_toNat_lt] at h
    obtain ⟨result, hrun, hsame⟩ := @computeRoot_returns build sha256 proof leaf fuel index
      treeSize 0 (by omega) hfuel
    change _ = Log.computeRoot sha256 leaf index.toNat treeSize.toNat proof.hashes 0 at hsame
    rw [hrun, ← hsame]
    cases result with
    | none => rfl
    | some result =>
      change Except.ok (decide (result.2 = proof.len) && decide (result.1 = root)) =
        .ok (decide (result.2.toNat = proof.hashes.length) && decide (result.1 = root))
      simp only [Slice.eq_len_iff]

/-- Below, `verify_consistency` returns what it does on numbers. -/
theorem verifyConsistency_returns {m n : UInt64} {oldRoot newRoot : Hash}
    (h : ¬ (0 < m ∧ m < n ∧ 2 ^ 63 < n.toNat)) :
    Returns (fun fuel => verifyConsistency build sha256 fuel m n oldRoot newRoot proof)
      (Log.verifyConsistency sha256 m.toNat n.toNat oldRoot newRoot proof.hashes) := by
  refine ⟨n.toNat + 1, fun fuel hfuel => ?_⟩
  change verifyConsistency build sha256 fuel m n oldRoot newRoot proof = _
  unfold verifyConsistency Log.verifyConsistency
  have hlt : n < m ↔ n.toNat < m.toNat := UInt64.lt_iff_toNat_lt
  have hzero : m = 0 ↔ m.toNat = 0 := UInt64.toNat_inj.symm
  have hsize : m = n ↔ m.toNat = n.toNat := UInt64.toNat_inj.symm
  by_cases hmn : n.toNat < m.toNat
  · rw [if_pos (hlt.mpr hmn), dif_pos hmn]
  rw [if_neg (mt hlt.mp hmn), dif_neg hmn]
  by_cases h0 : m.toNat = 0
  · rw [if_pos (hzero.mpr h0), dif_pos h0]
  rw [if_neg (mt hzero.mp h0), dif_neg h0]
  by_cases heq : m.toNat = n.toNat
  · rw [if_pos (hsize.mpr heq), if_pos heq]
  rw [if_neg (mt hsize.mp heq), if_neg heq]
  simp only [UInt64.lt_iff_toNat_lt, UInt64.toNat_zero] at h
  obtain ⟨result, hrun, hsame⟩ := @verifySubproof_returns build sha256 proof oldRoot fuel m n 0
    true ⟨by omega, by omega⟩ (by omega) hfuel
  change _ = Log.verifySubproof sha256 m.toNat n.toNat oldRoot proof.hashes 0 true _ at hsame
  rw [hrun, ← hsame]
  cases result with
  | none => rfl
  | some result =>
    change Except.ok (decide (result.2.2 = proof.len) && decide (result.1 = oldRoot) &&
        decide (result.2.1 = newRoot)) = .ok (decide (result.2.2.toNat = proof.hashes.length) &&
        decide (result.1 = oldRoot) && decide (result.2.1 = newRoot))
    simp only [Slice.eq_len_iff]

/-- The split of a size above `2^63` does not end, whatever comes after it. -/
theorem split_ne_ok {α : Type} {n : UInt64} (hsize : 2 ^ 63 < n.toNat) (fuel : Nat)
    (k : UInt64 → Checked α) (result : Option α) :
    ((liftM (largestPowerOfTwoLess build fuel n) : Checked UInt64) >>= k).run ≠ .ok result := by
  cases hsplit : largestPowerOfTwoLess build fuel n with
  | error stop => exact nofun
  | ok k => exact absurd hsplit (largestPowerOfTwoLess_ne_ok hsize fuel k)

theorem computeRoot_ne_ok {leaf : Hash} {index n pos : UInt64} (hsize : 2 ^ 63 < n.toNat)
    (fuel : Nat) (result : Option (Hash × UInt64)) :
    (computeRoot build sha256 leaf proof fuel index n pos).run ≠ .ok result := by
  cases fuel with
  | zero => exact nofun
  | succ fuel =>
    have h0 : n ≠ 0 := by
      rintro rfl
      exact absurd hsize (by decide)
    have h1 : n ≠ 1 := by
      rintro rfl
      exact absurd hsize (by decide)
    rw [computeRoot, if_neg h0, if_neg h1]
    exact split_ne_ok build hsize fuel _ result

theorem verifySubproof_ne_ok {oldRoot : Hash} {m n pos : UInt64} {oldKnown : Bool} (hm : m ≠ n)
    (hsize : 2 ^ 63 < n.toNat) (fuel : Nat) (result : Option (Hash × Hash × UInt64)) :
    (verifySubproof build sha256 oldRoot proof fuel m n pos oldKnown).run ≠ .ok result := by
  cases fuel with
  | zero => exact nofun
  | succ fuel =>
    rw [verifySubproof, if_neg hm]
    exact split_ne_ok build hsize fuel _ result

/-- **For which sizes the verifiers return**, in either build: not for a tree of more than `2^63`
leaves, unless the other size decides before the tree is split. -/
theorem verifiers_return_iff :
    (∀ leaf index treeSize root,
      (∃ result, Returns (fun fuel =>
        verifyInclusion build sha256 fuel leaf index treeSize proof root) result) ↔
        ¬ (index < treeSize ∧ 2 ^ 63 < treeSize.toNat)) ∧
    ∀ m n oldRoot newRoot,
      (∃ result, Returns (fun fuel =>
        verifyConsistency build sha256 fuel m n oldRoot newRoot proof) result) ↔
        ¬ (0 < m ∧ m < n ∧ 2 ^ 63 < n.toNat) := by
  constructor
  · refine fun leaf index treeSize root => ⟨?_, fun h => ⟨_, verifyInclusion_returns _ _ _ h⟩⟩
    rintro ⟨result, turns, hreturns⟩ ⟨hindex, hsize⟩
    have hrun : verifyInclusion build sha256 turns leaf index treeSize proof root = .ok result :=
      hreturns turns (Nat.le_refl _)
    rw [UInt64.lt_iff_toNat_lt] at hindex
    unfold verifyInclusion at hrun
    rw [if_neg, bind_ok_iff] at hrun
    · obtain ⟨found, hfound, -⟩ := hrun
      exact computeRoot_ne_ok build sha256 proof hsize turns found hfound
    · rw [UInt64.le_iff_toNat_le, ← UInt64.toNat_inj, UInt64.toNat_zero]
      omega
  · refine fun m n oldRoot newRoot => ⟨?_, fun h => ⟨_, verifyConsistency_returns _ _ _ h⟩⟩
    rintro ⟨result, turns, hreturns⟩ ⟨hpos, hlt, hsize⟩
    have hrun : verifyConsistency build sha256 turns m n oldRoot newRoot proof = .ok result :=
      hreturns turns (Nat.le_refl _)
    have hne : m ≠ n := UInt64.ne_of_lt hlt
    unfold verifyConsistency at hrun
    rw [if_neg (UInt64.not_lt.mpr (UInt64.le_of_lt hlt)), if_neg (UInt64.ne_of_lt hpos).symm,
      if_neg hne, bind_ok_iff] at hrun
    obtain ⟨found, hfound, -⟩ := hrun
    exact verifySubproof_ne_ok build sha256 proof hne hsize turns found hfound

end Sizes

/-- A proof of the first leaf in a tree of `2^63 + 1` leaves: a debug build panics, and a release
build does not return. -/
theorem known_size_undecided :
    let leaf : Hash := Sha256.digest []
    let run := fun build fuel =>
      verifyInclusion build Sha256.digest fuel leaf 0 0x8000000000000001 ⟨[], by decide⟩ leaf
    run .debug 66 = .error .overflow ∧ (∀ fuel result, run .debug fuel ≠ .ok result) ∧
      ∀ fuel result, run .release fuel ≠ .ok result := by
  intro leaf run
  have hundecided : ∀ build fuel result, run build fuel ≠ .ok result := by
    intro build fuel result hrun
    simp only [run, verifyInclusion] at hrun
    rw [if_neg (by decide), bind_ok_iff] at hrun
    obtain ⟨found, hfound, -⟩ := hrun
    exact computeRoot_ne_ok build Sha256.digest _ (by decide) fuel found hfound
  exact ⟨rfl, hundecided .debug, hundecided .release⟩

end Keepstone.Log.Words
