import Keepstone.Lib.Sha256
import Keepstone.Log.Merkle

/-!
# The root commits to the log (`crates/log/src/merkle.rs:10-58`)

A leaf and an inner node are hashed behind different first bytes, and a log without entries is the
hash of the empty string, so the three kinds of roots are hashes of different byte strings. Two
logs of any sizes with one root can therefore be walked down side by side: at every node the two
hashed strings are equal or collide.

Results:
* `mthData_eq_rootInput`: every root is the hash of one recorded string;
* **`mthData_commits`**: a root determines the log, its size included.
-/

namespace Keepstone.Log

open Keepstone.Lib

/-- What `leaf_hash` hashes. -/
def leafInput (data : List UInt8) : List UInt8 := 0x00 :: data

/-- What `node_hash` hashes. -/
def nodeInput (pair : Hash × Hash) : List UInt8 := 0x01 :: (pair.1.toList ++ pair.2.toList)

section Inputs

variable (sha256 : List UInt8 → Hash)

/-- The byte strings `mth_data` hashes: one for each entry, the empty one if there is no entry,
and one for each inner node. -/
def mthDataInputs (entries : List (List UInt8)) : List (List UInt8) :=
  entries.map leafInput ++ (if entries = [] then [[]] else []) ++
    (mthPairs sha256 (entries.map (leafHash sha256))).map nodeInput

/-- The byte string whose hash is the root. -/
def rootInput : List (List UInt8) → List UInt8
  | [] => []
  | [entry] => leafInput entry
  | a :: b :: rest =>
    let k := largestPowerOfTwoLess (a :: b :: rest).length
    nodeInput (mthData sha256 ((a :: b :: rest).take k), mthData sha256 ((a :: b :: rest).drop k))

end Inputs

variable {sha256 : List UInt8 → Hash}

theorem rootInput_split {entries : List (List UInt8)} (hn : 2 ≤ entries.length) :
    rootInput sha256 entries =
      nodeInput (mthData sha256 (entries.take (largestPowerOfTwoLess entries.length)),
        mthData sha256 (entries.drop (largestPowerOfTwoLess entries.length))) := by
  match entries, hn with
  | a :: b :: rest, _ => rfl

theorem nodeInput_inj {p q : Hash × Hash} (h : nodeInput p = nodeInput q) : p = q := by
  have htail := (List.cons.inj h).2
  obtain ⟨hleft, hright⟩ := List.append_inj htail (by rw [p.1.toList_length, q.1.toList_length])
  exact Prod.ext (List.Vector.toList_injective hleft) (List.Vector.toList_injective hright)

/-- The first byte tells the three kinds of roots apart. -/
theorem leafInput_ne_nodeInput (data : List UInt8) (pair : Hash × Hash) :
    leafInput data ≠ nodeInput pair := by
  intro h
  exact absurd (List.cons.inj h).1 (by decide)

variable (sha256) in
/-- **Every root is the hash of one recorded string.** -/
theorem mthData_eq_rootInput (entries : List (List UInt8)) :
    mthData sha256 entries = sha256 (rootInput sha256 entries) ∧
      rootInput sha256 entries ∈ mthDataInputs sha256 entries := by
  unfold mthDataInputs
  rcases Nat.lt_or_ge entries.length 2 with hlt | h2
  · match entries, hlt with
    | [], _ =>
      refine ⟨?_, ?_⟩
      · rw [mthData, List.map_nil, mth, rootInput]
      · rw [rootInput, if_pos rfl]
        exact List.mem_append_left _ (List.mem_append_right _ (List.mem_singleton_self _))
    | [entry], _ =>
      refine ⟨?_, ?_⟩
      · rw [mthData, List.map_singleton, mth_singleton, rootInput]
        rfl
      · exact List.mem_append_left _ (List.mem_append_left _ (List.mem_singleton_self _))
  · have hlen : 2 ≤ (entries.map (leafHash sha256)).length := by rwa [List.length_map]
    have hsplit := @mth_split sha256 _ hlen
    have hmem := @mem_mthPairs_root sha256 _ hlen
    rw [List.length_map, ← List.map_take, ← List.map_drop] at hsplit hmem
    rw [rootInput_split h2]
    exact ⟨hsplit, List.mem_append_right _ (List.mem_map_of_mem hmem)⟩

/-- What a part of a log hashes, the whole log does, where the part is one of the two subtrees. -/
theorem mthDataInputs_sub {entries part : List (List UInt8)} (hpart : part ≠ [])
    (hmem : ∀ entry ∈ part, entry ∈ entries)
    (hpairs : ∀ p ∈ mthPairs sha256 (part.map (leafHash sha256)),
      p ∈ mthPairs sha256 (entries.map (leafHash sha256))) :
    ∀ input ∈ mthDataInputs sha256 part, input ∈ mthDataInputs sha256 entries := by
  unfold mthDataInputs
  intro input hinput
  rw [if_neg hpart, List.append_nil] at hinput
  rcases List.mem_append.mp hinput with hleaf | hnode
  · obtain ⟨entry, hentry, rfl⟩ := List.mem_map.mp hleaf
    exact List.mem_append_left _ (List.mem_append_left _ (List.mem_map_of_mem (hmem entry hentry)))
  · obtain ⟨pair, hpair, rfl⟩ := List.mem_map.mp hnode
    exact List.mem_append_right _ (List.mem_map_of_mem (hpairs pair hpair))

theorem mthDataInputs_take_sub {entries : List (List UInt8)} (hn : 2 ≤ entries.length) :
    ∀ input ∈ mthDataInputs sha256 (entries.take (largestPowerOfTwoLess entries.length)),
      input ∈ mthDataInputs sha256 entries := by
  have hpos := largestPowerOfTwoLess_pos hn
  have hlen : 2 ≤ (entries.map (leafHash sha256)).length := by rwa [List.length_map]
  have hsub := @mthPairs_take_sub sha256 _ hlen
  rw [List.length_map, ← List.map_take] at hsub
  refine mthDataInputs_sub (fun hnil => ?_) (fun _ => List.mem_of_mem_take) hsub
  have hzero := congrArg List.length hnil
  rw [List.length_take, List.length_nil] at hzero
  omega

theorem mthDataInputs_drop_sub {entries : List (List UInt8)} (hn : 2 ≤ entries.length) :
    ∀ input ∈ mthDataInputs sha256 (entries.drop (largestPowerOfTwoLess entries.length)),
      input ∈ mthDataInputs sha256 entries := by
  have hlt := largestPowerOfTwoLess_lt hn
  have hlen : 2 ≤ (entries.map (leafHash sha256)).length := by rwa [List.length_map]
  have hsub := @mthPairs_drop_sub sha256 _ hlen
  rw [List.length_map, ← List.map_drop] at hsub
  refine mthDataInputs_sub (fun hnil => ?_) (fun _ => List.mem_of_mem_drop) hsub
  have hzero := congrArg List.length hnil
  rw [List.length_drop, List.length_nil] at hzero
  omega

/-- Two roots that are hashes of one string are of one log, or the subtrees collide. -/
theorem mthData_binding : ∀ {a b : List (List UInt8)}, mthData sha256 a = mthData sha256 b →
    a = b ∨ Collides sha256 (mthDataInputs sha256 a) (mthDataInputs sha256 b) := by
  intro a
  -- induction on the size of the first log; the second is walked down along it, whatever its size
  induction hn : a.length using Nat.strongRecOn generalizing a with
  | ind n ih =>
  subst hn
  intro b heq
  obtain ⟨hrootA, hmemA⟩ := mthData_eq_rootInput sha256 a
  obtain ⟨hrootB, hmemB⟩ := mthData_eq_rootInput sha256 b
  rcases eq_or_collides hmemA hmemB (hrootA.symm.trans (heq.trans hrootB)) with hroot | hcol
  · rcases Nat.lt_or_ge a.length 2 with hltA | h2A
    · rcases Nat.lt_or_ge b.length 2 with hltB | h2B
      · match a, b, hltA, hltB with
        | [], [], _, _ => exact Or.inl rfl
        | [], [y], _, _ => exact absurd hroot nofun
        | [x], [], _, _ => exact absurd hroot nofun
        | [x], [y], _, _ => exact Or.inl (by rw [(List.cons.inj hroot).2])
      · rw [rootInput_split h2B] at hroot
        match a, hltA with
        | [], _ => exact absurd hroot nofun
        | [x], _ => exact absurd hroot (leafInput_ne_nodeInput _ _)
    · rcases Nat.lt_or_ge b.length 2 with hltB | h2B
      · rw [rootInput_split h2A] at hroot
        match b, hltB with
        | [], _ => exact absurd hroot nofun
        | [y], _ => exact absurd hroot.symm (leafInput_ne_nodeInput _ _)
      · have hlt := largestPowerOfTwoLess_lt h2A
        have hpos := largestPowerOfTwoLess_pos h2A
        rw [rootInput_split h2A, rootInput_split h2B] at hroot
        obtain ⟨hleft, hright⟩ := Prod.mk.inj (nodeInput_inj hroot)
        rcases ih _ (by rw [List.length_take]; omega) rfl hleft with htake | hcol
        · rcases ih _ (by rw [List.length_drop]; omega) rfl hright with hdrop | hcol
          · left
            rw [← List.take_append_drop (largestPowerOfTwoLess a.length) a, htake, hdrop,
              List.take_append_drop]
          · exact Or.inr (hcol.mono (mthDataInputs_drop_sub h2A) (mthDataInputs_drop_sub h2B))
        · exact Or.inr (hcol.mono (mthDataInputs_take_sub h2A) (mthDataInputs_take_sub h2B))
  · exact Or.inr hcol

/-- **A root determines the log**: two logs with one root are the same, or the two computations
have hashed two different strings to one digest. So, short of that, logs of different sizes have
different roots, and no inner node of a tree passes for a leaf of another. -/
theorem mthData_commits (sha256 : List UInt8 → Hash) :
    (∀ a b, mthData sha256 a = mthData sha256 b →
      a = b ∨ Collides sha256 (mthDataInputs sha256 a) (mthDataInputs sha256 b)) ∧
    (∀ a b, a.length ≠ b.length → mthData sha256 a = mthData sha256 b →
      Collides sha256 (mthDataInputs sha256 a) (mthDataInputs sha256 b)) ∧
    ∀ a b, ∀ entry ∈ a, ∀ pair ∈ mthPairs sha256 (b.map (leafHash sha256)),
      leafHash sha256 entry = nodeHash sha256 pair.1 pair.2 →
        Collides sha256 (mthDataInputs sha256 a) (mthDataInputs sha256 b) := by
  refine ⟨fun a b => mthData_binding, fun a b hlen heq => ?_, ?_⟩
  · rcases mthData_binding heq with rfl | hcol
    · exact absurd rfl hlen
    · exact hcol
  · intro a b entry hentry pair hpair heq
    refine ⟨leafInput entry, ?_, nodeInput pair, ?_, leafInput_ne_nodeInput entry pair, heq⟩
    · exact List.mem_append_left _ (List.mem_append_left _ (List.mem_map_of_mem hentry))
    · exact List.mem_append_right _ (List.mem_map_of_mem hpair)

/-- A log of three entries, put together in two ways. -/
theorem mthData_commits_three :
    let a : List (List UInt8) := [[], [1]] ++ [[2]]
    let b : List (List UInt8) := [[]] ++ [[1], [2]]
    mthData Sha256.digest a = mthData Sha256.digest b ∧
      (a = b ∨ Collides Sha256.digest (mthDataInputs Sha256.digest a)
        (mthDataInputs Sha256.digest b)) :=
  ⟨rfl, (mthData_commits Sha256.digest).1 _ _ rfl⟩

end Keepstone.Log
