import Keepstone.Core.Presence
import Keepstone.Lib.Collision
import Keepstone.Log.Sth

/-!
# What is signed, and what the proof of work and the content root hash

Ed25519 signs three kinds of byte strings: the payload of a drop (`signing_input`), what a witness
saw (`attestation_input`) and a tree head (`sth_input`). Each begins with a context of its own.
The length prefixes saturate at `u32::MAX`, so they do not always say how long the part after them
is; the total length does.

The proof of work hashes five of the things a drop consists of (`pow::digest`). The content root
(`crates/core/src/types.rs:532-542`) hashes the digests of the chunks one after the other, with
nothing between them.

Results:
* **`SignedInput.bytes_injective`**: no byte string is what is signed for two objects;
* **`powBytes_ne_iff`**: for which drops the work is different work;
* **`contentRoot_commits`**: a content root determines the list of chunks.
-/

namespace Keepstone.Core

open Keepstone.Lib Keepstone.Crypto

/-! ## Fixed-width parts -/

theorem utf8_injective : Function.Injective utf8 := by
  intro s t h
  have hs := fromUTF8?_eq_some_iff.mpr (rfl : utf8 s = utf8 s)
  have ht := fromUTF8?_eq_some_iff.mpr (rfl : utf8 t = utf8 t)
  rw [h, ht] at hs
  exact (Option.some.inj hs).symm

theorem beBytes_eight_inj {a b : UInt64} (h : beBytes 8 a.toNat = beBytes 8 b.toNat) : a = b :=
  UInt64.toNat_inj.mp (beBytes_inj a.toNat_lt b.toNat_lt h)

/-- Arrays one after the other are the same when each is. -/
theorem toList_append_inj {n : Nat} {a b : Bytes n} {s t : List UInt8}
    (h : a.toList ++ s = b.toList ++ t) : a = b ∧ s = t := by
  obtain ⟨hab, hst⟩ := List.append_inj h (a.toList_length.trans b.toList_length.symm)
  exact ⟨Subtype.ext hab, hst⟩

/-! ## Signatures -/

theorem signingInput_injective : Function.Injective signingInput := by
  intro payload payload' h
  unfold signingInput at h
  simp only [List.append_assoc] at h
  have hrest := List.append_cancel_left h
  exact (List.append_inj hrest (by rw [length_beBytes, length_beBytes])).2

theorem attestationInput_inj {cell cell' : String} {nonce nonce' : Bytes 16}
    {claimant claimant' : Bytes 32} {rttBucket rttBucket' : UInt8} {timestamp timestamp' : UInt64}
    (h : attestationInput cell nonce claimant rttBucket timestamp =
      attestationInput cell' nonce' claimant' rttBucket' timestamp') :
    cell = cell' ∧ nonce = nonce' ∧ claimant = claimant' ∧ rttBucket = rttBucket' ∧
      timestamp = timestamp' := by
  -- The two prefixes may agree for cells of different length, the two totals may not.
  have hlen := congrArg List.length h
  unfold attestationInput at h hlen
  simp only [List.length_append, length_beBytes, List.Vector.toList_length,
    List.length_singleton] at hlen
  simp only [List.append_assoc] at h
  have hrest := List.append_cancel_left h
  obtain ⟨-, hrest⟩ := List.append_inj hrest (by rw [length_beBytes, length_beBytes])
  obtain ⟨hcell, hrest⟩ := List.append_inj hrest (by omega)
  obtain ⟨hnonce, hrest⟩ := toList_append_inj hrest
  obtain ⟨hclaimant, hrest⟩ := toList_append_inj hrest
  obtain ⟨hbucket, htimestamp⟩ := List.append_inj hrest rfl
  exact ⟨utf8_injective hcell, hnonce, hclaimant, (List.cons.inj hbucket).1,
    beBytes_eight_inj htimestamp⟩

theorem sthInput_inj {treeSize treeSize' timestamp timestamp' : UInt64} {root root' : Log.Hash}
    (h : Log.sthInput treeSize root timestamp = Log.sthInput treeSize' root' timestamp') :
    treeSize = treeSize' ∧ root = root' ∧ timestamp = timestamp' := by
  unfold Log.sthInput at h
  simp only [List.append_assoc] at h
  have hrest := List.append_cancel_left h
  obtain ⟨hsize, hrest⟩ := List.append_inj hrest (by rw [length_beBytes, length_beBytes])
  obtain ⟨hroot, htimestamp⟩ := toList_append_inj hrest
  exact ⟨beBytes_eight_inj hsize, hroot, beBytes_eight_inj htimestamp⟩

/-- What is signed with Ed25519. -/
inductive SignedInput where
  | drop (payload : List UInt8)
  | attestation (cell : String) (nonce : Bytes 16) (claimant : Bytes 32) (rttBucket : UInt8)
      (timestamp : UInt64)
  | treeHead (treeSize : UInt64) (root : Log.Hash) (timestamp : UInt64)

namespace SignedInput

/-- The bytes that are signed. -/
def bytes : SignedInput → List UInt8
  | drop payload => signingInput payload
  | attestation cell nonce claimant rttBucket timestamp =>
    attestationInput cell nonce claimant rttBucket timestamp
  | treeHead treeSize root timestamp => Log.sthInput treeSize root timestamp

/-- The context of each kind. -/
def context : SignedInput → List UInt8
  | drop _ => dropContext
  | attestation _ _ _ _ _ => presenceContext
  | treeHead _ _ _ => Log.sthContext

/-- The contexts have thirteen bytes in common and then go apart. -/
def mark (input : SignedInput) : List UInt8 := input.context.take 14

theorem marks_apart : dropContext.take 14 ≠ presenceContext.take 14 ∧
    dropContext.take 14 ≠ Log.sthContext.take 14 ∧
    presenceContext.take 14 ≠ Log.sthContext.take 14 := by decide +kernel

theorem take_bytes (input : SignedInput) : input.bytes.take 14 = input.mark := by
  unfold mark
  cases input with
  | drop payload =>
    rw [bytes, signingInput, context, List.append_assoc]
    exact List.take_append_of_le_length (by decide)
  | attestation cell nonce claimant rttBucket timestamp =>
    simp only [bytes, attestationInput, context, List.append_assoc]
    exact List.take_append_of_le_length (by decide)
  | treeHead treeSize root timestamp =>
    simp only [bytes, Log.sthInput, context, List.append_assoc]
    exact List.take_append_of_le_length (by decide)

/-- **No signature carries over**: what is signed determines the kind of the object and all that is
in it. -/
theorem bytes_injective : Function.Injective bytes := by
  intro input input' h
  have hmark : input.mark = input'.mark := by rw [← take_bytes, ← take_bytes, h]
  obtain ⟨hdropPresence, hdropSth, hpresenceSth⟩ := marks_apart
  cases input with
  | drop payload =>
    cases input' with
    | drop payload' => rw [signingInput_injective h]
    | attestation => exact absurd hmark hdropPresence
    | treeHead => exact absurd hmark hdropSth
  | attestation cell nonce claimant rttBucket timestamp =>
    cases input' with
    | drop => exact absurd hmark.symm hdropPresence
    | attestation cell' nonce' claimant' rttBucket' timestamp' =>
      obtain ⟨rfl, rfl, rfl, rfl, rfl⟩ := attestationInput_inj h
      rfl
    | treeHead => exact absurd hmark hpresenceSth
  | treeHead treeSize root timestamp =>
    cases input' with
    | drop => exact absurd hmark.symm hdropSth
    | attestation => exact absurd hmark.symm hpresenceSth
    | treeHead treeSize' root' timestamp' =>
      obtain ⟨rfl, rfl, rfl⟩ := sthInput_inj h
      rfl

end SignedInput

/-! ## Proof of work -/

/-- The buffer that `pow::digest` hashes. -/
def powInput (signer root : Bytes 32) (dropNonce : Bytes 16) (nonce : UInt64) : List UInt8 :=
  powContext ++ signer.toList ++ root.toList ++ dropNonce.toList ++ beBytes 8 nonce.toNat

theorem powDigest_eq (prim : Primitives) (signer root : Bytes 32) (dropNonce : Bytes 16)
    (nonce : UInt64) :
    powDigest prim signer root dropNonce nonce =
      prim.sha256 (powInput signer root dropNonce nonce) := rfl

/-- The buffer that is hashed when `pow_ok` checks a body. -/
def DropBody.powBytes (body : DropBody) (signer : Bytes 32) : List UInt8 :=
  powInput signer body.contentRoot body.dropNonce body.powNonce

theorem DropBody.powOk_eq (prim : Primitives) (body : DropBody) (signer : Bytes 32) :
    body.powOk prim signer =
      decide (powDifficultyBits ≤ leadingZeroBits (prim.sha256 (body.powBytes signer)).toList) := by
  unfold DropBody.powOk powIsValid DropBody.powBytes
  rw [powDigest_eq]

theorem powInput_inj {signer root root' : Bytes 32} {dropNonce dropNonce' : Bytes 16}
    {nonce : UInt64} :
    powInput signer root dropNonce nonce = powInput signer root' dropNonce' nonce ↔
      root = root' ∧ dropNonce = dropNonce' := by
  constructor
  · intro h
    unfold powInput at h
    simp only [List.append_assoc] at h
    have hrest := List.append_cancel_left (List.append_cancel_left h)
    obtain ⟨hroot, hrest⟩ := toList_append_inj hrest
    exact ⟨hroot, (toList_append_inj hrest).1⟩
  · rintro ⟨rfl, rfl⟩
    rfl

/-- The body with another nonce. -/
def DropBody.withPow (body : DropBody) (nonce : UInt64) : DropBody := { body with powNonce := nonce }

/-- **When the work for a drop is not the work for another.** Of the fourteen fields, two besides
the nonce are hashed: bodies that differ elsewhere are different work only if they also differ in
one of these. -/
theorem powBytes_ne_iff (signer : Bytes 32) (nonce : UInt64) (body body' : DropBody) :
    (body.withPow nonce ≠ body'.withPow nonce →
      (body.withPow nonce).powBytes signer ≠ (body'.withPow nonce).powBytes signer) ↔
      body.contentRoot ≠ body'.contentRoot ∨ body.dropNonce ≠ body'.dropNonce ∨
        body.withPow nonce = body'.withPow nonce := by
  have hbytes : (body.withPow nonce).powBytes signer = (body'.withPow nonce).powBytes signer ↔
      body.contentRoot = body'.contentRoot ∧ body.dropNonce = body'.dropNonce := powInput_inj
  rw [Ne, Ne, hbytes, not_and_or, imp_iff_not_or, not_not, or_comm, or_assoc]

/-- The known drop in another cell, for another time and with nobody to read it: its work is done
already. -/
theorem known_work_reused :
    let body' := { KnownAnswers.body with
      cell := "8928308280bffff", ring := 0, expiry := 1800000000, wrappedKeys := [] }
    KnownAnswers.body.withPow 3820 ≠ body'.withPow 3820 ∧
      (KnownAnswers.body.withPow 3820).powBytes KnownAnswers.authorPublic =
        (body'.withPow 3820).powBytes KnownAnswers.authorPublic ∧
      (body'.withPow 3820).powOk KnownAnswers.primitives KnownAnswers.authorPublic = true :=
  ⟨by decide +kernel, rfl, by decide +kernel⟩

/-! ## The content root -/

/-- Arrays of one positive length one after the other are the same when all of them are, however
many there are. -/
theorem flatMap_toList_inj {n : Nat} (hn : 0 < n) {a b : List (Bytes n)}
    (h : a.flatMap List.Vector.toList = b.flatMap List.Vector.toList) : a = b := by
  have hne : ∀ (x : Bytes n) (rest : List UInt8), x.toList ++ rest ≠ [] := by
    intro x rest hnil
    have hlen := congrArg List.length hnil
    rw [List.length_append, x.toList_length, List.length_nil] at hlen
    omega
  induction a generalizing b with
  | nil =>
    cases b with
    | nil => rfl
    | cons y b => exact absurd h.symm (hne y _)
  | cons x a ih =>
    cases b with
    | nil => exact absurd h (hne x _)
    | cons y b =>
      rw [List.flatMap_cons, List.flatMap_cons] at h
      obtain ⟨hxy, hrest⟩ := toList_append_inj h
      rw [hxy, ih hrest]

section Root

variable {prim : Primitives}

variable (prim) in
/-- What is hashed last: the digests of the chunks. -/
def digests (chunks : List (List UInt8)) : List UInt8 :=
  chunks.flatMap fun chunk => (prim.sha256 chunk).toList

variable (prim) in
/-- The byte strings that `content_root` hashes. -/
def contentRootInputs (chunks : List (List UInt8)) : List (List UInt8) :=
  chunks ++ [digests prim chunks]

theorem digests_inj {a b : List (List UInt8)} (h : digests prim a = digests prim b) :
    a.map prim.sha256 = b.map prim.sha256 := by
  refine flatMap_toList_inj (by decide) ?_
  rwa [List.flatMap_map, List.flatMap_map]

end Root

/-- **A content root determines the chunks**: two lists with one root are the same, in number, in
order and in every byte, or the two computations have hashed two different strings to one digest. -/
theorem contentRoot_commits (prim : Primitives) {a b : List (List UInt8)}
    (h : contentRoot prim a = contentRoot prim b) :
    a = b ∨ Collides prim.sha256 (contentRootInputs prim a) (contentRootInputs prim b) := by
  have hlast : ∀ chunks, digests prim chunks ∈ contentRootInputs prim chunks := fun chunks =>
    List.mem_append_right _ (List.mem_singleton_self _)
  rcases eq_or_collides (hlast a) (hlast b) h with hdigests | hcol
  · rcases map_eq_or_collides (digests_inj hdigests) with hab | hcol
    · exact Or.inl hab
    · exact Or.inr (hcol.mono (fun _ => List.mem_append_left _) fun _ => List.mem_append_left _)
  · exact Or.inr hcol

/-- The chunks of `content_root_is_order_sensitive`, cut from one string in two ways. -/
theorem known_chunks_committed :
    let a : List (List UInt8) := [[1, 2, 3, 4, 5].take 3, [1, 2, 3, 4, 5].drop 3]
    let b : List (List UInt8) := [[1, 2, 3], [4, 5]]
    contentRoot KnownAnswers.primitives a = contentRoot KnownAnswers.primitives b ∧
      (a = b ∨ Collides KnownAnswers.primitives.sha256
        (contentRootInputs KnownAnswers.primitives a)
        (contentRootInputs KnownAnswers.primitives b)) :=
  ⟨rfl, contentRoot_commits KnownAnswers.primitives rfl⟩

end Keepstone.Core
