import Keepstone.Core.KnownAnswers
import Keepstone.Crypto.Sealing
import Mathlib.Algebra.Order.Floor.Div
import Mathlib.GroupTheory.GroupAction.Ring

/-!
# Chunked encryption (`crates/crypto/src/stream.rs`)

The content is cut into chunks of 64 KiB, each sealed under a key of its own, a nonce made of the
drawn prefix and the index, and associated data made of the total and the index. `SealCall` is one
call of `aead::seal`; what is assumed of the AEAD is assumed of the calls an encryption makes.

Results:
* `streamEncrypt_ok_iff`, `streamDecrypt_eq_ok_iff`: what the two loops compute, chunk by chunk;
* **`streamEncrypt_round_trip`**: what was encrypted is decrypted, as a whole and chunk by chunk;
* **`streamDecrypt_ok_iff_own_chunks`**: of all chunks encrypted under one content key, in any
  order and number, only the list that one encryption returned decrypts under its framing;
* **`streamDecrypt_other_total_iff`**: when they are refused under another total.
-/

namespace Keepstone.Crypto

open Keepstone.Lib

variable {prim : Primitives} {contentKey : Bytes 32} {framing : Framing}

/-! ## The loops -/

/-- The number of chunks of a content of this length. -/
def chunkCount (length : Nat) : Nat := max 1 (length ⌈/⌉ defaultChunkSize)

/-- The bytes of one chunk. -/
def chunkData (plaintext : List UInt8) (index : Nat) : List UInt8 :=
  (plaintext.drop (index * defaultChunkSize)).take defaultChunkSize

/-- One call of `aead::seal` that returned. -/
structure SealCall where
  /-- Key. -/
  key : Bytes 32
  /-- Nonce. -/
  nonce : Bytes 24
  /-- Associated data. -/
  aad : List UInt8
  /-- Plaintext. -/
  data : List UInt8
  /-- What was returned. -/
  ciphertext : List UInt8

/-- The call `stream::encrypt` makes for the chunk at `index`. -/
structure ChunkCall (prim : Primitives) (contentKey : Bytes 32) (plaintext : List UInt8)
    (framing : Framing) (index : Nat) (call : SealCall) : Prop where
  /-- The key of this index. -/
  key : deriveChunkKey prim contentKey (UInt32.ofNat index) = .ok call.key
  /-- The prefix and the index. -/
  nonce : call.nonce = chunkNonce framing.noncePrefix (UInt32.ofNat index)
  /-- The total and the index. -/
  aad : call.aad = chunkAad (UInt32.ofNat index) framing.total
  /-- The bytes of the chunk. -/
  data : call.data = chunkData plaintext index
  /-- What the call returned. -/
  sealed : aeadSeal prim call.key call.nonce call.aad call.data = .ok call.ciphertext

theorem encryptTurn_ok_iff {plaintext chunk : List UInt8} {index : Nat} (h : index < 2 ^ 32) :
    encryptTurn prim contentKey plaintext framing index = .ok chunk ↔
      ∃ call, ChunkCall prim contentKey plaintext framing index call ∧ call.ciphertext = chunk := by
  unfold encryptTurn u32TryFrom
  rw [if_pos h]
  constructor
  · intro hturn
    obtain ⟨index', hindex, hturn⟩ := bind_ok_iff.mp hturn
    obtain rfl := Except.ok.inj hindex
    obtain ⟨key, hkey, hseal⟩ := bind_ok_iff.mp hturn
    exact ⟨⟨key, _, _, _, chunk⟩, ⟨hkey, rfl, rfl, rfl, hseal⟩, rfl⟩
  · rintro ⟨call, ⟨hkey, hnonce, haad, hdata, hseal⟩, rfl⟩
    rw [hnonce, haad, hdata] at hseal
    exact bind_ok_iff.mpr ⟨_, rfl, bind_ok_iff.mpr ⟨call.key, hkey, hseal⟩⟩

theorem chunkCount_eq (length : Nat) :
    max ((length + (defaultChunkSize - 1)) / defaultChunkSize) 1 = chunkCount length := by
  rw [chunkCount, Nat.ceilDiv_eq_add_pred_div, max_comm]
  rfl

/-- **What `stream::encrypt` returns.** -/
theorem streamEncrypt_ok_iff {plaintext : List UInt8} {noncePrefix : Bytes 20}
    {chunks : List (List UInt8)} :
    streamEncrypt prim contentKey plaintext noncePrefix = .ok (framing, chunks) ↔
      chunkCount plaintext.length < 2 ^ 32 ∧
      framing = ⟨noncePrefix, UInt32.ofNat (chunkCount plaintext.length)⟩ ∧
      chunks.length = chunkCount plaintext.length ∧
      ∀ index (h : index < chunks.length), ∃ call,
        ChunkCall prim contentKey plaintext framing index call ∧
          call.ciphertext = chunks[index] := by
  unfold streamEncrypt u32TryFrom
  simp only [chunkCount_eq]
  by_cases hcount : chunkCount plaintext.length < 2 ^ 32
  · simp only [if_pos hcount, bind_ok_iff, pure_ok_iff, mapM_ok_iff, Except.ok.injEq,
      Prod.mk.injEq, List.forall₂_iff_get, List.length_range, List.get_eq_getElem,
      List.getElem_range]
    constructor
    · rintro ⟨_, rfl, out, ⟨hlen, hturns⟩, rfl, rfl⟩
      refine ⟨hcount, rfl, hlen.symm, fun index h => ?_⟩
      exact (encryptTurn_ok_iff (by omega)).mp (hturns index (by omega) h)
    · rintro ⟨-, rfl, hlen, hcalls⟩
      refine ⟨_, rfl, chunks, ⟨hlen.symm, fun index h h' => ?_⟩, rfl, rfl⟩
      exact (encryptTurn_ok_iff (by omega)).mpr (hcalls index h')
  · rw [if_neg hcount]
    constructor
    · intro h
      exact absurd h nofun
    · rintro ⟨h, -⟩
      exact absurd h hcount

/-- **What `stream::decrypt` returns.** -/
theorem streamDecrypt_eq_ok_iff {chunks : List (List UInt8)} {plaintext : List UInt8} :
    streamDecrypt prim contentKey framing chunks = .ok plaintext ↔
      chunks.length = framing.total.toNat ∧
      ∃ pieces : List (List UInt8), pieces.length = chunks.length ∧ pieces.flatten = plaintext ∧
        ∀ index (h : index < chunks.length) (h' : index < pieces.length),
          decryptChunk prim contentKey framing (UInt32.ofNat index) chunks[index] =
            .ok pieces[index] := by
  have hbound : framing.total.toNat < 2 ^ 32 := framing.total.toNat_lt
  unfold streamDecrypt
  simp only [bind_ok_iff, check_ok_iff, decide_eq_true_iff, pure_ok_iff, mapM_ok_iff,
    List.forall₂_iff_get, List.length_zipIdx, List.get_eq_getElem, List.getElem_zipIdx,
    Nat.zero_add]
  constructor
  · rintro ⟨⟨⟩, hlen, pieces, ⟨hpieces, hturns⟩, rfl⟩
    refine ⟨hlen, pieces, hpieces.symm, rfl, fun index h h' => ?_⟩
    rw [← decryptTurn_eq (by omega)]
    exact hturns index h h'
  · rintro ⟨hlen, pieces, hpieces, rfl, hturns⟩
    refine ⟨(), hlen, pieces, ⟨hpieces.symm, fun index h h' => ?_⟩, rfl⟩
    rw [decryptTurn_eq (by omega)]
    exact hturns index h h'

/-- The call for a chunk, when it opens to what was sealed, decrypts the chunk. -/
theorem ChunkCall.decryptChunk {plaintext : List UInt8} {index : Nat} {call : SealCall}
    (h : ChunkCall prim contentKey plaintext framing index call)
    (hindex : index < framing.total.toNat)
    (hopen : aeadOpen prim call.key call.nonce call.aad call.ciphertext = .ok call.data) :
    decryptChunk prim contentKey framing (UInt32.ofNat index) call.ciphertext =
      .ok (chunkData plaintext index) := by
  have hbound : framing.total.toNat < 2 ^ 32 := framing.total.toNat_lt
  have hnat : (UInt32.ofNat index).toNat = index :=
    UInt32.toNat_ofNat_of_lt' (hindex.trans hbound)
  have hlt : ¬ framing.total ≤ UInt32.ofNat index := by
    rw [UInt32.le_iff_toNat_le, hnat]
    omega
  rw [h.nonce, h.aad, h.data] at hopen
  unfold Crypto.decryptChunk
  rw [if_neg hlt]
  exact bind_ok_iff.mpr ⟨call.key, h.key, hopen⟩

/-! ## The pieces -/

theorem flatten_pieces (plaintext : List UInt8) (count : Nat) :
    ((List.range count).map (chunkData plaintext)).flatten =
      plaintext.take (count * defaultChunkSize) := by
  induction count with
  | zero => rw [List.range_zero, Nat.zero_mul, List.take_zero]; rfl
  | succ count ih =>
    rw [List.range_succ, List.map_append, List.flatten_append, ih, List.map_singleton,
      List.flatten_singleton, chunkData, Nat.succ_mul, List.take_add]

theorem length_le_chunkCount (length : Nat) : length ≤ chunkCount length * defaultChunkSize := by
  have hpos : 0 < defaultChunkSize := by decide
  have hceil : length ≤ defaultChunkSize * (length ⌈/⌉ defaultChunkSize) := le_smul_ceilDiv hpos
  have hmax : length ⌈/⌉ defaultChunkSize ≤ chunkCount length := Nat.le_max_right _ _
  calc length ≤ defaultChunkSize * (length ⌈/⌉ defaultChunkSize) := hceil
    _ ≤ defaultChunkSize * chunkCount length := Nat.mul_le_mul_left _ hmax
    _ = chunkCount length * defaultChunkSize := Nat.mul_comm _ _

/-- The pieces are the content. -/
theorem flatten_all_pieces (plaintext : List UInt8) :
    ((List.range (chunkCount plaintext.length)).map (chunkData plaintext)).flatten = plaintext := by
  rw [flatten_pieces, List.take_of_length_le (length_le_chunkCount _)]

/-- A chunk is the slice the code takes. -/
theorem chunkData_eq_extract (plaintext : List UInt8) (index : Nat) :
    chunkData plaintext index = plaintext.extract (index * defaultChunkSize)
      (min ((index + 1) * defaultChunkSize) plaintext.length) := by
  rw [chunkData, List.extract_eq_take_drop, Nat.succ_mul, List.take_eq_take_iff, List.length_drop]
  omega

/-! ## Round trip -/

/-- The call opens to what was sealed. -/
def SealCall.Opens (prim : Primitives) (call : SealCall) : Prop :=
  aeadOpen prim call.key call.nonce call.aad call.ciphertext = .ok call.data

/-- If the calls of an encryption open, its chunks decrypt, one by one and together. -/
theorem decrypts_of_opens {plaintext : List UInt8} {noncePrefix : Bytes 20}
    {chunks : List (List UInt8)}
    (h : streamEncrypt prim contentKey plaintext noncePrefix = .ok (framing, chunks))
    (hopens : ∀ index call, index < chunks.length →
      ChunkCall prim contentKey plaintext framing index call → call.Opens prim) :
    (∀ index (hindex : index < chunks.length),
      decryptChunk prim contentKey framing (UInt32.ofNat index) chunks[index] =
        .ok (chunkData plaintext index)) ∧
    streamDecrypt prim contentKey framing chunks = .ok plaintext := by
  obtain ⟨hcount, hframing, hlen, hcalls⟩ := streamEncrypt_ok_iff.mp h
  have htotal : framing.total.toNat = chunkCount plaintext.length := by
    rw [hframing]
    exact UInt32.toNat_ofNat_of_lt' hcount
  have hchunk : ∀ index (hindex : index < chunks.length),
      decryptChunk prim contentKey framing (UInt32.ofNat index) chunks[index] =
        .ok (chunkData plaintext index) := by
    intro index hindex
    obtain ⟨call, hcall, hcipher⟩ := hcalls index hindex
    rw [← hcipher]
    exact hcall.decryptChunk (by omega) (hopens index call hindex hcall)
  refine ⟨hchunk, streamDecrypt_eq_ok_iff.mpr ⟨hlen.trans htotal.symm,
    (List.range (chunkCount plaintext.length)).map (chunkData plaintext), ?_,
    flatten_all_pieces plaintext, fun index hindex hindex' => ?_⟩⟩
  · rw [List.length_map, List.length_range, hlen]
  · rw [List.getElem_map, List.getElem_range]
    exact hchunk index hindex

/-- `aead::seal` returns on this input, and `aead::open` gives the input back. -/
def RoundTrips (prim : Primitives) (key : Bytes 32) (nonce : Bytes 24) (aad data : List UInt8) :
    Prop :=
  ∃ ciphertext, aeadSeal prim key nonce aad data = .ok ciphertext ∧
    aeadOpen prim key nonce aad ciphertext = .ok data

/-- An encryption returns if each of its calls does. -/
theorem exists_streamEncrypt {plaintext : List UInt8} {noncePrefix : Bytes 20}
    (hcount : chunkCount plaintext.length < 2 ^ 32)
    (hcalls : ∀ index < chunkCount plaintext.length, ∃ key ciphertext,
      deriveChunkKey prim contentKey (UInt32.ofNat index) = .ok key ∧
      aeadSeal prim key (chunkNonce noncePrefix (UInt32.ofNat index))
        (chunkAad (UInt32.ofNat index) (UInt32.ofNat (chunkCount plaintext.length)))
        (chunkData plaintext index) = .ok ciphertext) :
    ∃ chunks, streamEncrypt prim contentKey plaintext noncePrefix =
      .ok (⟨noncePrefix, UInt32.ofNat (chunkCount plaintext.length)⟩, chunks) := by
  obtain ⟨chunks, hchunks⟩ : ∃ chunks, (List.range (chunkCount plaintext.length)).mapM
      (encryptTurn prim contentKey plaintext
        ⟨noncePrefix, UInt32.ofNat (chunkCount plaintext.length)⟩) = .ok chunks := by
    refine exists_mapM_ok_iff.mpr fun index hindex => ?_
    have hlt := List.mem_range.mp hindex
    obtain ⟨key, ciphertext, hderive, hseal⟩ := hcalls index hlt
    exact ⟨ciphertext, (encryptTurn_ok_iff (hlt.trans hcount)).mpr
      ⟨⟨key, _, _, _, ciphertext⟩, ⟨hderive, rfl, rfl, rfl, hseal⟩, rfl⟩⟩
  refine ⟨chunks, ?_⟩
  unfold streamEncrypt u32TryFrom
  simp only [chunkCount_eq, if_pos hcount, bind_ok_iff, pure_ok_iff]
  exact ⟨_, rfl, chunks, hchunks, rfl⟩

/-- **What was encrypted is decrypted.** If key derivation succeeds and the AEAD opens what it
seals, on the inputs of this encryption, then it returns as many chunks as the length asks for;
they decrypt to the content, and each one to its own part of it. -/
theorem streamEncrypt_round_trip (prim : Primitives) (contentKey : Bytes 32)
    (noncePrefix : Bytes 20) (plaintext : List UInt8)
    (hcount : chunkCount plaintext.length < 2 ^ 32)
    (hkey : ∀ index : UInt32, ∃ key, deriveChunkKey prim contentKey index = .ok key)
    (haead : ∀ index key, index < chunkCount plaintext.length →
      deriveChunkKey prim contentKey (UInt32.ofNat index) = .ok key →
      RoundTrips prim key (chunkNonce noncePrefix (UInt32.ofNat index))
        (chunkAad (UInt32.ofNat index) (UInt32.ofNat (chunkCount plaintext.length)))
        (chunkData plaintext index)) :
    ∃ framing chunks,
      streamEncrypt prim contentKey plaintext noncePrefix = .ok (framing, chunks) ∧
      framing.noncePrefix = noncePrefix ∧
      framing.total.toNat = max 1 (plaintext.length ⌈/⌉ 65536) ∧
      chunks.length = max 1 (plaintext.length ⌈/⌉ 65536) ∧
      streamDecrypt prim contentKey framing chunks = .ok plaintext ∧
      ∀ index (h : index < chunks.length),
        decryptChunk prim contentKey framing (UInt32.ofNat index) chunks[index] =
          .ok (plaintext.extract (index * 65536)
            (min ((index + 1) * 65536) plaintext.length)) := by
  obtain ⟨chunks, hencrypt⟩ :=
    @exists_streamEncrypt prim contentKey plaintext noncePrefix hcount fun index hindex => by
      obtain ⟨key, hderive⟩ := hkey (UInt32.ofNat index)
      obtain ⟨ciphertext, hseal, -⟩ := haead index key hindex hderive
      exact ⟨key, ciphertext, hderive, hseal⟩
  obtain ⟨-, -, hlen, -⟩ := streamEncrypt_ok_iff.mp hencrypt
  obtain ⟨hchunk, hdecrypt⟩ := decrypts_of_opens hencrypt fun index call hindex hcall => by
    obtain ⟨ciphertext, hseal, hopen⟩ := haead index call.key (by omega) hcall.key
    have hsealed := hcall.sealed
    rw [hcall.nonce, hcall.aad, hcall.data] at hsealed
    obtain rfl := Except.ok.inj (hseal.symm.trans hsealed)
    unfold SealCall.Opens
    rw [hcall.nonce, hcall.aad, hcall.data]
    exact hopen
  refine ⟨_, chunks, hencrypt, rfl, UInt32.toNat_ofNat_of_lt' hcount, hlen, hdecrypt, ?_⟩
  intro index hindex
  rw [hchunk index hindex, chunkData_eq_extract]
  rfl

section KnownChunk

open Keepstone.Core.KnownAnswers

/-- The key of chunk 0 of the known drop. -/
def knownChunkKey : Bytes 32 :=
  be 32 0x1a1b285819c3f983b4b4320f538c7a1f78b593b47836f4fb32558eda94ac9a23

theorem knownChunkKey_derived :
    deriveChunkKey primitives Core.KnownAnswers.contentKey 0 = .ok knownChunkKey := by
  decide +kernel

/-- The content of the known drop is one chunk. -/
theorem known_chunkCount : chunkCount (utf8 "hello").length = 1 := by decide +kernel

/-- A content of one byte more than a chunk. -/
def longContent : List UInt8 := List.replicate 65537 0

theorem length_longContent : longContent.length = 65537 := List.length_replicate

/-- It round-trips, as the two chunks it is cut into. -/
theorem known_chunk_round_trip :
    ∃ framing first second,
      streamEncrypt sending Core.KnownAnswers.contentKey longContent body.noncePrefix =
        .ok (framing, [first, second]) ∧
      streamDecrypt sending Core.KnownAnswers.contentKey framing [first, second] =
        .ok longContent ∧
      decryptChunk sending Core.KnownAnswers.contentKey framing 0 first =
        .ok (List.replicate 65536 0) ∧
      decryptChunk sending Core.KnownAnswers.contentKey framing 1 second = .ok [0] := by
  have htwo : chunkCount longContent.length = 2 := by rw [length_longContent]; decide +kernel
  obtain ⟨framing, chunks, hencrypt, -, -, hlen, hdecrypt, hchunk⟩ := streamEncrypt_round_trip
    sending Core.KnownAnswers.contentKey body.noncePrefix longContent (by rw [htwo]; decide)
    (fun index => exists_deriveKey32 ..) fun index key _ _ => by
      obtain ⟨ciphertext, hencrypt⟩ := exists_sending key
        (chunkNonce body.noncePrefix (UInt32.ofNat index))
        (chunkAad (UInt32.ofNat index) (UInt32.ofNat (chunkCount longContent.length)))
        (chunkData longContent index)
      refine ⟨ciphertext, ?_, ?_⟩
      · rw [aeadSeal, hencrypt]
      · rw [aeadOpen, sending_opens hencrypt]
  rw [length_longContent] at hlen
  obtain ⟨first, second, rfl⟩ := List.length_eq_two.mp (hlen.trans (by decide +kernel))
  refine ⟨framing, first, second, hencrypt, hdecrypt, (hchunk 0 (by simp)).trans ?_,
    (hchunk 1 (by simp)).trans ?_⟩
  · rw [length_longContent, longContent, List.extract_eq_take_drop, List.drop_replicate,
      List.take_replicate]
    rfl
  · rw [length_longContent, longContent, List.extract_eq_take_drop, List.drop_replicate,
      List.take_replicate]
    rfl

end KnownChunk

/-! ## Chunks of several encryptions -/

/-- No other key, nonce and associated data open what the call returned. -/
def SealCall.OpensOnly (prim : Primitives) (call : SealCall) : Prop :=
  ∀ key nonce aad data, aeadOpen prim key nonce aad call.ciphertext = .ok data →
    key = call.key ∧ nonce = call.nonce ∧ aad = call.aad

/-- An encryption that returned. -/
structure EncryptRun (prim : Primitives) (contentKey : Bytes 32) where
  /-- The content. -/
  plaintext : List UInt8
  /-- The drawn prefix. -/
  noncePrefix : Bytes 20
  /-- The framing returned. -/
  framing : Framing
  /-- The chunks returned. -/
  chunks : List (List UInt8)
  /-- It returned them. -/
  encrypted : streamEncrypt prim contentKey plaintext noncePrefix = .ok (framing, chunks)

/-- The calls of `aead::seal` the encryption made. -/
def EncryptRun.Calls (run : EncryptRun prim contentKey) (call : SealCall) : Prop :=
  ∃ index < run.chunks.length, ChunkCall prim contentKey run.plaintext run.framing index call

theorem chunkNonce_inj {p q : Bytes 20} {i j : UInt32} (h : chunkNonce p i = chunkNonce q j) :
    p = q ∧ i = j := by
  have hlist : p.toList ++ beBytes 4 i.toNat = q.toList ++ beBytes 4 j.toNat :=
    congrArg List.Vector.toList h
  obtain ⟨hp, hi⟩ := List.append_inj hlist (by rw [p.toList_length, q.toList_length])
  exact ⟨List.Vector.toList_injective hp, UInt32.toNat_inj.mp
    (beBytes_inj i.toNat_lt j.toNat_lt hi)⟩

theorem chunkAad_total_inj {i j total total' : UInt32} (h : chunkAad i total = chunkAad j total') :
    total = total' := by
  unfold chunkAad at h
  rw [List.append_assoc, List.append_assoc] at h
  obtain ⟨htotal, -⟩ := List.append_inj (List.append_cancel_left h)
    (by rw [length_beBytes, length_beBytes])
  exact UInt32.toNat_inj.mp (beBytes_inj total.toNat_lt total'.toNat_lt htotal)

/-- What `decrypt_chunk` opens, it opens under the key, nonce and associated data of its index. -/
theorem aeadOpen_of_decryptChunk {index : UInt32} {chunk data : List UInt8}
    (h : decryptChunk prim contentKey framing index chunk = .ok data) :
    ∃ key, aeadOpen prim key (chunkNonce framing.noncePrefix index)
      (chunkAad index framing.total) chunk = .ok data := by
  unfold decryptChunk at h
  split at h
  · exact absurd h nofun
  · obtain ⟨key, -, hopen⟩ := bind_ok_iff.mp h
    exact ⟨key, hopen⟩

namespace EncryptRun

variable (run : EncryptRun prim contentKey)

theorem framing_noncePrefix : run.framing.noncePrefix = run.noncePrefix := by
  obtain ⟨-, hframing, -⟩ := streamEncrypt_ok_iff.mp run.encrypted
  rw [hframing]

theorem length_chunks : run.chunks.length = run.framing.total.toNat := by
  obtain ⟨hcount, hframing, hlen, -⟩ := streamEncrypt_ok_iff.mp run.encrypted
  rw [hlen, hframing]
  exact (UInt32.toNat_ofNat_of_lt' hcount).symm

theorem lt_two_pow {index : Nat} (h : index < run.chunks.length) : index < 2 ^ 32 := by
  rw [length_chunks] at h
  exact h.trans run.framing.total.toNat_lt

/-- A chunk of the run that decrypts at some index under some framing was sealed with the nonce
and the associated data of that index and that framing. -/
theorem sealed_of_decryptChunk (hideal : ∀ call, run.Calls call → call.OpensOnly prim)
    {index : Nat} (hindex : index < run.chunks.length) {j : UInt32} {data : List UInt8}
    (h : Crypto.decryptChunk prim contentKey framing j run.chunks[index] = .ok data) :
    chunkNonce framing.noncePrefix j = chunkNonce run.noncePrefix (UInt32.ofNat index) ∧
      chunkAad j framing.total = chunkAad (UInt32.ofNat index) run.framing.total := by
  obtain ⟨-, -, -, hcalls⟩ := streamEncrypt_ok_iff.mp run.encrypted
  obtain ⟨call, hcall, hcipher⟩ := hcalls index hindex
  rw [← hcipher] at h
  obtain ⟨key, hopen⟩ := aeadOpen_of_decryptChunk h
  obtain ⟨-, hnonce, haad⟩ := hideal call ⟨index, hindex, hcall⟩ _ _ _ _ hopen
  rw [hcall.nonce, framing_noncePrefix] at hnonce
  exact ⟨hnonce, haad.trans hcall.aad⟩

/-- Such a chunk has that framing's prefix and is at that index. -/
theorem position_of_decryptChunk (hideal : ∀ call, run.Calls call → call.OpensOnly prim)
    {index : Nat} (hindex : index < run.chunks.length) {j : UInt32} {data : List UInt8}
    (h : Crypto.decryptChunk prim contentKey framing j run.chunks[index] = .ok data) :
    framing.noncePrefix = run.noncePrefix ∧ j = UInt32.ofNat index :=
  chunkNonce_inj (run.sealed_of_decryptChunk hideal hindex h).1

end EncryptRun

/-- **Chunks cannot be reordered, duplicated, dropped or spliced.** Of the chunks of any number of
encryptions under one content key with different prefixes, exactly the list one of them returned
decrypts under its framing, and to its content. -/
theorem streamDecrypt_ok_iff_own_chunks (prim : Primitives) (contentKey : Bytes 32) {ι : Type}
    (runs : ι → EncryptRun prim contentKey)
    (hdistinct : Function.Injective fun r => (runs r).noncePrefix)
    (hideal : ∀ r call, (runs r).Calls call → call.Opens prim ∧ call.OpensOnly prim)
    (r : ι) (chunks : List (List UInt8))
    (hdrawn : ∀ chunk ∈ chunks, ∃ s, chunk ∈ (runs s).chunks) (plaintext : List UInt8) :
    streamDecrypt prim contentKey (runs r).framing chunks = .ok plaintext ↔
      chunks = (runs r).chunks ∧ plaintext = (runs r).plaintext := by
  have hown : streamDecrypt prim contentKey (runs r).framing (runs r).chunks =
      .ok (runs r).plaintext :=
    (decrypts_of_opens (runs r).encrypted fun index call hindex hcall =>
      (hideal r call ⟨index, hindex, hcall⟩).1).2
  constructor
  · intro h
    obtain ⟨hlen, pieces, hpieces, -, hturns⟩ := streamDecrypt_eq_ok_iff.mp h
    -- each chunk is at the index its nonce was made for, in the run its nonce was made by
    have hchunks : chunks = (runs r).chunks := by
      refine List.ext_getElem (hlen.trans (runs r).length_chunks.symm) fun index hindex hindex' => ?_
      obtain ⟨s, hmem⟩ := hdrawn _ (List.getElem_mem hindex)
      obtain ⟨i, hi, hget⟩ := List.getElem_of_mem hmem
      have hturn := hturns index hindex (by omega)
      rw [← hget] at hturn
      obtain ⟨hnonce, heq⟩ := (runs s).position_of_decryptChunk
        (fun call hcall => (hideal s call hcall).2) hi hturn
      obtain rfl : r = s := hdistinct ((runs r).framing_noncePrefix.symm.trans hnonce)
      have hnat := congrArg UInt32.toNat heq
      rw [UInt32.toNat_ofNat_of_lt' ((runs r).lt_two_pow hindex'),
        UInt32.toNat_ofNat_of_lt' ((runs r).lt_two_pow hi)] at hnat
      subst hnat
      exact hget.symm
    rw [hchunks, hown] at h
    exact ⟨hchunks, (Except.ok.inj h).symm⟩
  · rintro ⟨rfl, rfl⟩
    exact hown

/-- **When chunks of one encryption are refused under another total**: always, but for no chunks
under the total zero. The loop of `decrypt` then has no turn in which the total is compared. -/
theorem streamDecrypt_other_total_iff (prim : Primitives) (contentKey : Bytes 32)
    (run : EncryptRun prim contentKey) (hideal : ∀ call, run.Calls call → call.OpensOnly prim)
    (total : UInt32) (hne : total ≠ run.framing.total) (chunks : List (List UInt8))
    (hdrawn : ∀ chunk ∈ chunks, chunk ∈ run.chunks) :
    (∃ e, streamDecrypt prim contentKey ⟨run.framing.noncePrefix, total⟩ chunks = .error e) ↔
      ¬ (total = 0 ∧ chunks = []) := by
  constructor
  · rintro ⟨e, herror⟩ ⟨rfl, rfl⟩
    exact absurd herror nofun
  · intro h
    cases hdecrypt : streamDecrypt prim contentKey ⟨run.framing.noncePrefix, total⟩ chunks with
    | error e => exact ⟨e, rfl⟩
    | ok plaintext =>
      obtain ⟨hlen, pieces, hpieces, -, hturns⟩ := streamDecrypt_eq_ok_iff.mp hdecrypt
      cases chunks with
      | nil =>
        -- no chunks, so the total is zero, which is what was excluded
        exact absurd ⟨UInt32.toNat_inj.mp hlen.symm, rfl⟩ h
      | cons chunk rest =>
        -- the first chunk decrypts, so it was sealed under this total
        have hturn := hturns 0 (Nat.zero_lt_succ _) (by rw [hpieces]; exact Nat.zero_lt_succ _)
        obtain ⟨index, hindex, hget⟩ := List.getElem_of_mem (hdrawn chunk List.mem_cons_self)
        rw [List.getElem_cons_zero, ← hget] at hturn
        have haad := (run.sealed_of_decryptChunk hideal hindex hturn).2
        exact absurd (chunkAad_total_inj haad) hne

section KnownChunk

open Keepstone.Core.KnownAnswers

/-- Two encryptions under the content key: the known drop's, and the one with `otherPrefix`. -/
def knownRun (other : Bool) : EncryptRun primitives Core.KnownAnswers.contentKey where
  plaintext := if other then utf8 "world" else utf8 "hello"
  noncePrefix := if other then otherPrefix else body.noncePrefix
  framing := ⟨if other then otherPrefix else body.noncePrefix, 1⟩
  chunks := [if other then otherChunk else chunk]
  encrypted := by cases other <;> decide +kernel

theorem knownRun_chunks (other : Bool) :
    (knownRun other).chunks = [if other then otherChunk else chunk] := rfl

/-- Of what is in the table, the chunk of a run is opened by the inputs of its encryption only. -/
theorem sealings_chunk : ∀ other, ∀ e ∈ sealings, e.2.1 = (if other then otherChunk else chunk) →
    e.1 = (knownChunkKey, chunkNonce (knownRun other).noncePrefix 0, chunkAad 0 1) := by
  decide +kernel

theorem known_opensOnly {other : Bool} {key : Bytes 32} {nonce : Bytes 24} {aad data : List UInt8}
    (h : aeadOpen primitives key nonce aad (if other then otherChunk else chunk) = .ok data) :
    key = knownChunkKey ∧ nonce = chunkNonce (knownRun other).noncePrefix 0 ∧
      aad = chunkAad 0 1 := by
  unfold aeadOpen at h
  cases hfind : primitives.aeadDecrypt key nonce aad (if other then otherChunk else chunk) with
  | none =>
    rw [hfind] at h
    exact absurd h nofun
  | some data' =>
    obtain ⟨entry, hentry, -⟩ := Option.map_eq_some_iff.mp hfind
    have hmem := List.mem_of_find?_eq_some hentry
    have hmatch := List.find?_some hentry
    simp only [decide_eq_true_eq] at hmatch
    obtain ⟨hargs, hcipher⟩ := hmatch
    have hinputs := hargs.symm.trans (sealings_chunk other entry hmem hcipher)
    exact ⟨congrArg Prod.fst hinputs, congrArg (·.2.1) hinputs, congrArg (·.2.2) hinputs⟩

theorem known_sealed (other : Bool) :
    aeadSeal primitives knownChunkKey (chunkNonce (knownRun other).framing.noncePrefix 0)
      (chunkAad 0 1) (chunkData (knownRun other).plaintext 0) =
        .ok (if other then otherChunk else chunk) ∧
    aeadOpen primitives knownChunkKey (chunkNonce (knownRun other).framing.noncePrefix 0)
      (chunkAad 0 1) (if other then otherChunk else chunk) =
        .ok (chunkData (knownRun other).plaintext 0) := by
  cases other <;> decide +kernel

theorem known_ideal (other : Bool) : ∀ call, (knownRun other).Calls call →
    call.Opens primitives ∧ call.OpensOnly primitives := by
  rintro ⟨key, nonce, aad, data, ciphertext⟩ ⟨index, hindex, hkey, hnonce, haad, hdata, hseal⟩
  obtain rfl : index = 0 := by
    rw [knownRun_chunks, List.length_singleton] at hindex
    omega
  obtain rfl : knownChunkKey = key := Except.ok.inj (knownChunkKey_derived.symm.trans hkey)
  dsimp only at hnonce haad hdata hseal
  subst hnonce haad hdata
  obtain ⟨hsealed, hopen⟩ := known_sealed other
  obtain rfl := Except.ok.inj (hsealed.symm.trans hseal)
  exact ⟨hopen, fun key nonce aad data hopen => known_opensOnly hopen⟩

/-- Each run's chunk is its content; twice, or in the place of the other's, it is not one. -/
theorem known_chunk_not_duplicated :
    streamDecrypt primitives Core.KnownAnswers.contentKey (knownRun false).framing [chunk] =
        .ok (utf8 "hello") ∧
      streamDecrypt primitives Core.KnownAnswers.contentKey (knownRun true).framing [otherChunk] =
        .ok (utf8 "world") ∧
      (∀ plaintext, streamDecrypt primitives Core.KnownAnswers.contentKey
        (knownRun false).framing [chunk, chunk] ≠ .ok plaintext) ∧
      ∀ plaintext, streamDecrypt primitives Core.KnownAnswers.contentKey
        (knownRun false).framing [otherChunk] ≠ .ok plaintext := by
  have hdistinct : Function.Injective fun other => (knownRun other).noncePrefix := by decide +kernel
  have hiff := streamDecrypt_ok_iff_own_chunks primitives Core.KnownAnswers.contentKey knownRun
    hdistinct known_ideal
  have hdrawn : ∀ chunks : List (List UInt8), (∀ c ∈ chunks, c = chunk ∨ c = otherChunk) →
      ∀ c ∈ chunks, ∃ s, c ∈ (knownRun s).chunks := by
    intro chunks hchunks c hc
    obtain rfl | rfl := hchunks c hc
    · exact ⟨false, List.mem_singleton_self _⟩
    · exact ⟨true, List.mem_singleton_self _⟩
  refine ⟨(hiff false [chunk] (hdrawn _ (by simp)) _).mpr ⟨rfl, rfl⟩,
    (hiff true [otherChunk] (hdrawn _ (by simp)) _).mpr ⟨rfl, rfl⟩, fun plaintext h => ?_,
    fun plaintext h => ?_⟩
  · have htwice := ((hiff false [chunk, chunk] (hdrawn _ (by simp)) _).mp h).1
    exact absurd (congrArg List.length htwice) (by decide)
  · have hspliced := ((hiff false [otherChunk] (hdrawn _ (by simp)) _).mp h).1
    exact absurd (List.singleton_inj.mp hspliced) (by decide +kernel)

/-- The chunk of the known drop is refused under the total two. -/
theorem known_chunk_refused :
    ∃ e, streamDecrypt primitives Core.KnownAnswers.contentKey
      ⟨(knownRun false).framing.noncePrefix, 2⟩ [chunk, chunk] = .error e :=
  (streamDecrypt_other_total_iff primitives Core.KnownAnswers.contentKey (knownRun false)
    (fun call hcall => (known_ideal false call hcall).2) 2 (by decide) [chunk, chunk]
    (fun c hc => List.mem_singleton.mpr (List.eq_of_mem_replicate (n := 2) hc))).mpr (by decide)

/-- Under the total zero nothing at all is accepted as the known drop's content. -/
theorem known_content_dropped :
    (0 : UInt32) ≠ (knownRun false).framing.total ∧
      (∀ call, (knownRun false).Calls call → call.OpensOnly primitives) ∧
      (∀ c ∈ ([] : List (List UInt8)), c ∈ (knownRun false).chunks) ∧
      streamDecrypt primitives Core.KnownAnswers.contentKey
        ⟨(knownRun false).framing.noncePrefix, 0⟩ [] = .ok [] :=
  ⟨by decide, fun call hcall => (known_ideal false call hcall).2, by simp, rfl⟩

end KnownChunk

end Keepstone.Crypto
