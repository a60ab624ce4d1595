import Keepstone.Core.Body
import Keepstone.Core.Codec

/-!
# The capacity of a body's keys (`crates/core/src/types.rs:260-323`)

`from_canonical` gives the count of an array head to `Vec::with_capacity` before it reads a key. The
head may claim any 64-bit count. `PanicDecoder.dropBody` is the decoder with its panics: those of the
primitive readings, and the one of a vector of more than `isize::MAX` bytes. `size` is
`size_of::<WrappedKey>()`.

Results:
* `agrees_dropHead`, `agrees_wrappedKey`: nothing else in `from_canonical` panics;
* `capacityRequest_iff`: which count is asked for;
* `panicking_fromCanonical_eq`: otherwise, the decoder with its panics is the decoder;
* **`capacity_bounded_iff`**: for which inputs the count is no more than the input has bytes, and the
  decoder returns.
-/

namespace Keepstone.Core

open Keepstone.Lib Keepstone.Crypto

/-- What `to_canonical` writes before the keys, for `count` of them. -/
def DropBody.headCanonical (body : DropBody) (count : Nat) : List UInt8 :=
  Encoder.array 14 ++ Encoder.uint body.version.toUInt64 ++ Encoder.uint body.suite.toUInt64 ++
    Encoder.text body.cell ++ Encoder.uint body.ring.toUInt64 ++ Encoder.uint body.createdAt ++
    Encoder.uint body.expiry ++ Encoder.uint body.mode.toUInt64 ++
    Encoder.uint body.chunkSize.toUInt64 ++ Encoder.uint body.chunkCount.toUInt64 ++
    Encoder.bytes body.contentRoot.toList ++ Encoder.bytes body.noncePrefix.toList ++
    Encoder.bytes body.dropNonce.toList ++ Encoder.uint body.powNonce ++ Encoder.array count

theorem toCanonical_eq_head (body : DropBody) :
    body.toCanonical = body.headCanonical body.wrappedKeys.length ++
      body.wrappedKeys.flatMap WrappedKey.toCanonical := rfl

/-! ## The parts of the decoder -/

namespace Decoder

/-- The fields of `from_canonical` before the keys, and the count. -/
def dropHead : Decoder (DropBody × Nat) := do
  let arity ← array
  Reader.ensure (arity = 14) (.cbor "drop body arity")
  let version ← uint8 "version"
  let suite ← uint8 "suite"
  let cell ← text
  let ring ← uint32 "ring"
  let createdAt ← uint
  let expiry ← uint
  let mode ← uint8 "mode"
  let chunkSize ← uint32 "chunk_size"
  let chunkCount ← uint32 "chunk_count"
  let contentRoot ← bytesFixed 32
  let noncePrefix ← bytesFixed 20
  let dropNonce ← bytesFixed 16
  let powNonce ← uint
  let wrappedCount ← array
  pure (⟨version, suite, cell, ring, createdAt, expiry, mode, chunkSize, chunkCount, contentRoot,
    noncePrefix, dropNonce, powNonce, []⟩, wrappedCount)

/-- The keys of `from_canonical`, after the other fields. -/
def withKeys (head : DropBody × Nat) : Decoder DropBody := do
  let wrappedKeys ← wrappedKey.replicate head.2
  pure { head.1 with wrappedKeys }

theorem dropBody_eq : dropBody = dropHead >>= withKeys := by
  unfold dropBody dropHead withKeys wrappedKeyList
  simp only [Reader.bind_assoc, Reader.pure_bind]

theorem exact_dropHead :
    Exact dropHead (fun head => head.1.wrappedKeys = [] ∧ head.2 < 2 ^ 64)
      fun head => head.1.headCanonical head.2 := by
  refine (exact_arity (Q := fun head : DropBody × Nat => head.1.wrappedKeys = [] ∧ head.2 < 2 ^ 64)
    (by decide) _
    (Exact.field (fun head : DropBody × Nat => head.1.version) (exact_uint8 _) fun _ =>
    Exact.field (fun head : DropBody × Nat => head.1.suite) (exact_uint8 _) fun _ =>
    Exact.field (fun head : DropBody × Nat => head.1.cell) exact_text fun _ =>
    Exact.field (fun head : DropBody × Nat => head.1.ring) (exact_uint32 _) fun _ =>
    Exact.field (fun head : DropBody × Nat => head.1.createdAt) exact_uint fun _ =>
    Exact.field (fun head : DropBody × Nat => head.1.expiry) exact_uint fun _ =>
    Exact.field (fun head : DropBody × Nat => head.1.mode) (exact_uint8 _) fun _ =>
    Exact.field (fun head : DropBody × Nat => head.1.chunkSize) (exact_uint32 _) fun _ =>
    Exact.field (fun head : DropBody × Nat => head.1.chunkCount) (exact_uint32 _) fun _ =>
    Exact.field (fun head : DropBody × Nat => head.1.contentRoot) (exact_bytesFixed 32) fun _ =>
    Exact.field (fun head : DropBody × Nat => head.1.noncePrefix) (exact_bytesFixed 20) fun _ =>
    Exact.field (fun head : DropBody × Nat => head.1.dropNonce) (exact_bytesFixed 16) fun _ =>
    Exact.field (fun head : DropBody × Nat => head.1.powNonce) exact_uint fun _ =>
    Exact.fieldOf (fun head : DropBody × Nat => head.2) exact_array (fun head h => ?_) fun _ hlt =>
    (Exact.pure _).congr (fun _ _ => rfl) fun head _ => ?_)).congr (fun head _ => ?_)
      fun _ _ => Iff.rfl
  · simp only [and_assoc] at h
    exact h.2.1
  · obtain ⟨body, count⟩ := head
    cases body
    simp only [Prod.mk.injEq, DropBody.mk.injEq, and_assoc]
    constructor
    · rintro ⟨h₁, h₂, h₃, h₄, h₅, h₆, h₇, h₈, h₉, h₁₀, h₁₁, h₁₂, h₁₃, hkeys, rfl⟩
      exact ⟨hkeys, hlt, h₁, h₂, h₃, h₄, h₅, h₆, h₇, h₈, h₉, h₁₀, h₁₁, h₁₂, h₁₃, rfl⟩
    · rintro ⟨hkeys, -, h₁, h₂, h₃, h₄, h₅, h₆, h₇, h₈, h₉, h₁₀, h₁₁, h₁₂, h₁₃, rfl⟩
      exact ⟨h₁, h₂, h₃, h₄, h₅, h₆, h₇, h₈, h₉, h₁₀, h₁₁, h₁₂, h₁₃, hkeys, rfl⟩
  · simp only [DropBody.headCanonical, List.append_assoc, List.append_nil]

end Decoder

namespace PanicDecoder

/-- `uint`. -/
def uint : PanicDecoder UInt64 := expect majorUint

/-- `bytes`. -/
def bytes : PanicDecoder (List UInt8) := readSlice majorBytes

/-- `array`. -/
def array : PanicDecoder Nat := header majorArray

/-- `bytes_fixed`. -/
def bytesFixed (n : Nat) : PanicDecoder (Bytes n) := do
  let slice ← bytes
  Reader.ensure (slice.length = n) (.error (.cbor "fixed length mismatch"))
  copyFromSlice n slice

/-- `T::try_from(dec.uint()?)`, as in `Decoder.uintTryFrom`. -/
def uintTryFrom {β : Type} (max : UInt64) (narrow : UInt64 → β) (field : String) :
    PanicDecoder β := do
  let v ← uint
  if v ≤ max then pure (narrow v) else Reader.fail (.error (.cbor field))

/-- `u8::try_from(dec.uint()?)`. -/
def uint8 (field : String) : PanicDecoder UInt8 := uintTryFrom 0xFF UInt64.toUInt8 field

/-- `u32::try_from(dec.uint()?)`. -/
def uint32 (field : String) : PanicDecoder UInt32 := uintTryFrom 0xFFFFFFFF UInt64.toUInt32 field

/-- `Vec::with_capacity(count)` of elements of `size` bytes. -/
def withCapacity (size count : Nat) : PanicDecoder Unit :=
  Reader.ensure (count * size < 2 ^ 63) .panic

/-- The fields of a classical sealed key. -/
def classicalSealed : PanicDecoder SealedKey := do
  let arity ← array
  Reader.ensure (arity = 3) (.error (.cbor "classical sealed arity"))
  let ephemeralPublic ← bytesFixed 32
  let nonce ← bytesFixed 24
  let ciphertext ← bytes
  pure ⟨ephemeralPublic, nonce, ciphertext⟩

/-- The fields of a hybrid sealed key. -/
def hybridSealed : PanicDecoder HybridSealed := do
  let arity ← array
  Reader.ensure (arity = 4) (.error (.cbor "hybrid sealed arity"))
  let ephemeralX25519 ← bytesFixed 32
  let kemCiphertext ← bytes
  let nonce ← bytesFixed 24
  let ciphertext ← bytes
  pure ⟨ephemeralX25519, kemCiphertext, nonce, ciphertext⟩

/-- The kind of a sealed key and the `match kind` of `from_canonical`. -/
def sealedContentKey : PanicDecoder SealedContentKey := do
  let kind ← uint
  if kind = 1 then
    let sealed ← classicalSealed
    pure (.classical sealed)
  else if kind = 2 then
    let sealed ← hybridSealed
    pure (.hybrid sealed)
  else Reader.fail (.error (.cbor "unknown sealed key kind"))

/-- One turn of the loop of `from_canonical`. -/
def wrappedKey : PanicDecoder WrappedKey := do
  let arity ← array
  Reader.ensure (arity = 3) (.error (.cbor "wrapped key arity"))
  let tag ← bytesFixed 8
  let sealed ← sealedContentKey
  pure ⟨tag, sealed⟩

/-- The fields of `from_canonical` before the keys, and the count. -/
def dropHead : PanicDecoder (DropBody × Nat) := do
  let arity ← array
  Reader.ensure (arity = 14) (.error (.cbor "drop body arity"))
  let version ← uint8 "version"
  let suite ← uint8 "suite"
  let cell ← text
  let ring ← uint32 "ring"
  let createdAt ← uint
  let expiry ← uint
  let mode ← uint8 "mode"
  let chunkSize ← uint32 "chunk_size"
  let chunkCount ← uint32 "chunk_count"
  let contentRoot ← bytesFixed 32
  let noncePrefix ← bytesFixed 20
  let dropNonce ← bytesFixed 16
  let powNonce ← uint
  let wrappedCount ← array
  pure (⟨version, suite, cell, ring, createdAt, expiry, mode, chunkSize, chunkCount, contentRoot,
    noncePrefix, dropNonce, powNonce, []⟩, wrappedCount)

/-- The keys of `from_canonical`, after the other fields. -/
def withKeys (head : DropBody × Nat) : PanicDecoder DropBody := do
  let wrappedKeys ← wrappedKey.replicate head.2
  pure { head.1 with wrappedKeys }

/-- `finish`. -/
def finish : PanicDecoder Unit := fun c =>
  if c.pos = c.input.length then (.ok (), c) else (.error (.error (.cbor "trailing bytes")), c)

/-- The whole of `from_canonical`. -/
def dropBody (size : Nat) : PanicDecoder DropBody := do
  let head ← dropHead
  withCapacity size head.2
  let body ← withKeys head
  finish
  pure body

end PanicDecoder

/-- `DropBody::from_canonical`, with its panics. -/
def DropBody.panickingFromCanonical (size : Nat) (bytes : List UInt8) :
    Except (Fault CoreError) DropBody :=
  (PanicDecoder.dropBody size ⟨bytes, 0⟩).1

/-- The count that `from_canonical` gives to `Vec::with_capacity`, if it comes to that. -/
def capacityRequest (bytes : List UInt8) : Option Nat :=
  (PanicDecoder.dropHead ⟨bytes, 0⟩).1.toOption.map Prod.snd

/-! ## Where nothing panics -/

namespace PanicDecoder

theorem agrees_uint : Agrees uint Decoder.uint := agrees_expect _

theorem agrees_bytes : Agrees bytes Decoder.bytes := agrees_readSlice (by decide)

theorem agrees_array : Agrees array Decoder.array := agrees_header (by decide)

/-- `copy_from_slice` comes after the comparison of the lengths. -/
theorem agrees_bytesFixed (n : Nat) : Agrees (bytesFixed n) (Decoder.bytesFixed n) := by
  refine agrees_bytes.bind Decoder.exact_bytes fun slice _ => ?_
  cases hslice : tryBytes n slice with
  | none =>
    rw [Reader.ensure, if_neg (tryBytes_eq_none_iff.mp hslice)]
    exact Agrees.fail _
  | some out =>
    have hlen : slice.length = n := by
      rw [tryBytes_eq_some_iff.mp hslice, out.toList_length]
    rw [Reader.ensure, if_pos hlen, copyFromSlice, hslice]
    exact Agrees.pure out

theorem agrees_uintTryFrom {β : Type} (max : UInt64) (narrow : UInt64 → β) (field : String) :
    Agrees (uintTryFrom max narrow field) (Decoder.uintTryFrom max narrow field) :=
  agrees_uint.bind Decoder.exact_uint fun _ _ =>
    Agrees.ite (fun _ => Agrees.pure _) fun _ => Agrees.fail _

theorem agrees_uint8 (field : String) : Agrees (uint8 field) (Decoder.uint8 field) :=
  agrees_uintTryFrom _ _ _

theorem agrees_uint32 (field : String) : Agrees (uint32 field) (Decoder.uint32 field) :=
  agrees_uintTryFrom _ _ _

/-- An arity, and then the rest. -/
theorem agrees_arity {α : Type} (n : Nat) (e : CoreError) {k : PanicDecoder α} {k' : Decoder α}
    (hk : Agrees k k') :
    Agrees (do let arity ← array; Reader.ensure (arity = n) (.error e); k)
      (do let arity ← Decoder.array; Reader.ensure (arity = n) e; k') :=
  agrees_array.bind Decoder.exact_array fun _ _ =>
    (Agrees.ensure _ _).bind (Exact.ensure _ _) fun _ _ => hk

theorem agrees_classicalSealed : Agrees classicalSealed Decoder.classicalSealed :=
  agrees_arity 3 _ <|
    (agrees_bytesFixed 32).bind (Decoder.exact_bytesFixed 32) fun _ _ =>
    (agrees_bytesFixed 24).bind (Decoder.exact_bytesFixed 24) fun _ _ =>
    agrees_bytes.bind Decoder.exact_bytes fun _ _ => Agrees.pure _

theorem agrees_hybridSealed : Agrees hybridSealed Decoder.hybridSealed :=
  agrees_arity 4 _ <|
    (agrees_bytesFixed 32).bind (Decoder.exact_bytesFixed 32) fun _ _ =>
    agrees_bytes.bind Decoder.exact_bytes fun _ _ =>
    (agrees_bytesFixed 24).bind (Decoder.exact_bytesFixed 24) fun _ _ =>
    agrees_bytes.bind Decoder.exact_bytes fun _ _ => Agrees.pure _

theorem agrees_sealedContentKey : Agrees sealedContentKey Decoder.sealedContentKey :=
  agrees_uint.bind Decoder.exact_uint fun _ _ =>
    Agrees.ite (fun _ => agrees_classicalSealed.bind Decoder.exact_classicalSealed fun _ _ =>
      Agrees.pure _) fun _ =>
    Agrees.ite (fun _ => agrees_hybridSealed.bind Decoder.exact_hybridSealed fun _ _ =>
      Agrees.pure _) fun _ => Agrees.fail _

theorem agrees_wrappedKey : Agrees wrappedKey Decoder.wrappedKey :=
  agrees_arity 3 _ <|
    (agrees_bytesFixed 8).bind (Decoder.exact_bytesFixed 8) fun _ _ =>
    agrees_sealedContentKey.bind Decoder.exact_sealedContentKey fun _ _ => Agrees.pure _

theorem agrees_dropHead : Agrees dropHead Decoder.dropHead :=
  agrees_arity 14 _ <|
    (agrees_uint8 _).bind (Decoder.exact_uint8 _) fun _ _ =>
    (agrees_uint8 _).bind (Decoder.exact_uint8 _) fun _ _ =>
    agrees_text.bind Decoder.exact_text fun _ _ =>
    (agrees_uint32 _).bind (Decoder.exact_uint32 _) fun _ _ =>
    agrees_uint.bind Decoder.exact_uint fun _ _ =>
    agrees_uint.bind Decoder.exact_uint fun _ _ =>
    (agrees_uint8 _).bind (Decoder.exact_uint8 _) fun _ _ =>
    (agrees_uint32 _).bind (Decoder.exact_uint32 _) fun _ _ =>
    (agrees_uint32 _).bind (Decoder.exact_uint32 _) fun _ _ =>
    (agrees_bytesFixed 32).bind (Decoder.exact_bytesFixed 32) fun _ _ =>
    (agrees_bytesFixed 20).bind (Decoder.exact_bytesFixed 20) fun _ _ =>
    (agrees_bytesFixed 16).bind (Decoder.exact_bytesFixed 16) fun _ _ =>
    agrees_uint.bind Decoder.exact_uint fun _ _ =>
    agrees_array.bind Decoder.exact_array fun _ _ => Agrees.pure _

theorem agrees_finish {α : Type} (a : α) :
    Agrees (do finish; pure a) (do Decoder.finish; pure a) := by
  intro c hc
  have hfinish : ∀ {ε : Type} {r : Reader ε Unit} {e : ε},
      r c = (if c.pos = c.input.length then (.ok (), c) else (.error e, c)) →
      (do r; pure a : Reader ε α) c =
        if c.pos = c.input.length then (.ok a, c) else (.error e, c) := by
    intro ε r e hr
    split_ifs at hr ⊢
    · exact Reader.bind_of_ok hr
    · exact Reader.bind_of_error hr
  have hpanic := @hfinish _ finish _ rfl
  have hplain := @hfinish _ Decoder.finish _ rfl
  unfold Reader.mapErr
  rw [hpanic, hplain]
  split_ifs
  · exact ⟨rfl, hc, rfl⟩
  · exact ⟨rfl, hc, rfl⟩

/-- The keys and the end of the input. -/
theorem agrees_tail (head : DropBody × Nat) :
    Agrees (do let body ← withKeys head; finish; pure body)
      (do let body ← Decoder.withKeys head; Decoder.finish; pure body) := by
  have hkeys : Agrees (withKeys head) (Decoder.withKeys head) :=
    (agrees_wrappedKey.replicate Decoder.exact_wrappedKey head.2).bind
      (Decoder.exact_wrappedKey.replicate head.2) fun _ _ => Agrees.pure _
  have hexact := (Decoder.exact_wrappedKey.replicate head.2).map
    (fun wrappedKeys => { head.1 with wrappedKeys })
    (g := fun body : DropBody => body.wrappedKeys.flatMap WrappedKey.toCanonical) fun _ _ => rfl
  exact hkeys.bind hexact fun body _ => agrees_finish body

end PanicDecoder

/-! ## Which counts are asked for -/

section Counts

variable {size : Nat} {bytes : List UInt8}

/-- The count that is asked for is one that the input claims after the other fields. -/
theorem capacityRequest_iff (hlen : bytes.length < 2 ^ 64) {count : Nat} :
    capacityRequest bytes = some count ↔
      count < 2 ^ 64 ∧ ∃ body : DropBody, body.headCanonical count <+: bytes := by
  have hvalid : Cursor.Valid ⟨bytes, 0⟩ := ⟨Nat.zero_le _, hlen⟩
  have hexact := Decoder.exact_dropHead ⟨bytes, 0⟩ hvalid
  unfold capacityRequest
  rw [Option.map_eq_some_iff, (PanicDecoder.agrees_dropHead _ hvalid).1]
  simp only [toOption_eq_some_iff]
  constructor
  · rintro ⟨head, hhead, rfl⟩
    obtain ⟨⟨-, hcount⟩, hpre, -⟩ :=
      (hexact head _).mp (Reader.mapErr_ok_iff.mp (Prod.ext hhead rfl))
    exact ⟨hcount, head.1, hpre⟩
  · rintro ⟨hcount, body, hpre⟩
    have hrun := (hexact ({ body with wrappedKeys := [] }, count) _).mpr ⟨⟨rfl, hcount⟩, hpre, rfl⟩
    exact ⟨_, congrArg Prod.fst (Reader.mapErr_ok_iff.mpr hrun), rfl⟩

/-- A vector that is too large. -/
theorem panicking_fromCanonical_panics {count : Nat} (h : capacityRequest bytes = some count)
    (hlarge : 2 ^ 63 ≤ count * size) :
    DropBody.panickingFromCanonical size bytes = .error .panic := by
  unfold capacityRequest at h
  obtain ⟨head, hhead, rfl⟩ := Option.map_eq_some_iff.mp h
  have hrun : PanicDecoder.dropHead ⟨bytes, 0⟩ = (.ok head, _) :=
    Prod.ext (toOption_eq_some_iff.mp hhead) rfl
  have hcapacity : PanicDecoder.withCapacity size head.2 = Reader.fail .panic :=
    if_neg (Nat.not_lt.mpr hlarge)
  unfold DropBody.panickingFromCanonical PanicDecoder.dropBody
  rw [Reader.bind_of_ok hrun, hcapacity]
  rfl

/-- Otherwise, the decoder with its panics is the decoder. -/
theorem panicking_fromCanonical_eq (hlen : bytes.length < 2 ^ 64)
    (h : ∀ count, capacityRequest bytes = some count → count * size < 2 ^ 63) :
    DropBody.panickingFromCanonical size bytes = (DropBody.fromCanonical bytes).mapError .error := by
  have hvalid : Cursor.Valid ⟨bytes, 0⟩ := ⟨Nat.zero_le _, hlen⟩
  obtain ⟨hsame, hnext, -⟩ := PanicDecoder.agrees_dropHead ⟨bytes, 0⟩ hvalid
  unfold DropBody.panickingFromCanonical PanicDecoder.dropBody DropBody.fromCanonical Decoder.runAll
  rw [Decoder.dropBody_eq, Reader.bind_assoc]
  cases hrun : Decoder.dropHead ⟨bytes, 0⟩ with
  | mk result c₁ =>
    rw [hrun] at hnext
    unfold Reader.mapErr at hsame
    rw [hrun] at hsame
    cases result with
    | error e =>
      rw [Reader.bind_of_error hrun, Reader.bind_of_error hsame]
      rfl
    | ok head =>
      have hcount : head.2 * size < 2 ^ 63 := by
        refine h head.2 ?_
        unfold capacityRequest
        rw [hsame]
        rfl
      have hcapacity : PanicDecoder.withCapacity size head.2 = pure () := if_pos hcount
      rw [Reader.bind_of_ok hrun, Reader.bind_of_ok hsame, hcapacity, Reader.pure_bind,
        (PanicDecoder.agrees_tail head c₁ hnext).1]
      rfl

/-- The input claims more keys than it has bytes, or than a vector can hold. -/
def Overclaims (size : Nat) (bytes : List UInt8) : Prop :=
  ∃ body : DropBody, ∃ count < 2 ^ 64, body.headCanonical count <+: bytes ∧
    (bytes.length < count ∨ 2 ^ 63 ≤ count * size)

/-- **For which inputs the capacity is bounded**: `from_canonical` asks for no more elements than the
input has bytes, and returns. -/
theorem capacity_bounded_iff (size : Nat) {bytes : List UInt8} (hlen : bytes.length < 2 ^ 64) :
    (∀ count, capacityRequest bytes = some count → count ≤ bytes.length) ∧
      DropBody.panickingFromCanonical size bytes ≠ .error .panic ↔ ¬ Overclaims size bytes := by
  constructor
  · rintro ⟨hbound, hreturns⟩ ⟨body, count, hcount, hpre, hlarge⟩
    have hrequest := (capacityRequest_iff hlen).mpr ⟨hcount, body, hpre⟩
    rcases hlarge with hlarge | hlarge
    · exact absurd (hbound count hrequest) (Nat.not_le.mpr hlarge)
    · exact hreturns (panicking_fromCanonical_panics hrequest hlarge)
  · intro hclaims
    have hrequest : ∀ count, capacityRequest bytes = some count →
        count ≤ bytes.length ∧ count * size < 2 ^ 63 := by
      intro count h
      obtain ⟨hcount, body, hpre⟩ := (capacityRequest_iff hlen).mp h
      have hnot : ¬ (bytes.length < count ∨ 2 ^ 63 ≤ count * size) :=
        fun hlarge => hclaims ⟨body, count, hcount, hpre, hlarge⟩
      rw [not_or, Nat.not_lt, Nat.not_le] at hnot
      exact hnot
    refine ⟨fun count h => (hrequest count h).1, ?_⟩
    rw [panicking_fromCanonical_eq hlen fun count h => (hrequest count h).2]
    cases DropBody.fromCanonical bytes <;> exact nofun

end Counts

/-- A body without keys. -/
def knownBody : DropBody :=
  { version := 1, suite := 2, cell := "8928308280fffff", ring := 2, createdAt := 1700000000,
    expiry := 0, mode := 0, chunkSize := 65536, chunkCount := 1,
    contentRoot := List.Vector.replicate 32 9, noncePrefix := List.Vector.replicate 20 7,
    dropNonce := List.Vector.replicate 16 5, powNonce := 300, wrappedKeys := [] }

/-- The same with two keys. -/
def knownSealedBody : DropBody :=
  let key : WrappedKey := ⟨List.Vector.replicate 8 1, .classical
    ⟨List.Vector.replicate 32 2, List.Vector.replicate 24 3, List.replicate 48 4⟩⟩
  { knownBody with wrappedKeys := [key, key] }

/-- It is read with a vector for its two keys. -/
theorem known_capacity_bounded :
    capacityRequest knownSealedBody.toCanonical = some 2 ∧
      (∀ count, capacityRequest knownSealedBody.toCanonical = some count →
        count ≤ knownSealedBody.toCanonical.length) ∧
      DropBody.panickingFromCanonical 128 knownSealedBody.toCanonical ≠ .error .panic := by
  have hlen : knownSealedBody.toCanonical.length < 2 ^ 64 := by decide +kernel
  have hlong : 2 ≤ knownSealedBody.toCanonical.length := by decide +kernel
  have hown : capacityRequest knownSealedBody.toCanonical = some 2 :=
    (capacityRequest_iff hlen).mpr
      ⟨by decide, knownSealedBody, _, (toCanonical_eq_head knownSealedBody).symm⟩
  refine ⟨hown, (capacity_bounded_iff 128 hlen).mpr ?_⟩
  rintro ⟨body, count, hcount, hpre, hlarge⟩
  have hclaimed := (capacityRequest_iff hlen).mpr ⟨hcount, body, hpre⟩
  obtain rfl := Option.some.inj (hown.symm.trans hclaimed)
  omega

/-- With a head that claims `2^64 - 1` keys, it is not read: even a vector of that many bytes is too
large. -/
theorem known_capacity_panics :
    let bytes := knownBody.headCanonical (2 ^ 64 - 1)
    capacityRequest bytes = some (2 ^ 64 - 1) ∧ bytes.length < 2 ^ 64 - 1 ∧
      DropBody.panickingFromCanonical 1 bytes = .error .panic := by
  intro bytes
  have hlen : bytes.length < 2 ^ 64 - 1 := by decide +kernel
  have hrequest : capacityRequest bytes = some (2 ^ 64 - 1) :=
    (capacityRequest_iff (hlen.trans (by decide))).mpr
      ⟨by decide, knownBody, List.prefix_rfl⟩
  exact ⟨hrequest, hlen, panicking_fromCanonical_panics hrequest (by decide)⟩

end Keepstone.Core
