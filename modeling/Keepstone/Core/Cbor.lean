import Keepstone.Crypto.Keys
import Keepstone.Lib.Reader
import Mathlib.Data.FinEnum

/-!
# Canonical CBOR (`crates/core/src/cbor.rs`)

The encoder appends to a buffer, so each of its methods is the bytes it appends. The decoder is a
`Reader` over the input; `usize` is 64 bits wide, so `usize::try_from` on a `u64` always succeeds
and only `checked_add` in `read_exact` can overflow.

Results: each decoder method is exact (`Lib.Exact`) for the encoder method of its name, so it
accepts the shortest form and nothing else: `exact_readHead`, `exact_uint`, `exact_bytes`,
`exact_bytesFixed`, `exact_text`, `exact_array`, `exact_map`, `exact_bool`.
-/

namespace Keepstone.Core

open Keepstone.Lib

/-- `CoreError`. -/
inductive CoreError where
  | cbor (message : String)
  | crypto (error : Crypto.CryptoError)
  | cell (message : String)
  | length
  | verify
  | invalid (message : String)
  deriving Repr, DecidableEq

/-- `Display` for `CoreError`. -/
def CoreError.text : CoreError → String
  | cbor message => "cbor: " ++ message
  | crypto error => "crypto: " ++ error.text
  | cell message => "cell: " ++ message
  | length => "length mismatch"
  | verify => "signature verification failed"
  | invalid message => "invalid: " ++ message

/-- `MAJOR_UINT`. -/
def majorUint : UInt8 := 0
/-- `MAJOR_BYTES`. -/
def majorBytes : UInt8 := 2
/-- `MAJOR_TEXT`. -/
def majorText : UInt8 := 3
/-- `MAJOR_ARRAY`. -/
def majorArray : UInt8 := 4
/-- `MAJOR_MAP`. -/
def majorMap : UInt8 := 5

/-! ## Encoder -/

namespace Encoder

/-- `head`: the shortest form of `value` under major type `major`. -/
def head (major : UInt8) (value : UInt64) : List UInt8 :=
  let majorBits := major <<< 5
  if value < 24 then [majorBits ||| value.toUInt8]
  else if value ≤ 0xFF then [majorBits ||| 24, value.toUInt8]
  else if value ≤ 0xFFFF then (majorBits ||| 25) :: beBytes 2 value.toNat
  else if value ≤ 0xFFFFFFFF then (majorBits ||| 26) :: beBytes 4 value.toNat
  else (majorBits ||| 27) :: beBytes 8 value.toNat

/-- `u64::try_from(len).unwrap_or(u64::MAX)`. -/
def lenU64 (len : Nat) : UInt64 := if len < 2 ^ 64 then UInt64.ofNat len else 0xFFFFFFFFFFFFFFFF

/-- `uint`. -/
def uint (value : UInt64) : List UInt8 := head majorUint value

/-- `bytes`. -/
def bytes (value : List UInt8) : List UInt8 := head majorBytes (lenU64 value.length) ++ value

/-- `text`. -/
def text (value : String) : List UInt8 :=
  head majorText (lenU64 (utf8 value).length) ++ utf8 value

/-- `array`. -/
def array (len : Nat) : List UInt8 := head majorArray (lenU64 len)

/-- `map`. -/
def map (len : Nat) : List UInt8 := head majorMap (lenU64 len)

/-- `bool`. -/
def bool (value : Bool) : List UInt8 := [if value then 0xF5 else 0xF4]

end Encoder

/-! ## Decoder -/

/-- `Decoder`: reading with `CoreError`. -/
abbrev Decoder := Reader CoreError

namespace Decoder

/-- `read_u8`. -/
def readU8 : Decoder UInt8 := fun c =>
  match c.input[c.pos]? with
  | some byte => (.ok byte, { c with pos := c.pos + 1 })
  | none => (.error (.cbor "unexpected end"), c)

/-- `read_exact`. -/
def readExact (len : Nat) : Decoder (List UInt8) := fun c =>
  let endPos := c.pos + len
  if 2 ^ 64 ≤ endPos then (.error (.cbor "length overflow"), c)
  else if c.input.length < endPos then (.error (.cbor "unexpected end"), c)
  else (.ok ((c.input.drop c.pos).take len), { c with pos := endPos })

/-- The branch 24 of `read_head`: the value in one byte. -/
def readNarrow (major : UInt8) : Decoder (UInt8 × UInt64) := do
  let byte ← readU8
  let v := byte.toUInt64
  Reader.ensure (24 ≤ v) (.cbor "non-canonical integer")
  pure (major, v)

/-- The branches 25, 26 and 27 of `read_head`: the value in `k` bytes, rejected if it is at most
`low` and so has a shorter form. -/
def readWide (k : Nat) (low : UInt64) (major : UInt8) : Decoder (UInt8 × UInt64) := do
  let bytes ← readExact k
  let v := UInt64.ofNat (beNat bytes)
  Reader.ensure (low < v) (.cbor "non-canonical integer")
  pure (major, v)

/-- `read_head` after its initial byte: the major type and the value. -/
def readHeadTail (initial : UInt8) : Decoder (UInt8 × UInt64) :=
  let major := initial >>> 5
  let additional := initial &&& 0x1F
  if additional ≤ 23 then pure (major, additional.toUInt64)
  else if additional = 24 then readNarrow major
  else if additional = 25 then readWide 2 0xFF major
  else if additional = 26 then readWide 4 0xFFFF major
  else if additional = 27 then readWide 8 0xFFFFFFFF major
  else Reader.fail (.cbor "indefinite or reserved length")

/-- `read_head`. -/
def readHead : Decoder (UInt8 × UInt64) := do
  let initial ← readU8
  readHeadTail initial

/-- `expect`. -/
def expect (major : UInt8) : Decoder UInt64 := do
  let (found, value) ← readHead
  Reader.ensure (found = major) (.cbor "unexpected major type")
  pure value

/-- `uint`. -/
def uint : Decoder UInt64 := expect majorUint

/-- The length and the bytes of a string of either kind. -/
def readSlice (major : UInt8) : Decoder (List UInt8) := do
  let len ← expect major
  readExact len.toNat

/-- `bytes`. -/
def bytes : Decoder (List UInt8) := readSlice majorBytes

/-- `bytes_fixed`. -/
def bytesFixed (n : Nat) : Decoder (Bytes n) := do
  let slice ← bytes
  match tryBytes n slice with
  | some out => pure out
  | none => Reader.fail (.cbor "fixed length mismatch")

/-- `text`. -/
def text : Decoder String := do
  let slice ← readSlice majorText
  match String.fromUTF8? ⟨slice.toArray⟩ with
  | some s => pure s
  | none => Reader.fail (.cbor "invalid utf-8")

/-- `array`. -/
def array : Decoder Nat := do
  let len ← expect majorArray
  pure len.toNat

/-- `map`. -/
def map : Decoder Nat := do
  let len ← expect majorMap
  pure len.toNat

/-- `bool`. -/
def bool : Decoder Bool := do
  let byte ← readU8
  if byte = 0xF4 then pure false
  else if byte = 0xF5 then pure true
  else Reader.fail (.cbor "expected boolean")

/-- `finish`. -/
def finish : Decoder Unit := fun c =>
  if c.pos = c.input.length then (.ok (), c) else (.error (.cbor "trailing bytes"), c)

/-- `T::try_from(dec.uint()?)` for an integer type with the given maximum, with the field's name
as the error. -/
def uintTryFrom {β : Type} (max : UInt64) (narrow : UInt64 → β) (field : String) : Decoder β := do
  let v ← uint
  if v ≤ max then pure (narrow v) else Reader.fail (.cbor field)

/-- `u8::try_from(dec.uint()?)`. -/
def uint8 (field : String) : Decoder UInt8 := uintTryFrom 0xFF UInt64.toUInt8 field

/-- `u32::try_from(dec.uint()?)`. -/
def uint32 (field : String) : Decoder UInt32 := uintTryFrom 0xFFFFFFFF UInt64.toUInt32 field

end Decoder

/-! ## The primitive readings -/

namespace Decoder

theorem exact_readU8 : Exact readU8 (fun _ => True) fun byte => [byte] := by
  intro c _ byte c'
  have hhead : [byte] <+: c.rest ↔ c.input[c.pos]? = some byte := by
    have hget : c.input[c.pos]? = c.rest[0]? := by
      unfold Cursor.rest
      rw [List.getElem?_drop, Nat.add_zero]
    rw [hget]
    cases c.rest with
    | nil => simp
    | cons b rest => simp [eq_comm]
  rw [hhead]
  unfold readU8
  cases c.input[c.pos]? with
  | none => simp
  | some b =>
    simp only [Prod.mk.injEq, Except.ok.injEq, Option.some.injEq, true_and]
    constructor
    · rintro ⟨rfl, rfl⟩
      exact ⟨rfl, rfl⟩
    · rintro ⟨rfl, rfl⟩
      exact ⟨rfl, rfl⟩

theorem exact_readExact (len : Nat) :
    Exact (readExact len) (fun l => l.length = len) fun l => l := by
  intro c hc l c'
  have hpos := hc.pos_le
  have hlt : c.input.length < 2 ^ 64 := hc.length_lt
  have hrest : (c.input.drop c.pos).length = c.input.length - c.pos := List.length_drop ..
  unfold readExact Cursor.rest
  by_cases hend : c.input.length < c.pos + len
  · have hne : ¬ (l.length = len ∧ l <+: c.input.drop c.pos ∧ c' = c.advance l.length) := by
      rintro ⟨rfl, hpre, -⟩
      have := hpre.length_le
      omega
    refine iff_of_false ?_ hne
    simp only [if_pos hend]
    split <;> simp
  · rw [if_neg (by omega), if_neg hend]
    simp only [Prod.mk.injEq, Except.ok.injEq]
    constructor
    · rintro ⟨rfl, rfl⟩
      have hl : ((c.input.drop c.pos).take len).length = len := by
        rw [List.length_take]
        omega
      exact ⟨hl, List.take_prefix .., by rw [hl]; rfl⟩
    · rintro ⟨rfl, hpre, rfl⟩
      exact ⟨(List.prefix_iff_eq_take.mp hpre).symm, rfl⟩

/-! ## Heads

A head is an initial byte, of which three bits are the major type and five say how long the rest
is, and then the value in that many bytes. -/

/-- The five low bits of the initial byte of the head of `n`. -/
def additional (n : Nat) : Nat :=
  if n < 24 then n
  else if n ≤ 0xFF then 24
  else if n ≤ 0xFFFF then 25
  else if n ≤ 0xFFFFFFFF then 26
  else 27

/-- How many bytes follow the initial byte of the head of `n`. -/
def width (n : Nat) : Nat :=
  if n < 24 then 0
  else if n ≤ 0xFF then 1
  else if n ≤ 0xFFFF then 2
  else if n ≤ 0xFFFFFFFF then 4
  else 8

theorem head_eq (major : UInt8) (value : UInt64) :
    Encoder.head major value =
      (major <<< 5 ||| UInt8.ofNat (additional value.toNat)) ::
        beBytes (width value.toNat) value.toNat := by
  unfold Encoder.head additional width
  simp only [UInt64.lt_iff_toNat_lt, UInt64.le_iff_toNat_le, UInt64.reduceToNat]
  split_ifs <;> rfl

theorem additional_lt (n : Nat) : additional n < 32 := by
  unfold additional
  split_ifs <;> omega

theorem split_initial : ∀ i : UInt8, i >>> 5 < 8 ∧ (i >>> 5) <<< 5 ||| (i &&& 0x1F) = i := by
  decide +kernel

theorem join_initial : ∀ m < 8, ∀ k < 32,
    (UInt8.ofNat m <<< 5 ||| UInt8.ofNat k) >>> 5 = UInt8.ofNat m ∧
      ((UInt8.ofNat m <<< 5 ||| UInt8.ofNat k) &&& 0x1F).toNat = k := by
  decide +kernel

/-- The initial byte determines the major type and the additional information. -/
theorem initial_iff {major initial : UInt8} {k : Nat} (hk : k < 32) :
    major < 8 ∧ major <<< 5 ||| UInt8.ofNat k = initial ↔
      major = initial >>> 5 ∧ k = (initial &&& 0x1F).toNat := by
  constructor
  · rintro ⟨hmajor, rfl⟩
    have h := join_initial major.toNat (UInt8.lt_iff_toNat_lt.mp hmajor) k hk
    rw [UInt8.ofNat_toNat] at h
    exact ⟨h.1.symm, h.2.symm⟩
  · rintro ⟨rfl, rfl⟩
    rw [UInt8.ofNat_toNat]
    exact split_initial initial

/-- A value in `k` bytes that must exceed `low`. -/
theorem exact_readWide {k : Nat} (hk : k ≤ 8) (low : UInt64) (major : UInt8) :
    Exact (readWide k low major)
      (fun mv => mv.1 = major ∧ low.toNat < mv.2.toNat ∧ mv.2.toNat < 256 ^ k)
      fun mv => beBytes k mv.2.toNat := by
  have hinner : ∀ a : List UInt8, a.length = k → Exact (ε := CoreError)
      (do
        Reader.ensure (low < UInt64.ofNat (beNat a)) (.cbor "non-canonical integer")
        pure (major, UInt64.ofNat (beNat a)))
      (fun mv => (mv.1 = major ∧ low.toNat < mv.2.toNat ∧ mv.2.toNat < 256 ^ k) ∧
        beBytes k mv.2.toNat = a)
      fun _ => [] := by
    rintro a rfl
    have hlt := beNat_lt a
    have htoNat : (UInt64.ofNat (beNat a)).toNat = beNat a := by
      refine UInt64.toNat_ofNat_of_lt' (hlt.trans_le ?_)
      exact (Nat.pow_le_pow_right (by decide) hk).trans (by decide)
    refine (Exact.ensure_pure _ _ _).congr (fun _ _ => rfl) fun mv _ => ?_
    rw [UInt64.lt_iff_toNat_lt, htoNat]
    constructor
    · rintro ⟨rfl, hlow⟩
      rw [htoNat]
      exact ⟨⟨rfl, hlow, hlt⟩, beBytes_beNat a⟩
    · rintro ⟨⟨hmajor, hlow, hwidth⟩, ha⟩
      have hval : mv.2.toNat = beNat a := by rw [← ha, beNat_beBytes hwidth]
      refine ⟨Prod.ext hmajor (UInt64.toNat_inj.mp (hval.trans htoNat.symm)), ?_⟩
      rwa [← hval]
  refine ((exact_readExact k).bind (fun mv : UInt8 × UInt64 => beBytes k mv.2.toNat) hinner).congr
    (fun mv _ => ?_) fun mv _ => ?_
  · rw [List.append_nil]
  · rw [length_beBytes]
    simp

/-- A value in one byte that must be at least 24. -/
theorem exact_readNarrow (major : UInt8) :
    Exact (readNarrow major)
      (fun mv => mv.1 = major ∧ 24 ≤ mv.2.toNat ∧ mv.2.toNat ≤ 0xFF)
      fun mv => beBytes 1 mv.2.toNat := by
  have hinner : ∀ byte : UInt8, True → Exact (ε := CoreError)
      (do
        Reader.ensure (24 ≤ byte.toUInt64) (.cbor "non-canonical integer")
        pure (major, byte.toUInt64))
      (fun mv => (mv.1 = major ∧ 24 ≤ mv.2.toNat ∧ mv.2.toNat ≤ 0xFF) ∧
        UInt8.ofNat mv.2.toNat = byte)
      fun _ => [] := by
    rintro byte -
    have hlt : byte.toNat < 256 := byte.toNat_lt
    refine (Exact.ensure_pure _ _ _).congr (fun _ _ => rfl) fun mv _ => ?_
    rw [UInt64.le_iff_toNat_le, UInt8.toNat_toUInt64]
    constructor
    · rintro ⟨rfl, hlow⟩
      rw [UInt8.toNat_toUInt64]
      exact ⟨⟨rfl, hlow, Nat.le_of_lt_succ hlt⟩, UInt8.ofNat_toNat⟩
    · rintro ⟨⟨hmajor, hlow, hwidth⟩, rfl⟩
      have hval : (UInt8.ofNat mv.2.toNat).toNat = mv.2.toNat :=
        UInt8.toNat_ofNat_of_lt' (Nat.lt_succ_of_le hwidth)
      refine ⟨Prod.ext hmajor (UInt64.toNat_inj.mp ?_), hval.symm ▸ hlow⟩
      rw [UInt8.toNat_toUInt64, hval]
  exact (exact_readU8.bind (fun mv : UInt8 × UInt64 => UInt8.ofNat mv.2.toNat) hinner).congr
    (fun _ _ => rfl) fun _ _ => by simp

/-- The five forms of a head. -/
theorem head_forms (n : Nat) :
    (n < 24 ∧ additional n = n ∧ width n = 0) ∨
    (24 ≤ n ∧ n ≤ 0xFF ∧ additional n = 24 ∧ width n = 1) ∨
    (0xFF < n ∧ n ≤ 0xFFFF ∧ additional n = 25 ∧ width n = 2) ∨
    (0xFFFF < n ∧ n ≤ 0xFFFFFFFF ∧ additional n = 26 ∧ width n = 4) ∨
    (0xFFFFFFFF < n ∧ additional n = 27 ∧ width n = 8) := by
  unfold additional width
  split_ifs <;> omega

theorem width_mono {m n : Nat} (h : m ≤ n) : width m ≤ width n := by
  have hm := head_forms m
  have hn := head_forms n
  omega

theorem length_head_le (major : UInt8) (value : UInt64) :
    (Encoder.head major value).length ≤ 9 := by
  rw [head_eq, List.length_cons, length_beBytes]
  have := head_forms value.toNat
  omega

theorem length_array_le (n : Nat) : (Encoder.array n).length ≤ 9 := length_head_le _ _

theorem length_uint_le (value : UInt64) : (Encoder.uint value).length ≤ 9 := length_head_le _ _

theorem length_bytes_le (l : List UInt8) : (Encoder.bytes l).length ≤ 9 + l.length := by
  rw [Encoder.bytes, List.length_append]
  exact Nat.add_le_add_right (length_head_le _ _) _

theorem length_text_le (text : String) : (Encoder.text text).length ≤ 9 + (utf8 text).length := by
  rw [Encoder.text, List.length_append]
  exact Nat.add_le_add_right (length_head_le _ _) _

theorem lenU64_toNat (n : Nat) : (Encoder.lenU64 n).toNat = min n 0xFFFFFFFFFFFFFFFF := by
  unfold Encoder.lenU64
  by_cases h : n < 2 ^ 64
  · rw [if_pos h, UInt64.toNat_ofNat_of_lt' h]
    omega
  · rw [if_neg h]
    simp only [UInt64.reduceToNat]
    omega

/-- A longer byte string has a longer encoding. -/
theorem length_bytes_mono {l l' : List UInt8} (h : l.length ≤ l'.length) :
    (Encoder.bytes l).length ≤ (Encoder.bytes l').length := by
  simp only [Encoder.bytes, head_eq, List.length_append, List.length_cons, length_beBytes,
    lenU64_toNat]
  have := width_mono (m := min l.length 0xFFFFFFFFFFFFFFFF)
    (n := min l'.length 0xFFFFFFFFFFFFFFFF) (by omega)
  omega

/-- A reading of one form of head, described by the additional information of that form. -/
theorem exact_form {r : Decoder (UInt8 × UInt64)} {major : UInt8} {p : Nat → Prop} {w k : Nat}
    (hr : Exact r (fun mv => mv.1 = major ∧ p mv.2.toNat) fun mv => beBytes w mv.2.toNat)
    (hp : ∀ n < 2 ^ 64, p n ↔ additional n = k) (hw : ∀ n, additional n = k → width n = w) :
    Exact r (fun mv => mv.1 = major ∧ additional mv.2.toNat = k)
      fun mv => beBytes (width mv.2.toNat) mv.2.toNat := by
  refine hr.congr (fun mv h => ?_) fun mv _ => and_congr_right fun _ => hp _ mv.2.toNat_lt
  have hadd : additional mv.2.toNat = k := by
    rcases h with h | h
    · exact (hp _ mv.2.toNat_lt).mp h.2
    · exact h.2
  rw [hw _ hadd]

theorem exact_readHeadTail (initial : UInt8) :
    Exact (readHeadTail initial)
      (fun mv => mv.1 = initial >>> 5 ∧ additional mv.2.toNat = (initial &&& 0x1F).toNat)
      fun mv => beBytes (width mv.2.toNat) mv.2.toNat := by
  unfold readHeadTail
  generalize initial &&& 0x1F = k
  dsimp only
  by_cases hsmall : k ≤ 23
  · have hk : k.toNat ≤ 23 := UInt8.le_iff_toNat_le.mp hsmall
    rw [if_pos hsmall]
    refine exact_form (p := fun n => n = k.toNat) (w := 0) ((Exact.pure _).congr (fun _ _ => rfl)
      fun mv _ => ?_) (fun n _ => ?_) fun n hn => ?_
    · rw [← UInt8.toNat_toUInt64, UInt64.toNat_inj]
      exact Prod.ext_iff
    · have := head_forms n
      omega
    · have := head_forms n
      omega
  rw [if_neg hsmall]
  by_cases h24 : k = 24
  · rw [if_pos h24, h24]
    refine exact_form (p := fun n => 24 ≤ n ∧ n ≤ 0xFF) (k := 24) (exact_readNarrow _)
      (fun n _ => ?_) fun n _ => ?_
    · have := head_forms n
      omega
    · have := head_forms n
      omega
  rw [if_neg h24]
  by_cases h25 : k = 25
  · rw [if_pos h25, h25]
    refine exact_form (p := fun n => 0xFF < n ∧ n < 256 ^ 2) (k := 25)
      (exact_readWide (by decide) _ _) (fun n _ => ?_) fun n _ => ?_
    · have := head_forms n
      omega
    · have := head_forms n
      omega
  rw [if_neg h25]
  by_cases h26 : k = 26
  · rw [if_pos h26, h26]
    refine exact_form (p := fun n => 0xFFFF < n ∧ n < 256 ^ 4) (k := 26)
      (exact_readWide (by decide) _ _) (fun n _ => ?_) fun n _ => ?_
    · have := head_forms n
      omega
    · have := head_forms n
      omega
  rw [if_neg h26]
  by_cases h27 : k = 27
  · rw [if_pos h27, h27]
    refine exact_form (p := fun n => 0xFFFFFFFF < n ∧ n < 256 ^ 8) (k := 27)
      (exact_readWide (by decide) _ _) (fun n _ => ?_) fun n _ => ?_
    · have := head_forms n
      omega
    · have := head_forms n
      omega
  rw [if_neg h27]
  refine (Exact.fail _ _).congr (fun _ _ => rfl) fun mv _ => ?_
  have := head_forms mv.2.toNat
  rw [UInt8.le_iff_toNat_le] at hsmall
  simp only [← UInt8.toNat_inj, UInt8.reduceToNat] at hsmall h24 h25 h26 h27
  simp only [false_iff, not_and]
  omega

theorem exact_readHead :
    Exact readHead (fun mv => mv.1 < 8) fun mv => Encoder.head mv.1 mv.2 := by
  refine (exact_readU8.bind
    (fun mv : UInt8 × UInt64 => mv.1 <<< 5 ||| UInt8.ofNat (additional mv.2.toNat))
    (Q := fun mv => mv.1 < 8) fun initial _ => (exact_readHeadTail initial).congr
      (fun _ _ => rfl) fun mv _ => ?_).congr (fun mv _ => ?_) fun _ _ => by simp
  · exact (initial_iff (additional_lt _)).symm
  · exact (head_eq mv.1 mv.2).symm

/-! ## The methods -/

theorem exact_expect {major : UInt8} (hmajor : major < 8) :
    Exact (expect major) (fun _ => True) fun value => Encoder.head major value := by
  refine (exact_readHead.bind (fun value => (major, value)) (Q := fun _ => True)
    (g := fun _ => []) fun mv _ => ?_).congr (fun _ _ => List.append_nil _) fun _ _ => by
      simp [hmajor]
  obtain ⟨found, value⟩ := mv
  refine (Exact.ensure_pure _ _ _).congr (fun _ _ => rfl) fun v _ => ?_
  rw [Prod.mk.injEq, true_and, and_comm, eq_comm (a := found)]

theorem exact_uint : Exact uint (fun _ => True) Encoder.uint := exact_expect (by decide)

theorem lenU64_eq_iff {n : Nat} {len : UInt64} :
    n < 2 ^ 64 ∧ Encoder.lenU64 n = len ↔ n = len.toNat := by
  unfold Encoder.lenU64
  constructor
  · rintro ⟨hn, rfl⟩
    rw [if_pos hn, UInt64.toNat_ofNat_of_lt' hn]
  · rintro rfl
    rw [if_pos len.toNat_lt, UInt64.ofNat_toNat]
    exact ⟨len.toNat_lt, rfl⟩

/-- A length head and that many bytes. -/
theorem exact_readSlice {major : UInt8} (hmajor : major < 8) :
    Exact (readSlice major) (fun _ => True) fun l =>
      Encoder.head major (Encoder.lenU64 l.length) ++ l := by
  refine ((exact_expect hmajor).bind (fun l : List UInt8 => Encoder.lenU64 l.length)
    (Q := fun l => l.length < 2 ^ 64) fun len _ => (exact_readExact len.toNat).congr
      (fun _ _ => rfl) fun l _ => lenU64_eq_iff.symm).congr (fun _ _ => rfl) fun l hl => ?_
  rw [List.length_append] at hl
  have hlimit : Cursor.limit = 2 ^ 64 := rfl
  simp only [and_true, iff_true]
  omega

theorem exact_bytes : Exact bytes (fun _ => True) Encoder.bytes := exact_readSlice (by decide)

theorem exact_bytesFixed (n : Nat) :
    Exact (bytesFixed n) (fun _ => True) fun value => Encoder.bytes value.toList := by
  refine (exact_bytes.bind (fun value : Bytes n => value.toList) (Q := fun _ => True)
    (g := fun _ => []) fun slice _ => ?_).congr (fun _ _ => List.append_nil _) fun _ _ => by simp
  cases h : tryBytes n slice with
  | none =>
    refine (Exact.fail _ _).congr (fun _ _ => rfl) fun value _ => ?_
    simp only [true_and, false_iff]
    rintro rfl
    exact tryBytes_eq_none_iff.mp h value.toList_length
  | some out =>
    refine (Exact.pure _).congr (fun _ _ => rfl) fun value _ => ?_
    rw [true_and, tryBytes_eq_some_iff.mp h]
    exact Subtype.ext_iff

theorem exact_text : Exact text (fun _ => True) Encoder.text := by
  refine ((exact_readSlice (by decide)).bind utf8
    (Q := fun _ => True) (g := fun _ => []) fun slice _ => ?_).congr
      (fun _ _ => List.append_nil _) fun _ _ => by simp
  cases h : String.fromUTF8? ⟨slice.toArray⟩ with
  | none =>
    refine (Exact.fail _ _).congr (fun _ _ => rfl) fun value _ => ?_
    rw [true_and, ← fromUTF8?_eq_some_iff, h]
    simp
  | some s =>
    refine (Exact.pure s).congr (fun _ _ => rfl) fun value _ => ?_
    rw [true_and, ← fromUTF8?_eq_some_iff, h, Option.some.injEq, eq_comm]

/-- A head whose value is returned as a length. -/
theorem exact_len {major : UInt8} (hmajor : major < 8) :
    Exact (do let len ← expect major; pure len.toNat) (· < 2 ^ 64)
      fun n => Encoder.head major (Encoder.lenU64 n) := by
  refine ((exact_expect hmajor).bind (fun n : Nat => Encoder.lenU64 n)
    (Q := (· < 2 ^ 64)) (g := fun _ => []) fun len _ => (Exact.pure len.toNat).congr
      (fun _ _ => rfl) fun n _ => lenU64_eq_iff.symm).congr (fun _ _ => List.append_nil _)
        fun _ _ => by simp

theorem exact_array : Exact array (· < 2 ^ 64) Encoder.array := exact_len (by decide)

theorem exact_map : Exact map (· < 2 ^ 64) Encoder.map := exact_len (by decide)

theorem exact_bool : Exact bool (fun _ => True) Encoder.bool := by
  refine (exact_readU8.bind (fun value : Bool => if value then 0xF5 else 0xF4)
    (Q := fun _ => True) (g := fun _ => []) fun byte _ => ?_).congr
      (fun _ _ => List.append_nil _) fun _ _ => by simp
  by_cases hfalse : byte = 0xF4
  · rw [if_pos hfalse, hfalse]
    refine (Exact.pure false).congr (fun _ _ => rfl) fun value _ => ?_
    cases value <;> simp
  rw [if_neg hfalse]
  by_cases htrue : byte = 0xF5
  · rw [if_pos htrue, htrue]
    refine (Exact.pure true).congr (fun _ _ => rfl) fun value _ => ?_
    cases value <;> simp
  rw [if_neg htrue]
  refine (Exact.fail _ _).congr (fun _ _ => rfl) fun value _ => ?_
  cases value with
  | false => simp [Ne.symm hfalse]
  | true => simp [Ne.symm htrue]

theorem exact_uintTryFrom {β : Type} {max : UInt64} {narrow : UInt64 → β} {widen : β → UInt64}
    (hiff : ∀ v value, v ≤ max ∧ value = narrow v ↔ widen value = v) (field : String) :
    Exact (uintTryFrom max narrow field) (fun _ => True)
      fun value => Encoder.uint (widen value) := by
  refine (exact_uint.bind widen (Q := fun _ => True) (g := fun _ => []) fun v _ => ?_).congr
    (fun _ _ => List.append_nil _) fun _ _ => by simp
  by_cases h : v ≤ max
  · rw [if_pos h]
    refine (Exact.pure _).congr (fun _ _ => rfl) fun value _ => ?_
    rw [true_and, ← hiff, and_iff_right h]
  · rw [if_neg h]
    refine (Exact.fail _ _).congr (fun _ _ => rfl) fun value _ => ?_
    rw [true_and, ← hiff, iff_false_intro h, false_and]

theorem exact_uint8 (field : String) :
    Exact (uint8 field) (fun _ => True) fun value => Encoder.uint value.toUInt64 := by
  refine exact_uintTryFrom (fun v value => ?_) field
  have hvalue : value.toNat < 2 ^ 8 := value.toNat_lt
  rw [← UInt64.toNat_inj, ← UInt8.toNat_inj, UInt8.toNat_toUInt64, UInt64.toNat_toUInt8,
    UInt64.le_iff_toNat_le]
  simp only [UInt64.reduceToNat]
  omega

theorem exact_uint32 (field : String) :
    Exact (uint32 field) (fun _ => True) fun value => Encoder.uint value.toUInt64 := by
  refine exact_uintTryFrom (fun v value => ?_) field
  have hvalue : value.toNat < 2 ^ 32 := value.toNat_lt
  rw [← UInt64.toNat_inj, ← UInt32.toNat_inj, UInt32.toNat_toUInt64, UInt64.toNat_toUInt32,
    UInt64.le_iff_toNat_le]
  simp only [UInt64.reduceToNat]
  omega

/-- An array header that must announce `n` elements, and then the elements. -/
theorem exact_arity {β : Type} {k : Decoder β} {Q : β → Prop} {g : β → List UInt8} {n : Nat}
    (hn : n < 2 ^ 64) (e : CoreError) (hk : Exact k Q g) :
    Exact (do let arity ← array; Reader.ensure (arity = n) e; k) Q
      fun b => Encoder.array n ++ g b :=
  exact_array.expect hn e hk

/-- An array header and as many elements as it announces. -/
theorem exact_list {α : Type} {r : Decoder α} {enc : α → List UInt8}
    (hr : Exact r (fun _ => True) enc) (hne : ∀ a, enc a ≠ []) :
    Exact (do let count ← array; r.replicate count) (fun _ => True)
      fun as => Encoder.array as.length ++ as.flatMap enc := by
  refine (exact_array.bind (fun as : List α => as.length) (Q := fun _ => True)
    fun count _ => (hr.replicate count).congr (fun _ _ => rfl) fun as _ => by simp).congr
      (fun _ _ => rfl) fun as has => ?_
  have hle : as.length ≤ (as.flatMap enc).length := by
    have hmap : as.length = (as.map fun a => (enc a).length).length := List.length_map .. |>.symm
    rw [List.length_flatMap]
    refine hmap.le.trans (List.length_le_sum_of_one_le _ ?_)
    simp only [List.mem_map, forall_exists_index, and_imp, forall_apply_eq_imp_iff₂]
    exact fun a _ => List.length_pos_iff.mpr (hne a)
  rw [List.length_append] at has
  have hlimit : Cursor.limit = 2 ^ 64 := rfl
  simp only [true_and, iff_true]
  omega

/-! ## Whole inputs -/

/-- A whole input: the reading, then `finish`. -/
def runAll {α : Type} (r : Decoder α) (input : List UInt8) : Except CoreError α :=
  ((do let a ← r; finish; pure a : Decoder α) ⟨input, 0⟩).1

theorem finish_ok_iff (c c' : Cursor) :
    finish c = (.ok (), c') ↔ c.pos = c.input.length ∧ c' = c := by
  unfold finish
  by_cases hend : c.pos = c.input.length
  · rw [if_pos hend, Prod.mk.injEq, and_iff_right rfl, and_iff_right hend, eq_comm]
  · rw [if_neg hend]
    exact iff_of_false (fun h => absurd (Prod.mk.inj h).1 nofun) fun h => hend h.1

/-- **An exact decoder followed by `finish` inverts the encoding.** -/
theorem runAll_ok_iff {α : Type} {r : Decoder α} {P : α → Prop} {enc : α → List UInt8}
    (hr : Exact r P enc) {input : List UInt8} (hlen : input.length < 2 ^ 64) {a : α} :
    runAll r input = .ok a ↔ P a ∧ input = enc a :=
  hr.run_end_iff finish_ok_iff hlen

end Decoder

end Keepstone.Core
