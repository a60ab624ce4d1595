import Keepstone.Core.Cbor
import Keepstone.Lib.Fault

/-!
# Sequences of items (`crates/core/src/cbor.rs:34-285`)

Everything on the wire is a sequence of items written by the methods of `Encoder` and read by the
methods of `Decoder` of the same names. `usize` is 64 bits wide, so the length in a header is a
`UInt64`.

`PanicDecoder` is the decoder with its panics: `copy_from_slice` on a slice of another length, and
an addition that overflows. `get` on a range does not panic; it gives `none`.

Results:
* `exact_decode`, `exact_decodeAll`: one item, and a sequence of them, by exact decoders;
* `agrees_decode`: the decoder with its panics is the decoder, from every valid cursor;
* **`decodeAll_canonical`**: the codec is self-delimiting and canonical, and does not panic.
-/

namespace Keepstone.Core

open Keepstone.Lib

/-! ## Items -/

/-- What the methods of `Encoder` write. -/
inductive Item where
  | uint (value : UInt64)
  | bytes (value : List UInt8)
  | text (value : String)
  /-- The header of an array. -/
  | array (len : UInt64)
  /-- The header of a map. -/
  | map (len : UInt64)
  | bool (value : Bool)
  deriving DecidableEq

/-- The methods of `Decoder`. -/
inductive Kind where
  | uint | bytes | text | array | map | bool
  deriving DecidableEq, Repr

namespace Item

/-- The method that reads an item. -/
def kind : Item → Kind
  | .uint _ => .uint
  | .bytes _ => .bytes
  | .text _ => .text
  | .array _ => .array
  | .map _ => .map
  | .bool _ => .bool

/-- The method that writes it. -/
def encode : Item → List UInt8
  | .uint value => Encoder.uint value
  | .bytes value => Encoder.bytes value
  | .text value => Encoder.text value
  | .array len => Encoder.array len.toNat
  | .map len => Encoder.map len.toNat
  | .bool value => Encoder.bool value

end Item

/-- Items written one after the other. -/
def encodeAll (items : List Item) : List UInt8 := items.flatMap Item.encode

/-- A call of a method of `Decoder`. -/
def Kind.decode : Kind → Decoder Item
  | .uint => do let value ← Decoder.uint; pure (.uint value)
  | .bytes => do let value ← Decoder.bytes; pure (.bytes value)
  | .text => do let value ← Decoder.text; pure (.text value)
  | .array => do let len ← Decoder.array; pure (.array (UInt64.ofNat len))
  | .map => do let len ← Decoder.map; pure (.map (UInt64.ofNat len))
  | .bool => do let value ← Decoder.bool; pure (.bool value)

/-- Calls one after the other, up to the first that fails. -/
def decodeAll (kinds : List Kind) : Decoder (List Item) := Reader.each Kind.decode kinds

/-- Lengths of 64 bits are read back. -/
theorem exact_header {r : Decoder Nat} {enc : Nat → List UInt8} (hr : Exact r (· < 2 ^ 64) enc)
    (item : UInt64 → Item) (henc : ∀ len, (item len).encode = enc len.toNat) :
    Exact (do let len ← r; pure (item (UInt64.ofNat len))) (fun i => ∃ len, i = item len)
      Item.encode := by
  refine (hr.map (fun len => item (UInt64.ofNat len)) fun len hlen => ?_).congr (fun _ _ => rfl)
    fun i _ => ?_
  · rw [henc, UInt64.toNat_ofNat_of_lt' hlen]
  · constructor
    · rintro ⟨len, -, rfl⟩
      exact ⟨_, rfl⟩
    · rintro ⟨len, rfl⟩
      exact ⟨len.toNat, len.toNat_lt, by rw [UInt64.ofNat_toNat]⟩

/-- **A call reads the items of its kind**, as they are written. -/
theorem exact_decode (kind : Kind) : Exact kind.decode (fun i => i.kind = kind) Item.encode := by
  have hkind : ∀ {P : Item → Prop}, Exact kind.decode P Item.encode →
      (∀ i, P i ↔ i.kind = kind) → Exact kind.decode (fun i => i.kind = kind) Item.encode :=
    fun hr hiff => hr.congr (fun _ _ => rfl) fun i _ => hiff i
  cases kind with
  | uint =>
    refine hkind (Decoder.exact_uint.map Item.uint fun _ _ => rfl) fun i => ?_
    cases i <;> simp [Item.kind]
  | bytes =>
    refine hkind (Decoder.exact_bytes.map Item.bytes fun _ _ => rfl) fun i => ?_
    cases i <;> simp [Item.kind]
  | text =>
    refine hkind (Decoder.exact_text.map Item.text fun _ _ => rfl) fun i => ?_
    cases i <;> simp [Item.kind]
  | array =>
    refine hkind (exact_header Decoder.exact_array Item.array fun _ => rfl) fun i => ?_
    cases i <;> simp [Item.kind]
  | map =>
    refine hkind (exact_header Decoder.exact_map Item.map fun _ => rfl) fun i => ?_
    cases i <;> simp [Item.kind]
  | bool =>
    refine hkind (Decoder.exact_bool.map Item.bool fun _ _ => rfl) fun i => ?_
    cases i <;> simp [Item.kind]

/-- **Calls in a row read items in a row.** -/
theorem exact_decodeAll (kinds : List Kind) :
    Exact (decodeAll kinds) (fun items => items.map Item.kind = kinds) encodeAll := by
  refine (Exact.each exact_decode kinds).congr (fun _ _ => rfl) fun items _ => ?_
  rw [← List.forall₂_eq_eq_eq, List.forall₂_map_left_iff]
  exact ⟨List.Forall₂.flip, List.Forall₂.flip⟩

/-! ## Panics -/

/-- The decoder with its panics. -/
abbrev PanicDecoder := Reader (Fault CoreError)

namespace PanicDecoder

/-- `input.get(start..stop)`. -/
def getRange (input : List UInt8) (start stop : Nat) : Option (List UInt8) :=
  if start ≤ stop ∧ stop ≤ input.length then some ((input.drop start).take (stop - start)) else none

/-- `copy_from_slice` into an array of `n` bytes. -/
def copyFromSlice (n : Nat) (slice : List UInt8) : PanicDecoder (Bytes n) :=
  match tryBytes n slice with
  | some out => pure out
  | none => Reader.fail .panic

/-- `read_u8`. -/
def readU8 : PanicDecoder UInt8 := fun c =>
  match c.input[c.pos]? with
  | some byte =>
    if c.pos + 1 < 2 ^ 64 then (.ok byte, { c with pos := c.pos + 1 }) else (.error .panic, c)
  | none => (.error (.error (.cbor "unexpected end")), c)

/-- `read_exact`. -/
def readExact (len : Nat) : PanicDecoder (List UInt8) := fun c =>
  let stop := c.pos + len
  if 2 ^ 64 ≤ stop then (.error (.error (.cbor "length overflow")), c)
  else
    match getRange c.input c.pos stop with
    | some slice => (.ok slice, { c with pos := stop })
    | none => (.error (.error (.cbor "unexpected end")), c)

/-- The branch 24 of `read_head`. -/
def readNarrow (major : UInt8) : PanicDecoder (UInt8 × UInt64) := do
  let byte ← readU8
  let v := byte.toUInt64
  Reader.ensure (24 ≤ v) (.error (.cbor "non-canonical integer"))
  pure (major, v)

/-- The branches 25, 26 and 27 of `read_head`. -/
def readWide (k : Nat) (low : UInt64) (major : UInt8) : PanicDecoder (UInt8 × UInt64) := do
  let bytes ← readExact k
  let arr ← copyFromSlice k bytes
  let v := UInt64.ofNat (beNat arr.toList)
  Reader.ensure (low < v) (.error (.cbor "non-canonical integer"))
  pure (major, v)

/-- `read_head` after its initial byte. -/
def readHeadTail (initial : UInt8) : PanicDecoder (UInt8 × UInt64) :=
  let major := initial >>> 5
  let additional := initial &&& 0x1F
  if additional ≤ 23 then pure (major, additional.toUInt64)
  else if additional = 24 then readNarrow major
  else if additional = 25 then readWide 2 0xFF major
  else if additional = 26 then readWide 4 0xFFFF major
  else if additional = 27 then readWide 8 0xFFFFFFFF major
  else Reader.fail (.error (.cbor "indefinite or reserved length"))

/-- `read_head`. -/
def readHead : PanicDecoder (UInt8 × UInt64) := do
  let initial ← readU8
  readHeadTail initial

/-- `expect`. -/
def expect (major : UInt8) : PanicDecoder UInt64 := do
  let (found, value) ← readHead
  Reader.ensure (found = major) (.error (.cbor "unexpected major type"))
  pure value

/-- The length and the bytes of a string of either kind. -/
def readSlice (major : UInt8) : PanicDecoder (List UInt8) := do
  let len ← expect major
  readExact len.toNat

/-- `text`. -/
def text : PanicDecoder String := do
  let slice ← readSlice majorText
  match String.fromUTF8? ⟨slice.toArray⟩ with
  | some s => pure s
  | none => Reader.fail (.error (.cbor "invalid utf-8"))

/-- `array` and `map`: a header and its length. -/
def header (major : UInt8) : PanicDecoder Nat := do
  let len ← expect major
  pure len.toNat

/-- `bool`. -/
def bool : PanicDecoder Bool := do
  let byte ← readU8
  if byte = 0xF4 then pure false
  else if byte = 0xF5 then pure true
  else Reader.fail (.error (.cbor "expected boolean"))

end PanicDecoder

/-- A call of a method of `Decoder`, with its panics. -/
def Kind.panicDecode : Kind → PanicDecoder Item
  | .uint => do let value ← PanicDecoder.expect majorUint; pure (.uint value)
  | .bytes => do let value ← PanicDecoder.readSlice majorBytes; pure (.bytes value)
  | .text => do let value ← PanicDecoder.text; pure (.text value)
  | .array => do let len ← PanicDecoder.header majorArray; pure (.array (UInt64.ofNat len))
  | .map => do let len ← PanicDecoder.header majorMap; pure (.map (UInt64.ofNat len))
  | .bool => do let value ← PanicDecoder.bool; pure (.bool value)

namespace PanicDecoder

theorem agrees_readU8 : Agrees readU8 Decoder.readU8 := by
  intro c hc
  have hlen : c.input.length < 2 ^ 64 := hc.length_lt
  unfold readU8 Reader.mapErr Decoder.readU8
  cases hbyte : c.input[c.pos]? with
  | none => exact ⟨rfl, hc, rfl⟩
  | some byte =>
    have hpos : c.pos < c.input.length := (List.getElem?_eq_some_iff.mp hbyte).1
    dsimp only
    rw [if_pos (by omega)]
    exact ⟨rfl, ⟨hpos, hc.length_lt⟩, rfl⟩

theorem agrees_readExact (len : Nat) : Agrees (readExact len) (Decoder.readExact len) := by
  intro c hc
  unfold readExact Reader.mapErr Decoder.readExact getRange
  dsimp only
  by_cases hover : 2 ^ 64 ≤ c.pos + len
  · rw [if_pos hover, if_pos hover]
    exact ⟨rfl, hc, rfl⟩
  rw [if_neg hover, if_neg hover]
  by_cases hend : c.input.length < c.pos + len
  · rw [if_neg (by omega), if_pos hend]
    exact ⟨rfl, hc, rfl⟩
  · rw [if_pos (by omega), if_neg hend, Nat.add_sub_cancel_left]
    exact ⟨rfl, ⟨Nat.not_lt.mp hend, hc.length_lt⟩, rfl⟩

theorem agrees_readNarrow (major : UInt8) :
    Agrees (readNarrow major) (Decoder.readNarrow major) :=
  agrees_readU8.bind Decoder.exact_readU8 fun _ _ =>
    (Agrees.ensure _ _).bind (Exact.ensure _ _) fun _ _ => Agrees.pure _

/-- The slice has the length of the array, because `read_exact` was asked for as many bytes. -/
theorem agrees_readWide (k : Nat) (low : UInt64) (major : UInt8) :
    Agrees (readWide k low major) (Decoder.readWide k low major) := by
  refine (agrees_readExact k).bind (Decoder.exact_readExact k) fun bytes hlen => ?_
  obtain ⟨arr, rfl⟩ : ∃ arr : Bytes k, bytes = arr.toList := ⟨⟨bytes, hlen⟩, rfl⟩
  have hcopy : copyFromSlice k arr.toList = pure arr := by
    rw [copyFromSlice, tryBytes_eq_some_iff.mpr rfl]
  rw [hcopy]
  exact (Agrees.ensure _ _).bind (Exact.ensure _ _) fun _ _ => Agrees.pure _

theorem agrees_readHeadTail (initial : UInt8) :
    Agrees (readHeadTail initial) (Decoder.readHeadTail initial) :=
  Agrees.ite (fun _ => Agrees.pure _) fun _ =>
    Agrees.ite (fun _ => agrees_readNarrow _) fun _ =>
      Agrees.ite (fun _ => agrees_readWide 2 _ _) fun _ =>
        Agrees.ite (fun _ => agrees_readWide 4 _ _) fun _ =>
          Agrees.ite (fun _ => agrees_readWide 8 _ _) fun _ => Agrees.fail _

theorem agrees_readHead : Agrees readHead Decoder.readHead :=
  agrees_readU8.bind Decoder.exact_readU8 fun initial _ => agrees_readHeadTail initial

theorem agrees_expect (major : UInt8) : Agrees (expect major) (Decoder.expect major) :=
  agrees_readHead.bind Decoder.exact_readHead fun _ _ =>
    (Agrees.ensure _ _).bind (Exact.ensure _ _) fun _ _ => Agrees.pure _

theorem agrees_readSlice {major : UInt8} (hmajor : major < 8) :
    Agrees (readSlice major) (Decoder.readSlice major) :=
  (agrees_expect major).bind (Decoder.exact_expect hmajor) fun len _ => agrees_readExact len.toNat

theorem agrees_text : Agrees text Decoder.text := by
  refine (agrees_readSlice (by decide)).bind (Decoder.exact_readSlice (by decide)) fun slice _ => ?_
  cases String.fromUTF8? ⟨slice.toArray⟩ with
  | none => exact Agrees.fail _
  | some s => exact Agrees.pure s

theorem agrees_header {major : UInt8} (hmajor : major < 8) :
    Agrees (header major) (do let len ← Decoder.expect major; pure len.toNat) :=
  (agrees_expect major).bind (Decoder.exact_expect hmajor) fun _ _ => Agrees.pure _

theorem agrees_bool : Agrees bool Decoder.bool :=
  agrees_readU8.bind Decoder.exact_readU8 fun _ _ =>
    Agrees.ite (fun _ => Agrees.pure _) fun _ =>
      Agrees.ite (fun _ => Agrees.pure _) fun _ => Agrees.fail _

/-- **A call does not panic.** -/
theorem agrees_decode (kind : Kind) : Agrees kind.panicDecode kind.decode := by
  cases kind with
  | uint =>
    exact (agrees_expect _).bind Decoder.exact_uint fun _ _ => Agrees.pure _
  | bytes =>
    exact (agrees_readSlice (by decide)).bind Decoder.exact_bytes fun _ _ => Agrees.pure _
  | text => exact agrees_text.bind Decoder.exact_text fun _ _ => Agrees.pure _
  | array =>
    exact (agrees_header (by decide)).bind Decoder.exact_array fun _ _ => Agrees.pure _
  | map =>
    exact (agrees_header (by decide)).bind Decoder.exact_map fun _ _ => Agrees.pure _
  | bool => exact agrees_bool.bind Decoder.exact_bool fun _ _ => Agrees.pure _

end PanicDecoder

/-! ## The codec -/

/-- **The codec is self-delimiting and canonical.** Items that are written, followed by anything, are
read back, and what follows them is left; items that are read are written back as the bytes that
were consumed; and after any calls, failed ones too, the position is inside the input and no call
panics. -/
theorem decodeAll_canonical :
    (∀ (items : List Item) (suffix : List UInt8), (encodeAll items ++ suffix).length < 2 ^ 64 →
      ∃ c, decodeAll (items.map Item.kind) ⟨encodeAll items ++ suffix, 0⟩ = (.ok items, c) ∧
        c.rest = suffix) ∧
    (∀ (input : List UInt8) (kinds : List Kind) (items : List Item) (c : Cursor),
      input.length < 2 ^ 64 → decodeAll kinds ⟨input, 0⟩ = (.ok items, c) →
      items.map Item.kind = kinds ∧ c.pos ≤ input.length ∧ encodeAll items = input.take c.pos) ∧
    ∀ (input : List UInt8) (calls : List Kind), input.length < 2 ^ 64 →
      let c := Reader.after Kind.panicDecode calls ⟨input, 0⟩
      c.input = input ∧ c.pos ≤ input.length ∧
        ∀ kind : Kind, kind.panicDecode c = kind.decode.mapErr .error c ∧
          (kind.panicDecode c).1 ≠ .error .panic := by
  refine ⟨fun items suffix hlen => ?_, fun input kinds items c hlen hread => ?_,
    fun input calls hlen => ?_⟩
  · have hc : Cursor.Valid ⟨encodeAll items ++ suffix, 0⟩ := ⟨Nat.zero_le _, hlen⟩
    refine ⟨_, (exact_decodeAll _ _ hc items _).mpr ⟨rfl, List.prefix_append _ _, rfl⟩, ?_⟩
    rw [Cursor.rest_advance]
    exact List.drop_left
  · have hc : Cursor.Valid ⟨input, 0⟩ := ⟨Nat.zero_le _, hlen⟩
    obtain ⟨hkinds, hpre, rfl⟩ := (exact_decodeAll kinds _ hc items c).mp hread
    rw [Cursor.advance, Nat.zero_add]
    exact ⟨hkinds, hpre.length_le, List.prefix_iff_eq_take.mp hpre⟩
  · have hc : Cursor.Valid ⟨input, 0⟩ := ⟨Nat.zero_le _, hlen⟩
    obtain ⟨hvalid, hinput⟩ := Agrees.after PanicDecoder.agrees_decode calls hc
    have hpos := hvalid.pos_le
    rw [hinput] at hpos
    refine ⟨hinput, hpos, fun kind => ?_⟩
    exact ⟨(PanicDecoder.agrees_decode kind _ hvalid).1,
      (PanicDecoder.agrees_decode kind).ne_panic hvalid⟩

/-- The items of `round_trips_strings`, with a byte after them; then a call that fails. -/
theorem decodeAll_canonical_strings :
    let items : List Item := [.array 2, .text "hi", .bytes [1, 2, 3]]
    encodeAll items = [0x82, 0x62, 0x68, 0x69, 0x43, 1, 2, 3] ∧
    (∃ c, decodeAll [.array, .text, .bytes] ⟨encodeAll items ++ [0xFF], 0⟩ = (.ok items, c) ∧
      c.rest = [0xFF]) ∧
    (Reader.after Kind.panicDecode [.array, .text, .bytes, .bool]
      ⟨encodeAll items ++ [0xFF], 0⟩).pos ≤ (encodeAll items ++ [0xFF]).length := by
  obtain ⟨hread, -, hsafe⟩ := decodeAll_canonical
  refine ⟨by decide, hread [.array 2, .text "hi", .bytes [1, 2, 3]] [0xFF] (by decide), ?_⟩
  exact (hsafe _ [.array, .text, .bytes, .bool] (by decide)).2.1

end Keepstone.Core
