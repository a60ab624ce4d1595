import Keepstone.Lib.Utf8

/-!
# Query strings (`crates/daemon/src/main.rs:123-161`)

`percent_decode` goes through the bytes of a string, and after a `%` takes a slice of the string, two
bytes long. `none` is a panic: the slice may end inside a character. The digits of the slice are
left to `u8::from_str_radix`, which allows a sign.

Results:
* `decodeFrom_eq`: the loop, on the bytes that are left;
* **`query_returns_iff`**: which strings, queries and targets are decoded without a panic;
* **`percentDecode_eq_form_iff`**: which ASCII strings are decoded as form decoding has it.
-/

namespace Keepstone.Daemon

open Keepstone.Lib

/-! ## The functions -/

/-- The digits of `u8::from_str_radix(_, 16)`, after those that make `value`. -/
def parseDigits (value : Nat) : List UInt8 → Option UInt8
  | [] => some (UInt8.ofNat value)
  | byte :: rest =>
    match hexValue (Char.ofNat byte.toNat) with
    | none => none
    | some digit =>
      if 16 * value + digit < 256 then parseDigits (16 * value + digit) rest else none

/-- `u8::from_str_radix(_, 16)`. -/
def fromStrRadix : List UInt8 → Option UInt8
  | [] => none
  | first :: rest =>
    if first = 0x2B then if rest = [] then none else parseDigits 0 rest
    else parseDigits 0 (first :: rest)

/-- What a byte outside of an escape stands for. -/
def plain (byte : UInt8) : UInt8 := if byte = 0x2B then 0x20 else byte

/-- The loop of `percent_decode`. -/
def decodeFrom (bytes : List UInt8) (index : Nat) (out : List UInt8) : Option (List UInt8) :=
  if h : index < bytes.length then
    if bytes[index] = 0x25 ∧ index + 2 < bytes.length then
      match slice bytes (index + 1) (index + 3) with
      | none => none
      | some digits =>
        match fromStrRadix digits with
        | some value => decodeFrom bytes (index + 3) (out ++ [value])
        | none => decodeFrom bytes (index + 1) (out ++ [plain bytes[index]])
    else decodeFrom bytes (index + 1) (out ++ [plain bytes[index]])
  else some out
termination_by bytes.length - index

/-- `percent_decode`. -/
def percentDecode (input : String) : Option String :=
  (decodeFrom (utf8 input) 0 []).map fun out => String.ofList (lossy out)

/-- `str::split_once` at a character. -/
def splitOnce (separator : Char) (text : String) : Option (String × String) :=
  match text.toList.span (· ≠ separator) with
  | (_, []) => none
  | (before, _ :: after) => some (String.ofList before, String.ofList after)

/-- `str::split` at a character. -/
def splitAt (separator : Char) (text : String) : List String :=
  (text.toList.splitOn separator).map String.ofList

/-- A pair of `parse_query`. -/
def parsePair (pair : String) : Option (String × String) :=
  match splitOnce '=' pair with
  | some (key, value) => do
    let key ← percentDecode key
    let value ← percentDecode value
    pure (key, value)
  | none => do
    let key ← percentDecode pair
    pure (key, "")

/-- `parse_query`. -/
def parseQuery (query : String) : Option (List (String × String)) :=
  ((splitAt '&' query).filter fun pair => pair ≠ "").mapM parsePair

/-- `split_target`. -/
def splitTarget (target : String) : Option (String × List (String × String)) :=
  match splitOnce '?' target with
  | some (path, query) => (parseQuery query).map fun pairs => (path, pairs)
  | none => some (target, [])

/-! ## The loop on what is left -/

/-- Whether the slice after a `%` panics, by the bytes after it. -/
def cuts : List UInt8 → Bool
  | first :: _ :: rest => isContinuation first || rest.head?.any isContinuation
  | _ => false

/-- What the loop makes of the bytes from `index` on. -/
def decodeRest : List UInt8 → Option (List UInt8)
  | [] => some []
  | [byte] => some [plain byte]
  | [byte, last] => some [plain byte, plain last]
  | byte :: first :: second :: rest =>
    if byte = 0x25 then
      if cuts (first :: second :: rest) then none
      else match fromStrRadix [first, second] with
        | some value => (decodeRest rest).map (value :: ·)
        | none => (decodeRest (first :: second :: rest)).map (byte :: ·)
    else (decodeRest (first :: second :: rest)).map (plain byte :: ·)

section Loop

variable {before rest : List UInt8} {byte : UInt8} {out : List UInt8}

/-- A slice of the two bytes after some others. -/
theorem slice_append (h : before ≠ []) (first second : UInt8) :
    slice (before ++ first :: second :: rest) before.length (before.length + 2) =
      if cuts (first :: second :: rest) then none else some [first, second] := by
  have hstart := isCharBoundary_append h (first :: second :: rest)
  have hstop := isCharBoundary_append
    (List.append_ne_nil_of_right_ne_nil before (List.cons_ne_nil first [second])) rest
  rw [List.append_assoc, List.length_append] at hstop
  simp only [List.length_cons, List.length_nil, List.cons_append, List.nil_append] at hstop
  unfold slice
  rw [hstart, hstop, List.drop_left, Nat.add_sub_cancel_left]
  simp only [cuts, List.head?_cons, Option.any_some, List.take_succ_cons, List.take_zero]
  by_cases hfirst : isContinuation first <;>
    by_cases hrest : rest.head?.any isContinuation <;> simp [hfirst, hrest]

theorem decodeFrom_end : decodeFrom before before.length out = some out := by
  rw [decodeFrom, dif_neg (Nat.lt_irrefl _)]

/-- A byte that does not begin an escape. -/
theorem decodeFrom_plain (h : byte = 0x25 → rest.length < 2) :
    decodeFrom (before ++ byte :: rest) before.length out =
      decodeFrom (before ++ [byte] ++ rest) (before ++ [byte]).length (out ++ [plain byte]) := by
  have hlen : (before ++ byte :: rest).length = before.length + 1 + rest.length := by
    rw [List.length_append, List.length_cons]
    omega
  have hlt : before.length < (before ++ byte :: rest).length := by omega
  have hbyte : (before ++ byte :: rest)[before.length] = byte := by simp
  rw [decodeFrom, dif_pos hlt, hbyte, if_neg]
  · rw [List.append_assoc, List.singleton_append, List.length_append, List.length_singleton]
  · rintro ⟨hpercent, hmore⟩
    have hshort := h hpercent
    omega

/-- A `%` with two bytes after it. -/
theorem decodeFrom_percent (first second : UInt8) :
    decodeFrom (before ++ 0x25 :: first :: second :: rest) before.length out =
      if cuts (first :: second :: rest) then none
      else match fromStrRadix [first, second] with
        | some value => decodeFrom (before ++ [0x25, first, second] ++ rest)
            (before ++ [0x25, first, second]).length (out ++ [value])
        | none => decodeFrom (before ++ [0x25] ++ first :: second :: rest)
            (before ++ [0x25]).length (out ++ [0x25]) := by
  have hlen : (before ++ 0x25 :: first :: second :: rest).length =
      before.length + 3 + rest.length := by
    simp only [List.length_append, List.length_cons]
    omega
  have hlt : before.length < (before ++ 0x25 :: first :: second :: rest).length := by omega
  have hbyte : (before ++ 0x25 :: first :: second :: rest)[before.length] = 0x25 := by simp
  have hslice := @slice_append (before ++ [0x25]) rest (by simp) first second
  rw [List.append_assoc, List.singleton_append, List.length_append, List.length_singleton] at hslice
  rw [decodeFrom, dif_pos hlt, hbyte, if_pos ⟨rfl, by omega⟩, hslice]
  split_ifs with hcuts
  · rfl
  · cases hdigits : fromStrRadix [first, second] <;> simp [hdigits, plain]

/-- **The loop, on the bytes that are left.** -/
theorem decodeFrom_eq (before rest out : List UInt8) :
    decodeFrom (before ++ rest) before.length out = (decodeRest rest).map (out ++ ·) := by
  induction rest using decodeRest.induct generalizing before out with
  | case1 =>
    rw [List.append_nil, decodeFrom_end]
    simp [decodeRest]
  | case2 byte =>
    rw [decodeFrom_plain fun _ => by simp, List.append_nil, decodeFrom_end]
    rfl
  | case3 byte last =>
    rw [decodeFrom_plain fun _ => by simp, decodeFrom_plain fun _ => by simp, List.append_nil,
      decodeFrom_end, List.append_assoc]
    rfl
  | case4 first second rest hcuts =>
    rw [decodeFrom_percent, decodeRest, if_pos hcuts, if_pos rfl, if_pos hcuts]
    rfl
  | case5 first second rest hcuts value hdigits ih =>
    rw [decodeFrom_percent, decodeRest, if_neg hcuts, if_pos rfl, if_neg hcuts]
    simp only [hdigits]
    rw [ih, Option.map_map]
    simp [Function.comp_def]
  | case6 first second rest hcuts hdigits ih =>
    rw [decodeFrom_percent, decodeRest, if_neg hcuts, if_pos rfl, if_neg hcuts]
    simp only [hdigits]
    rw [ih, Option.map_map]
    simp [Function.comp_def]
  | case7 byte first second rest hbyte ih =>
    rw [decodeFrom_plain fun h => absurd h hbyte, ih, decodeRest, if_neg hbyte, Option.map_map]
    simp [Function.comp_def]

end Loop

/-! ## Panics -/

/-- A slice of two bytes from here on ends inside a character. -/
def EndsInside : List Char → Prop
  | [] => False
  | [c] => 3 ≤ c.utf8Size
  | c :: next :: _ => 3 ≤ c.utf8Size ∨ c.utf8Size = 1 ∧ 2 ≤ next.utf8Size

/-- No `%` of the text has such a slice after it. -/
def Decodable (text : String) : Prop := ∀ after, '%' :: after <:+ text.toList → ¬ EndsInside after

theorem isContinuation_ascii {c : Char} (h : c.toNat < 0x80) :
    isContinuation (UInt8.ofNat c.toNat) = false := by
  by_contra hcont
  have hhigh := not_ascii_of_isContinuation (Bool.not_eq_false _ ▸ hcont)
  rw [UInt8.le_iff_toNat_le, toNat_ofNat_ascii h] at hhigh
  exact absurd hhigh (Nat.not_le.mpr h)

theorem isContinuation_first {first : UInt8} (h : 0xC0 ≤ first) : isContinuation first = false := by
  have hnot : ¬ first < 0xC0 := UInt8.not_lt.mpr h
  simp [isContinuation, hnot]

/-- Whether the slice panics, by the characters. -/
theorem cuts_textBytes (text : List Char) : cuts (textBytes text) = true ↔ EndsInside text := by
  cases text with
  | nil => simp [textBytes_eq, cuts, EndsInside]
  | cons c text =>
    have hsize := String.length_utf8EncodeChar c
    rw [textBytes_cons]
    rcases utf8EncodeChar_cases c with ⟨hc, hbytes⟩ |
      ⟨hc, first, more, hbytes, hfirst, hmore, hcont⟩
    · rw [hbytes] at hsize ⊢
      have hone : c.utf8Size = 1 := hsize.symm
      cases text with
      | nil => simp [textBytes_eq, cuts, EndsInside, hone]
      | cons next text =>
        have hnext := String.length_utf8EncodeChar next
        rw [textBytes_cons]
        rcases utf8EncodeChar_cases next with ⟨hn, hbytes'⟩ |
          ⟨hn, first, more, hbytes', -, hmore, hcont⟩
        · rw [hbytes'] at hnext ⊢
          have htwo : next.utf8Size = 1 := hnext.symm
          simp [cuts, isContinuation_ascii hc, head_textBytes, EndsInside, hone, htwo]
        · obtain ⟨second, more, rfl⟩ := List.exists_cons_of_ne_nil hmore
          rw [hbytes'] at hnext ⊢
          have htwo : 2 ≤ next.utf8Size := by
            rw [← hnext]
            exact Nat.succ_le_succ (Nat.succ_pos _)
          simp [cuts, hcont second List.mem_cons_self, EndsInside, hone, htwo]
    · obtain ⟨second, more, rfl⟩ := List.exists_cons_of_ne_nil hmore
      rw [hbytes] at hsize ⊢
      cases more with
      | nil =>
        have htwo : c.utf8Size = 2 := hsize.symm
        cases text <;>
          simp [cuts, isContinuation_first hfirst, head_textBytes, EndsInside, htwo]
      | cons third more =>
        have hthree : 3 ≤ c.utf8Size := by
          rw [← hsize]
          exact Nat.le_add_left 3 _
        have hthird := hcont third (by simp)
        cases text <;> simp [cuts, hthird, EndsInside, hthree]

theorem isSome_decodeRest_plain {byte : UInt8} (h : byte ≠ 0x25) (rest : List UInt8) :
    (decodeRest (byte :: rest)).isSome = (decodeRest rest).isSome := by
  match rest with
  | [] | [_] => rfl
  | first :: second :: rest =>
    rw [decodeRest, if_neg h, Option.isSome_map]

/-- Digits, and the sign before them, are not `%`. -/
theorem ne_percent_of_fromStrRadix {first second value : UInt8}
    (h : fromStrRadix [first, second] = some value) : first ≠ 0x25 ∧ second ≠ 0x25 := by
  constructor
  · rintro rfl
    exact absurd h (by simp [fromStrRadix, parseDigits, hexValue])
  · rintro rfl
    have hlast : ∀ value, parseDigits value [0x25] = none := fun value => by
      simp [parseDigits, hexValue]
    rw [fromStrRadix] at h
    split_ifs at h with hplus
    · rw [hlast] at h
      exact absurd h.symm (Option.some_ne_none value)
    · have hnone : parseDigits 0 [first, 0x25] = none := by
        unfold parseDigits
        cases hexValue (Char.ofNat first.toNat) with
        | none => rfl
        | some digit => simp only [hlast, ite_self]
      rw [hnone] at h
      exact absurd h.symm (Option.some_ne_none value)

/-- After a `%`, the slice must not panic, and then the rest is read, whether its first bytes were
digits or not. -/
theorem isSome_decodeRest_percent (rest : List UInt8) :
    (decodeRest (0x25 :: rest)).isSome = (!cuts rest && (decodeRest rest).isSome) := by
  match rest with
  | [] | [_] => rfl
  | first :: second :: rest =>
    rw [decodeRest, if_pos rfl]
    cases hcuts : cuts (first :: second :: rest) with
    | true => rfl
    | false =>
      cases hdigits : fromStrRadix [first, second] with
      | none => simp
      | some value =>
        obtain ⟨hfirst, hsecond⟩ := ne_percent_of_fromStrRadix hdigits
        rw [isSome_decodeRest_plain hfirst, isSome_decodeRest_plain hsecond]
        simp

theorem isSome_decodeRest_append {bytes : List UInt8} (h : 0x25 ∉ bytes) (rest : List UInt8) :
    (decodeRest (bytes ++ rest)).isSome = (decodeRest rest).isSome := by
  induction bytes with
  | nil => rfl
  | cons byte bytes ih =>
    obtain ⟨hbyte, hbytes⟩ := not_or.mp (List.mem_cons.not.mp h)
    rw [List.cons_append, isSome_decodeRest_plain (Ne.symm hbyte), ih hbytes]

/-- **Which texts are read to their end.** -/
theorem isSome_decodeRest_iff (text : List Char) :
    (decodeRest (textBytes text)).isSome = true ↔
      ∀ after, '%' :: after <:+ text → ¬ EndsInside after := by
  induction text with
  | nil => simp [textBytes_eq, decodeRest]
  | cons c text ih =>
    rw [textBytes_cons]
    by_cases hc : c = '%'
    · subst hc
      have hbyte : String.utf8EncodeChar '%' = [0x25] := rfl
      rw [hbyte, List.singleton_append, isSome_decodeRest_percent, Bool.and_eq_true, ih,
        Bool.not_eq_true', ← Bool.not_eq_true, cuts_textBytes]
      simp only [List.suffix_cons_iff, List.cons.injEq, true_and, forall_eq_or_imp]
    · have hbyte : 0x25 ∉ String.utf8EncodeChar c := by
        have hcount := @count_utf8EncodeChar '%' (by decide) c
        rw [List.count_singleton, if_neg (by simpa using hc)] at hcount
        exact List.count_eq_zero.mp hcount
      rw [isSome_decodeRest_append hbyte, ih]
      simp only [List.suffix_cons_iff, List.cons.injEq, Ne.symm hc, false_and, false_or]

theorem textBytes_toList (input : String) : textBytes input.toList = utf8 input := by
  rw [textBytes, String.ofList_toList]

theorem percentDecode_eq (input : String) :
    percentDecode input =
      (decodeRest (textBytes input.toList)).map fun out => String.ofList (lossy out) := by
  have hloop := decodeFrom_eq [] (utf8 input) []
  rw [List.nil_append, List.length_nil] at hloop
  rw [percentDecode, hloop, textBytes_toList, Option.map_map]
  rfl

theorem percentDecode_isSome_iff (input : String) :
    (percentDecode input).isSome = true ↔ Decodable input := by
  rw [percentDecode_eq, Option.isSome_map, isSome_decodeRest_iff]
  rfl

/-- The texts of a pair that are decoded. -/
def pairPieces (pair : String) : List String :=
  match splitOnce '=' pair with
  | some (key, value) => [key, value]
  | none => [pair]

/-- The texts of a query that are decoded. -/
def queryPieces (query : String) : List String :=
  ((splitAt '&' query).filter fun pair => pair ≠ "").flatMap pairPieces

theorem parsePair_isSome_iff (pair : String) :
    (parsePair pair).isSome = true ↔ ∀ piece ∈ pairPieces pair, Decodable piece := by
  unfold parsePair pairPieces
  cases splitOnce '=' pair with
  | none =>
    rw [List.forall_mem_singleton, ← percentDecode_isSome_iff]
    cases percentDecode pair <;> simp
  | some parts =>
    obtain ⟨key, value⟩ := parts
    simp only [List.forall_mem_cons, List.not_mem_nil, false_implies, implies_true, and_true,
      ← percentDecode_isSome_iff]
    cases percentDecode key <;> cases percentDecode value <;> simp

theorem isSome_mapM_iff {α β : Type} {f : α → Option β} (l : List α) :
    (l.mapM f).isSome = true ↔ ∀ a ∈ l, (f a).isSome = true := by
  induction l with
  | nil => simp
  | cons a l ih =>
    rw [List.forall_mem_cons, ← ih, List.mapM_cons]
    cases f a <;> cases l.mapM f <;> simp

theorem parseQuery_isSome_iff (query : String) :
    (parseQuery query).isSome = true ↔ ∀ piece ∈ queryPieces query, Decodable piece := by
  unfold parseQuery queryPieces
  rw [isSome_mapM_iff, List.forall_mem_flatMap]
  simp only [parsePair_isSome_iff]

theorem splitTarget_isSome_iff (target : String) :
    (splitTarget target).isSome = true ↔
      ∀ path query, splitOnce '?' target = some (path, query) →
        ∀ piece ∈ queryPieces query, Decodable piece := by
  unfold splitTarget
  cases splitOnce '?' target with
  | none => simp
  | some parts =>
    obtain ⟨path, query⟩ := parts
    simp only [Option.isSome_map, parseQuery_isSome_iff, Option.some.injEq, Prod.mk.injEq]
    exact ⟨fun h _ _ heq => heq.2 ▸ h, fun h => h path query ⟨rfl, rfl⟩⟩

/-- **Which strings, queries and targets are decoded without a panic.** -/
theorem query_returns_iff (input query target : String) :
    ((percentDecode input).isSome = true ↔ Decodable input) ∧
    ((parseQuery query).isSome = true ↔ ∀ piece ∈ queryPieces query, Decodable piece) ∧
    ((splitTarget target).isSome = true ↔
      ∀ path query, splitOnce '?' target = some (path, query) →
        ∀ piece ∈ queryPieces query, Decodable piece) :=
  ⟨percentDecode_isSome_iff input, parseQuery_isSome_iff query, splitTarget_isSome_iff target⟩

theorem percentDecode_cut : percentDecode "%aé" = none := by
  have hends : EndsInside ['a', 'é'] := Or.inr (by decide)
  have hinput : ¬ Decodable "%aé" := fun h => h ['a', 'é'] (List.suffix_refl _) hends
  rw [← percentDecode_isSome_iff, Option.not_isSome_iff_eq_none] at hinput
  exact hinput

theorem splitTarget_cut : splitTarget "/?%aé" = none := by
  have hquery : parseQuery "%aé" = none := by
    rw [← Option.not_isSome_iff_eq_none, parseQuery_isSome_iff]
    intro h
    have hsome := (percentDecode_isSome_iff _).mpr (h "%aé" (by decide))
    rw [percentDecode_cut] at hsome
    exact absurd hsome Bool.false_ne_true
  have hsplit : splitOnce '?' "/?%aé" = some ("/", "%aé") := by decide
  rw [splitTarget, hsplit]
  simp only [hquery, Option.map_none]

/-- A `%`, a digit, and a character that is not ASCII: the request for it ends the daemon. -/
theorem known_target_panics :
    percentDecode "%aé" = none ∧ splitTarget "/?%aé" = none :=
  ⟨percentDecode_cut, splitTarget_cut⟩

/-! ## Form decoding -/

/-- Form decoding of an ASCII text: `%` and two digits are a byte, `+` is a space, everything else
stands for itself. -/
def formBytes : List Char → List UInt8
  | '%' :: high :: low :: rest =>
    match hexValue high, hexValue low with
    | some h, some l => UInt8.ofNat (16 * h + l) :: formBytes rest
    | _, _ => 0x25 :: formBytes (high :: low :: rest)
  | c :: rest => (if c = '+' then 0x20 else UInt8.ofNat c.toNat) :: formBytes rest
  | [] => []

/-- The text that form decoding gives. -/
def formDecode (input : String) : String := String.ofList (lossy (formBytes input.toList))

/-- Whether a byte stands for itself in a form. -/
def isUnreserved (byte : UInt8) : Bool :=
  let c := Char.ofNat byte.toNat
  c.isAlphanum || c == '*' || c == '-' || c == '.' || c == '_'

/-- A byte in a form. -/
def formEncodeByte (byte : UInt8) : List Char :=
  if byte = 0x20 then ['+']
  else if isUnreserved byte then [Char.ofNat byte.toNat]
  else ['%', (hexDigit (byte.toNat / 16)).toUpper, (hexDigit (byte.toNat % 16)).toUpper]

/-- Form encoding. -/
def formEncode (text : String) : String := String.ofList ((utf8 text).flatMap formEncodeByte)

/-- Some `%` has a sign and a digit after it. -/
def Signed (text : List Char) : Prop :=
  ∃ digit after, '%' :: '+' :: digit :: after <:+ text ∧ (hexValue digit).isSome = true

theorem hexValue_lt {c : Char} {n : Nat} (h : hexValue c = some n) : n < 16 := by
  unfold hexValue at h
  dsimp only at h
  split_ifs at h <;> (obtain rfl := Option.some.inj h; omega)

/-- The two digits, or a sign and one. -/
theorem fromStrRadix_ascii {high low : Char} (hhigh : high.toNat < 0x80) (hlow : low.toNat < 0x80) :
    fromStrRadix [UInt8.ofNat high.toNat, UInt8.ofNat low.toNat] =
      if high = '+' then (hexValue low).map UInt8.ofNat
      else (hexValue high).bind fun h => (hexValue low).map fun l => UInt8.ofNat (16 * h + l) := by
  have hchar : ∀ {c : Char}, c.toNat < 0x80 → Char.ofNat (UInt8.ofNat c.toNat).toNat = c := by
    intro c hc
    rw [toNat_ofNat_ascii hc, Char.ofNat_toNat]
  have hplus : UInt8.ofNat high.toNat = 0x2B ↔ high = '+' :=
    @ascii_byte_inj high '+' hhigh (by decide)
  rw [fromStrRadix]
  by_cases hsign : high = '+'
  · rw [if_pos (hplus.mpr hsign), if_neg (List.cons_ne_nil _ _), if_pos hsign]
    simp only [parseDigits, hchar hlow]
    cases hl : hexValue low with
    | none => rfl
    | some l =>
      have hlt := hexValue_lt hl
      simp [show l < 256 by omega]
  · rw [if_neg (mt hplus.mp hsign), if_neg hsign]
    simp only [parseDigits, hchar hhigh, hchar hlow]
    cases hh : hexValue high with
    | none => rfl
    | some h =>
      have hhlt := hexValue_lt hh
      cases hl : hexValue low with
      | none => simp
      | some l =>
        have hllt := hexValue_lt hl
        simp [show h < 256 by omega, show 16 * h + l < 256 by omega]

theorem decodeRest_plain {byte : UInt8} {rest : List UInt8} (h : byte = 0x25 → rest.length < 2) :
    decodeRest (byte :: rest) = (decodeRest rest).map (plain byte :: ·) := by
  match rest with
  | [] | [_] => rfl
  | first :: second :: rest =>
    rw [decodeRest, if_neg fun hbyte => absurd (h hbyte) (by simp)]

theorem signed_cons {c : Char} {text : List Char} (h : c ≠ '%') :
    Signed (c :: text) ↔ Signed text := by
  unfold Signed
  simp only [List.suffix_cons_iff, List.cons.injEq, Ne.symm h, false_and, false_or]

theorem signed_percent {text : List Char} :
    Signed ('%' :: text) ↔
      (∃ digit after, text = '+' :: digit :: after ∧ (hexValue digit).isSome = true) ∨
        Signed text := by
  unfold Signed
  simp only [List.suffix_cons_iff, List.cons.injEq, true_and, or_and_right, exists_or]
  simp only [eq_comm]

theorem cuts_of_ascii {text : List Char} (h : Ascii text) : cuts (textBytes text) = false := by
  have hsize : ∀ c ∈ text, c.utf8Size = 1 := by
    intro c hc
    rw [← String.length_utf8EncodeChar]
    rcases utf8EncodeChar_cases c with ⟨-, hbytes⟩ | ⟨hhigh, -⟩
    · rw [hbytes, List.length_singleton]
    · exact absurd hhigh (Nat.not_le.mpr (h c hc))
  rw [← Bool.not_eq_true, cuts_textBytes]
  match text with
  | [] => exact not_false
  | [c] => simp [EndsInside, hsize c (by simp)]
  | c :: next :: text => simp [EndsInside, hsize c (by simp), hsize next (by simp)]

/-- The two decodings of a text: they agree, or a sign is read as a digit and a `%` is missing. -/
def Compared (text : List Char) : Prop :=
  ∃ out, decodeRest (textBytes text) = some out ∧
    (¬ Signed text ∧ out = formBytes text ∨
      Signed text ∧ out.count 0x25 < (formBytes text).count 0x25)

/-- Both read one byte more, of some more characters. -/
theorem Compared.step {text text' : List Char} {byte : UInt8} (h : Compared text)
    (hdecode : decodeRest (textBytes text') = (decodeRest (textBytes text)).map (byte :: ·))
    (hform : formBytes text' = byte :: formBytes text) (hsigned : Signed text' ↔ Signed text) :
    Compared text' := by
  obtain ⟨out, hout, hcases⟩ := h
  refine ⟨byte :: out, by rw [hdecode, hout, Option.map_some], ?_⟩
  rw [hsigned, hform]
  rcases hcases with ⟨hnot, rfl⟩ | ⟨hsign, hlt⟩
  · exact Or.inl ⟨hnot, rfl⟩
  · refine Or.inr ⟨hsign, ?_⟩
    rw [List.count_cons, List.count_cons]
    exact Nat.add_lt_add_right hlt _

theorem textBytes_ascii_cons {c : Char} (h : c.toNat < 0x80) (text : List Char) :
    textBytes (c :: text) = UInt8.ofNat c.toNat :: textBytes text := by
  rcases utf8EncodeChar_cases c with ⟨-, hbytes⟩ | ⟨hhigh, -⟩
  · rw [textBytes_cons, hbytes, List.singleton_append]
  · exact absurd hhigh (Nat.not_le.mpr h)

theorem plain_ascii {c : Char} (h : c.toNat < 0x80) :
    plain (UInt8.ofNat c.toNat) = if c = '+' then 0x20 else UInt8.ofNat c.toNat := by
  have hplus : UInt8.ofNat c.toNat = 0x2B ↔ c = '+' :=
    @ascii_byte_inj c '+' h (by decide)
  simp only [plain, hplus]

theorem hexValue_percent : hexValue '%' = none := by decide

theorem hexValue_plus : hexValue '+' = none := by decide

theorem ne_of_hexValue {c other : Char} {n : Nat} (h : hexValue c = some n)
    (hother : hexValue other = none) : c ≠ other := by
  rintro rfl
  exact absurd (h.symm.trans hother) nofun

/-- A `%` that two characters follow. -/
theorem decodeRest_percent {high low : Char} {rest : List Char}
    (h : Ascii ('%' :: high :: low :: rest)) :
    decodeRest (textBytes ('%' :: high :: low :: rest)) =
      match fromStrRadix [UInt8.ofNat high.toNat, UInt8.ofNat low.toNat] with
      | some value => (decodeRest (textBytes rest)).map (value :: ·)
      | none => (decodeRest (textBytes (high :: low :: rest))).map (0x25 :: ·) := by
  obtain ⟨hpercent, hafter⟩ := List.forall_mem_cons.mp h
  obtain ⟨hhigh, hlow, hrest⟩ := List.forall_mem_cons.mp hafter |>.imp id List.forall_mem_cons.mp
  have hcuts := cuts_of_ascii hafter
  rw [textBytes_ascii_cons hhigh, textBytes_ascii_cons hlow] at hcuts
  rw [textBytes_ascii_cons hpercent, textBytes_ascii_cons hhigh, textBytes_ascii_cons hlow,
    decodeRest, if_pos (by decide), hcuts]
  rfl

/-- A character that does not begin an escape. -/
theorem decodeRest_ascii {c : Char} {text : List Char} (hc : c.toNat < 0x80)
    (h : c = '%' → text.length < 2) (hascii : Ascii text) :
    decodeRest (textBytes (c :: text)) = (decodeRest (textBytes text)).map
      ((if c = '+' then 0x20 else UInt8.ofNat c.toNat) :: ·) := by
  rw [textBytes_ascii_cons hc, decodeRest_plain, plain_ascii hc]
  intro hbyte
  rw [textBytes_of_ascii hascii, List.length_map]
  exact h ((ascii_byte_inj hc (by decide)).mp hbyte)

/-- A `%` with a sign and a digit after it is read as the digit. -/
theorem Compared.signed {low : Char} {rest : List Char} {l : Nat} (hl : hexValue low = some l)
    (hascii : Ascii ('%' :: '+' :: low :: rest)) (h : Compared ('+' :: low :: rest)) :
    Compared ('%' :: '+' :: low :: rest) := by
  have hafter : Ascii (low :: rest) := fun c hc => hascii c (by simp_all)
  have hrest : Ascii rest := fun c hc => hafter c (List.mem_cons_of_mem _ hc)
  have hlow : low.toNat < 0x80 := hafter low List.mem_cons_self
  have hplus : ('+').toNat < 0x80 := by decide
  have hdigit := ne_of_hexValue hl hexValue_percent
  have hdecode := decodeRest_percent hascii
  rw [fromStrRadix_ascii hplus hlow, if_pos rfl, hl] at hdecode
  have hform : formBytes ('%' :: '+' :: low :: rest) = 0x25 :: formBytes ('+' :: low :: rest) := by
    rw [formBytes, hexValue_plus]
  obtain ⟨out, hout, hcases⟩ := h
  have hle : out.count 0x25 ≤ (formBytes ('+' :: low :: rest)).count 0x25 := by
    rcases hcases with ⟨-, rfl⟩ | ⟨-, hlt⟩
    · exact Nat.le_refl _
    · exact Nat.le_of_lt hlt
  -- out of the escape, the sign and the digit are two bytes, and neither is a `%`
  rw [decodeRest_ascii hplus (fun h => absurd h (by decide)) hafter,
    decodeRest_ascii hlow (fun h => absurd h hdigit) hrest, Option.map_map] at hout
  obtain ⟨tail, htail, rfl⟩ := Option.map_eq_some_iff.mp hout
  have hsame : ((0x20 : UInt8) :: (if low = '+' then 0x20 else UInt8.ofNat low.toNat) :: tail).count
      0x25 = tail.count 0x25 := by
    rw [List.count_cons_of_ne (by decide), if_neg (ne_of_hexValue hl hexValue_plus),
      List.count_cons_of_ne]
    exact fun heq => hdigit ((ascii_byte_inj hlow (by decide)).mp heq)
  have hvalue : UInt8.ofNat l ≠ 0x25 := by
    intro heq
    have hlt := hexValue_lt hl
    have hnat := congrArg UInt8.toNat heq
    rw [toNat_ofNat_ascii (by omega)] at hnat
    exact absurd hnat (by change l ≠ 37; omega)
  refine ⟨UInt8.ofNat l :: tail, by simp [hdecode, htail], Or.inr ⟨?_, ?_⟩⟩
  · exact signed_percent.mpr (Or.inl ⟨low, rest, rfl, by rw [hl]; rfl⟩)
  · rw [hform, List.count_cons_self, List.count_cons_of_ne hvalue, ← hsame]
    exact Nat.lt_succ_of_le hle

/-- **The two decodings of every text.** -/
theorem compared (text : List Char) (h : Ascii text) : Compared text := by
  induction text using formBytes.induct with
  | case1 high low rest hv lv hlow hhigh ih =>
    have hdecode := decodeRest_percent h
    obtain ⟨-, hafter⟩ := List.forall_mem_cons.mp h
    have hrest : Ascii rest := fun c hc => h c (by simp [hc])
    rw [fromStrRadix_ascii (h high (by simp)) (h low (by simp)),
      if_neg (ne_of_hexValue hhigh hexValue_plus), hhigh, hlow] at hdecode
    refine (ih hrest).step hdecode ?_ ?_
    · rw [formBytes, hhigh, hlow]
    · rw [signed_percent, signed_cons (ne_of_hexValue hhigh hexValue_percent),
        signed_cons (ne_of_hexValue hlow hexValue_percent), or_iff_right]
      rintro ⟨digit, after, heq, -⟩
      exact ne_of_hexValue hhigh hexValue_plus (List.cons.inj heq).1
  | case2 high low rest hnot ih =>
    have hdecode := decodeRest_percent h
    have hafter : Ascii (high :: low :: rest) := fun c hc => h c (List.mem_cons_of_mem _ hc)
    have hform : formBytes ('%' :: high :: low :: rest) =
        0x25 :: formBytes (high :: low :: rest) := by
      rw [formBytes]
      split
      next hv lv hhigh hlow => exact absurd hlow (hnot hv lv hhigh)
      next => rfl
    by_cases hsigned : high = '+' ∧ (hexValue low).isSome = true
    · obtain ⟨rfl, hsome⟩ := hsigned
      obtain ⟨l, hl⟩ := Option.isSome_iff_exists.mp hsome
      exact Compared.signed hl h (ih hafter)
    · have hnone : fromStrRadix [UInt8.ofNat high.toNat, UInt8.ofNat low.toNat] = none := by
        rw [fromStrRadix_ascii (h high (by simp)) (h low (by simp))]
        split_ifs with hplus
        · simpa [hplus] using hsigned
        · cases hhigh : hexValue high with
          | none => rfl
          | some hv =>
            cases hlow : hexValue low with
            | none => rfl
            | some lv => exact absurd hlow (hnot hv lv hhigh)
      rw [hnone] at hdecode
      refine (ih hafter).step hdecode hform ?_
      rw [signed_percent, or_iff_right]
      rintro ⟨digit, after, heq, hdigit⟩
      simp only [List.cons.injEq] at heq
      exact hsigned ⟨heq.1, heq.2.1 ▸ hdigit⟩
  | case3 c rest hshort ih =>
    obtain ⟨hc, hrest⟩ := List.forall_mem_cons.mp h
    have hlen : c = '%' → rest.length < 2 := by
      intro hpercent
      match rest with
      | [] | [_] => simp
      | high :: low :: rest => exact absurd rfl (hshort high low rest hpercent)
    refine (ih hrest).step (decodeRest_ascii hc hlen hrest) (formBytes.eq_2 c rest hshort) ?_
    by_cases hpercent : c = '%'
    · subst hpercent
      rw [signed_percent, or_iff_right]
      rintro ⟨digit, after, rfl, -⟩
      exact absurd (hlen rfl) (by simp)
    · exact signed_cons hpercent
  | case4 =>
    refine ⟨[], by simp [textBytes_eq, decodeRest], Or.inl ⟨?_, rfl⟩⟩
    rintro ⟨_, _, hsuffix, -⟩
    exact absurd (List.suffix_nil.mp hsuffix) (List.cons_ne_nil _ _)

/-! ## Encoded texts -/

theorem hexValue_upper : ∀ n < 16, hexValue (hexDigit n).toUpper = some n := by decide

theorem isUnreserved_ascii :
    ∀ n < 256, isUnreserved (UInt8.ofNat n) = true → n < 0x80 ∧ n ≠ 0x25 ∧ n ≠ 0x2B := by
  decide +kernel

/-- The characters of a byte: a plain one that stands for it, or an escape. -/
theorem formEncodeByte_cases (byte : UInt8) :
    (∃ c, formEncodeByte byte = [c] ∧ c.toNat < 0x80 ∧ c ≠ '%' ∧
      (if c = '+' then 0x20 else UInt8.ofNat c.toNat) = byte) ∨
    ∃ high low h l, formEncodeByte byte = ['%', high, low] ∧ hexValue high = some h ∧
      hexValue low = some l ∧ UInt8.ofNat (16 * h + l) = byte := by
  have hbyte := byte.toNat_lt
  unfold formEncodeByte
  split_ifs with hspace hplain
  · exact Or.inl ⟨'+', rfl, by decide, by decide, hspace.symm⟩
  · obtain ⟨hlow, hpercent, hplus⟩ := isUnreserved_ascii byte.toNat hbyte (by
      rwa [UInt8.ofNat_toNat])
    have hchar : (Char.ofNat byte.toNat).toNat = byte.toNat := toNat_charOfNat hlow
    have hne : ∀ other : Char, byte.toNat ≠ other.toNat → Char.ofNat byte.toNat ≠ other := by
      rintro _ hother rfl
      exact hother hchar.symm
    refine Or.inl ⟨_, rfl, hchar.symm ▸ hlow, hne '%' hpercent, ?_⟩
    rw [if_neg (hne '+' hplus), hchar, UInt8.ofNat_toNat]
  · refine Or.inr ⟨_, _, byte.toNat / 16, byte.toNat % 16, rfl, hexValue_upper _ (by omega),
      hexValue_upper _ (by omega), ?_⟩
    rw [Nat.div_add_mod, UInt8.ofNat_toNat]

theorem formBytes_encode_append (byte : UInt8) (rest : List Char) :
    formBytes (formEncodeByte byte ++ rest) = byte :: formBytes rest := by
  rcases formEncodeByte_cases byte with ⟨c, hc, -, hpercent, hbyte⟩ |
    ⟨high, low, h, l, hescape, hhigh, hlow, hbyte⟩
  · rw [hc, List.singleton_append, formBytes.eq_2 _ _ fun _ _ _ h => absurd h hpercent, hbyte]
  · rw [hescape]
    change formBytes ('%' :: high :: low :: rest) = _
    rw [formBytes, hhigh, hlow]
    simp only [hbyte]

theorem signed_encode_append (byte : UInt8) (rest : List Char) :
    Signed (formEncodeByte byte ++ rest) ↔ Signed rest := by
  rcases formEncodeByte_cases byte with ⟨c, hc, -, hpercent, -⟩ |
    ⟨high, low, h, l, hescape, hhigh, hlow, -⟩
  · rw [hc, List.singleton_append, signed_cons hpercent]
  · rw [hescape]
    change Signed ('%' :: high :: low :: rest) ↔ _
    rw [signed_percent, signed_cons (ne_of_hexValue hhigh hexValue_percent),
      signed_cons (ne_of_hexValue hlow hexValue_percent), or_iff_right]
    rintro ⟨digit, after, heq, -⟩
    exact ne_of_hexValue hhigh hexValue_plus (List.cons.inj heq).1

theorem hexValue_ascii {c : Char} {n : Nat} (h : hexValue c = some n) : c.toNat < 0x80 := by
  unfold hexValue at h
  dsimp only at h
  split_ifs at h <;> omega

theorem ascii_encode (byte : UInt8) : Ascii (formEncodeByte byte) := by
  rcases formEncodeByte_cases byte with ⟨c, hc, hascii, -⟩ |
    ⟨high, low, h, l, hescape, hhigh, hlow, -⟩
  · rw [hc]
    exact List.forall_mem_singleton.mpr hascii
  · rw [hescape]
    refine List.forall_mem_cons.mpr ⟨by decide, List.forall_mem_cons.mpr
      ⟨hexValue_ascii hhigh, List.forall_mem_singleton.mpr (hexValue_ascii hlow)⟩⟩

/-- What is encoded is an ASCII text without signs, and form decoding undoes it. -/
theorem formEncode_facts (bytes : List UInt8) :
    Ascii (bytes.flatMap formEncodeByte) ∧ ¬ Signed (bytes.flatMap formEncodeByte) ∧
      formBytes (bytes.flatMap formEncodeByte) = bytes := by
  induction bytes with
  | nil =>
    refine ⟨fun c hc => absurd hc List.not_mem_nil, ?_, rfl⟩
    rintro ⟨_, _, hsuffix, -⟩
    exact absurd (List.suffix_nil.mp hsuffix) (List.cons_ne_nil _ _)
  | cons byte bytes ih =>
    obtain ⟨hascii, hsigned, hform⟩ := ih
    rw [List.flatMap_cons]
    refine ⟨List.forall_mem_append.mpr ⟨ascii_encode byte, hascii⟩, ?_, ?_⟩
    · rwa [signed_encode_append]
    · rw [formBytes_encode_append, hform]

/-- One string: a sign in an escape is the only difference. -/
theorem percentDecode_ascii {input : String} (h : Ascii input.toList) :
    percentDecode input = some (formDecode input) ↔ ¬ Signed input.toList := by
  obtain ⟨out, hout, hcases⟩ := compared input.toList h
  have hdecode : percentDecode input = some (String.ofList (lossy out)) := by
    rw [percentDecode_eq, hout, Option.map_some]
  rw [hdecode, formDecode, Option.some.injEq]
  rcases hcases with ⟨hnot, rfl⟩ | ⟨hsigned, hlt⟩
  · exact iff_of_true rfl hnot
  · refine iff_of_false (fun heq => ?_) (not_not.mpr hsigned)
    have hcount := congrArg (fun s : String => s.toList.count '%') heq
    simp only [String.toList_ofList, @count_lossy '%' (by decide)] at hcount
    exact absurd hcount (Nat.ne_of_lt hlt)

/-- **Which ASCII strings are decoded as form decoding has it**; the form encoding of any string is
one, and gives the string back. -/
theorem percentDecode_eq_form_iff (input text : String) :
    (Ascii input.toList →
      (percentDecode input = some (formDecode input) ↔ ¬ Signed input.toList)) ∧
    percentDecode (formEncode text) = some text := by
  refine ⟨percentDecode_ascii, ?_⟩
  obtain ⟨hascii, hsigned, hform⟩ := formEncode_facts (utf8 text)
  rw [← String.toList_ofList (l := (utf8 text).flatMap formEncodeByte)] at hascii hsigned
  have hdecode := (percentDecode_ascii hascii).mpr hsigned
  rw [formDecode, String.toList_ofList, hform] at hdecode
  rw [formEncode, hdecode, ← textBytes_toList, lossy_textBytes, String.ofList_toList]

/-- An escape of two digits: `+%41` is a space and an `A`. -/
theorem known_escape_decoded :
    Ascii "+%41".toList ∧ percentDecode "+%41" = some (formDecode "+%41") := by
  have hascii : Ascii "+%41".toList := by simp [Ascii]
  refine ⟨hascii, ((percentDecode_eq_form_iff "+%41" "").1 hascii).mpr ?_⟩
  intro h
  change Signed ['+', '%', '4', '1'] at h
  rw [signed_cons (by decide), signed_percent, signed_cons (by decide),
    signed_cons (by decide)] at h
  rcases h with ⟨_, _, heq, -⟩ | ⟨_, _, hsuffix, -⟩
  · exact absurd (List.cons.inj heq).1 (by decide)
  · exact absurd (List.suffix_nil.mp hsuffix) (List.cons_ne_nil _ _)

/-- A sign in an escape: `%+a` is read as the byte `0x0A`, and form decoding has `% a`. -/
theorem known_sign_decoded :
    percentDecode "%+a" = some "\n" ∧ formDecode "%+a" = "% a" ∧
      percentDecode "%+a" ≠ some (formDecode "%+a") := by
  have hbytes : decodeRest (textBytes "%+a".toList) = some (textBytes ['\n']) := by decide
  have hform : formBytes "%+a".toList = textBytes ['%', ' ', 'a'] := by decide
  have hdecode : percentDecode "%+a" = some "\n" := by
    rw [percentDecode_eq, hbytes, Option.map_some, lossy_textBytes]
  have hreference : formDecode "%+a" = "% a" := by
    rw [formDecode, hform, lossy_textBytes]
  refine ⟨hdecode, hreference, ?_⟩
  rw [hdecode, hreference]
  decide

end Keepstone.Daemon
