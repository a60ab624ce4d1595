import Keepstone.Lib.Text

/-!
# UTF-8 byte by byte

The bytes of a character are a first byte and continuation bytes, so where a string may be cut can
be told from one byte. `lossy` reads any bytes as text: what is not UTF-8 is read as U+FFFD, one for
each longest piece that could have begun a character.

Results:
* `utf8EncodeChar_eq`: the bytes of a character;
* `isCharBoundary_append`: where a string may be cut, by the bytes after the cut;
* `lossy_textBytes`: a text is read back;
* `count_lossy`: an ASCII character is read as often as its byte is there;
* `infix_of_lossy`: what is read in a text without U+FFFD is there in its bytes;
* `exists_of_textBytes_at`: where the bytes of a text are among those of another, the text is.
-/

namespace Keepstone.Lib

/-- A byte that is not the first of its character. -/
def isContinuation (byte : UInt8) : Bool := 0x80 ≤ byte && byte < 0xC0

/-- The bytes of a character: its number, or a first byte and continuation bytes. -/
theorem utf8EncodeChar_cases (c : Char) :
    (c.toNat < 0x80 ∧ String.utf8EncodeChar c = [UInt8.ofNat c.toNat]) ∨
    (0x80 ≤ c.toNat ∧ ∃ first rest, String.utf8EncodeChar c = first :: rest ∧
      0xC0 ≤ first ∧ rest ≠ [] ∧ ∀ byte ∈ rest, isContinuation byte = true) := by
  unfold String.utf8EncodeChar
  dsimp only
  split_ifs with h₁ h₂ h₃
  · exact Or.inl ⟨Nat.lt_succ_of_le h₁, rfl⟩
  all_goals
    refine Or.inr ⟨by simp only [Char.toNat]; omega, _, _, rfl, ?_, List.cons_ne_nil _ _, ?_⟩
    · simp only [UInt8.le_iff_toNat_le, UInt8.toNat_ofNat']
      simp
      omega
    · simp only [List.mem_cons, List.not_mem_nil, or_false, forall_eq_or_imp, forall_eq,
        isContinuation, Bool.and_eq_true, decide_eq_true_eq, UInt8.le_iff_toNat_le,
        UInt8.lt_iff_toNat_lt, UInt8.toNat_ofNat']
      simp
      omega

theorem toNat_ofNat_ascii {n : Nat} (h : n < 0x80) : (UInt8.ofNat n).toNat = n := by
  rw [UInt8.toNat_ofNat']
  exact Nat.mod_eq_of_lt (h.trans (by decide))

theorem toNat_charOfNat {n : Nat} (h : n < 0x80) : (Char.ofNat n).toNat = n := by
  have hvalid : n.isValidChar := Or.inl (h.trans (by decide))
  unfold Char.ofNat
  rw [dif_pos hvalid]
  rfl

theorem ascii_byte_inj {c d : Char} (hc : c.toNat < 0x80) (hd : d.toNat < 0x80) :
    UInt8.ofNat c.toNat = UInt8.ofNat d.toNat ↔ c = d := by
  rw [← UInt8.toNat_inj, toNat_ofNat_ascii hc, toNat_ofNat_ascii hd, Char.toNat_inj]

theorem not_ascii_of_isContinuation {byte : UInt8} (h : isContinuation byte = true) :
    0x80 ≤ byte := by
  simp only [isContinuation, Bool.and_eq_true, decide_eq_true_eq] at h
  exact h.1

theorem textBytes_cons (c : Char) (text : List Char) :
    textBytes (c :: text) = String.utf8EncodeChar c ++ textBytes text := by
  rw [textBytes_eq, textBytes_eq, List.flatMap_cons]

/-- The byte of an ASCII character is in no other one. -/
theorem count_utf8EncodeChar {ascii : Char} (hascii : ascii.toNat < 0x80) (c : Char) :
    (String.utf8EncodeChar c).count (UInt8.ofNat ascii.toNat) = [c].count ascii := by
  have htoNat := toNat_ofNat_ascii hascii
  rcases utf8EncodeChar_cases c with ⟨hc, hbytes⟩ | ⟨hc, first, rest, hbytes, hfirst, -, hrest⟩
  · rw [hbytes, List.count_singleton, List.count_singleton]
    simp only [beq_iff_eq, ascii_byte_inj hc hascii]
  · have hne : c ≠ ascii := by
      rintro rfl
      omega
    have hmem : UInt8.ofNat ascii.toNat ∉ first :: rest := by
      intro hmem
      rcases List.mem_cons.mp hmem with rfl | hmem
      · rw [UInt8.le_iff_toNat_le, htoNat] at hfirst
        exact absurd hfirst (Nat.not_le.mpr (hascii.trans (by decide)))
      · have hcont := not_ascii_of_isContinuation (hrest _ hmem)
        rw [UInt8.le_iff_toNat_le, htoNat] at hcont
        exact absurd hcont (Nat.not_le.mpr hascii)
    rw [hbytes, List.count_eq_zero_of_not_mem hmem, List.count_singleton, if_neg]
    simpa using hne

/-! ## Cutting a string -/

/-- `str::is_char_boundary`, on the bytes of the string. -/
def isCharBoundary (bytes : List UInt8) (index : Nat) : Bool :=
  index == 0 || match bytes[index]? with
    | none => index == bytes.length
    | some byte => !isContinuation byte

/-- `&text[start..stop]`, on the bytes of the string; `none` is a panic. -/
def slice (bytes : List UInt8) (start stop : Nat) : Option (List UInt8) :=
  if start ≤ stop ∧ isCharBoundary bytes start ∧ isCharBoundary bytes stop then
    some ((bytes.drop start).take (stop - start))
  else none

theorem isCharBoundary_append {before : List UInt8} (h : before ≠ []) (rest : List UInt8) :
    isCharBoundary (before ++ rest) before.length = !rest.head?.any isContinuation := by
  have hpos : before.length ≠ 0 := fun hlen => h (List.length_eq_zero_iff.mp hlen)
  unfold isCharBoundary
  rw [List.getElem?_append_right (Nat.le_refl _), Nat.sub_self]
  cases rest with
  | nil => simp
  | cons byte rest => simp [hpos]

/-- No text begins with a continuation byte. -/
theorem head_textBytes (text : List Char) :
    (textBytes text).head?.any isContinuation = false := by
  cases text with
  | nil => rfl
  | cons c text =>
    rw [textBytes_cons]
    rcases utf8EncodeChar_cases c with ⟨hc, hbytes⟩ | ⟨-, first, rest, hbytes, hfirst, -⟩
    · have hnot : ¬ 0x80 ≤ UInt8.ofNat c.toNat := by
        rw [UInt8.le_iff_toNat_le, toNat_ofNat_ascii hc]
        exact Nat.not_le.mpr hc
      simp [hbytes, isContinuation, hnot]
    · have hnot : ¬ first < 0xC0 := UInt8.not_lt.mpr hfirst
      simp [hbytes, isContinuation, hnot]

/-! ## Reading any bytes -/

/-- The length of the character that a first byte begins; `0` for a byte that begins none. -/
def charWidth (first : UInt8) : Nat :=
  if first < 0x80 then 1
  else if first < 0xC2 then 0
  else if first < 0xE0 then 2
  else if first < 0xF0 then 3
  else if first < 0xF5 then 4
  else 0

/-- The second bytes that a first byte of a longer character allows. -/
def secondAllowed (first second : UInt8) : Bool :=
  if first = 0xE0 then 0xA0 ≤ second && second ≤ 0xBF
  else if first = 0xED then 0x80 ≤ second && second ≤ 0x9F
  else if first = 0xF0 then 0x90 ≤ second && second ≤ 0xBF
  else if first = 0xF4 then 0x80 ≤ second && second ≤ 0x8F
  else isContinuation second

/-- How many bytes are read as one U+FFFD, where no character is. -/
def invalidLength : List UInt8 → Nat
  | first :: second :: rest =>
    if 3 ≤ charWidth first ∧ secondAllowed first second then
      2 + ((rest.take (charWidth first - 3)).takeWhile isContinuation).length
    else 1
  | _ => 1

/-- The character that the bytes begin with. -/
def firstChar (bytes : List UInt8) : Option Char := (ByteArray.mk bytes.toArray).utf8DecodeChar? 0

/-- `String::from_utf8_lossy`. -/
def lossy : List UInt8 → List Char
  | [] => []
  | byte :: rest =>
    match firstChar (byte :: rest) with
    | some c => c :: lossy ((byte :: rest).drop c.utf8Size)
    | none => '\uFFFD' :: lossy ((byte :: rest).drop (invalidLength (byte :: rest)))
termination_by bytes => bytes.length
decreasing_by
  · have hpos := c.utf8Size_pos
    simp only [List.length_drop, List.length_cons]
    omega
  · have hpos : 0 < invalidLength (byte :: rest) := by
      unfold invalidLength
      split
      · split <;> omega
      · exact Nat.one_pos
    simp only [List.length_drop, List.length_cons]
    omega

theorem firstChar_encode_append (c : Char) (rest : List UInt8) :
    firstChar (String.utf8EncodeChar c ++ rest) = some c := by
  have hsplit : ByteArray.mk (String.utf8EncodeChar c ++ rest).toArray =
      (String.utf8EncodeChar c).toByteArray ++ ByteArray.mk rest.toArray := by
    refine ByteArray.ext ?_
    rw [ByteArray.data_append, List.data_toByteArray, List.append_toArray]
  unfold firstChar
  rw [hsplit, ByteArray.utf8DecodeChar?_utf8EncodeChar_append]

theorem firstChar_eq_some {bytes : List UInt8} {c : Char} (h : firstChar bytes = some c) :
    ∃ rest, bytes = String.utf8EncodeChar c ++ rest := by
  obtain ⟨rest, hrest⟩ := ByteArray.exists_of_utf8DecodeChar?_eq_some h
  have hdata := congrArg (fun b => b.data.toList) hrest
  refine ⟨rest.data.toList, ?_⟩
  simpa using hdata

theorem lossy_encode_append (c : Char) (rest : List UInt8) :
    lossy (String.utf8EncodeChar c ++ rest) = c :: lossy rest := by
  have hchar := firstChar_encode_append c rest
  have hdrop : (String.utf8EncodeChar c ++ rest).drop c.utf8Size = rest := by
    rw [← String.length_utf8EncodeChar, List.drop_left]
  cases hbytes : String.utf8EncodeChar c ++ rest with
  | nil =>
    have hlen := congrArg List.length hbytes
    rw [List.length_append, String.length_utf8EncodeChar, List.length_nil] at hlen
    exact absurd hlen (Nat.ne_of_gt (Nat.add_pos_left c.utf8Size_pos _))
  | cons byte bytes =>
    rw [hbytes] at hchar hdrop
    rw [lossy, hchar]
    simp only [hdrop]

/-- **A text is read back.** -/
theorem lossy_textBytes (text : List Char) : lossy (textBytes text) = text := by
  induction text with
  | nil => exact lossy.eq_1
  | cons c text ih => rw [textBytes_cons, lossy_encode_append, ih]

/-- An ASCII byte is a character. -/
theorem firstChar_of_ascii {byte : UInt8} (h : byte < 0x80) (rest : List UInt8) :
    firstChar (byte :: rest) = some (Char.ofNat byte.toNat) := by
  have hlt : byte.toNat < 0x80 := UInt8.lt_iff_toNat_lt.mp h
  have hchar := toNat_charOfNat hlt
  have hbytes : String.utf8EncodeChar (Char.ofNat byte.toNat) = [byte] := by
    rcases utf8EncodeChar_cases (Char.ofNat byte.toNat) with ⟨-, hbytes⟩ | ⟨hhigh, -⟩
    · rw [hbytes, hchar, UInt8.ofNat_toNat]
    · omega
  have hfirst := firstChar_encode_append (Char.ofNat byte.toNat) rest
  rwa [hbytes] at hfirst

theorem not_ascii_of_secondAllowed {first second : UInt8} (h : secondAllowed first second = true) :
    0x80 ≤ second := by
  have hle : ∀ low : UInt8, 0x80 ≤ low → low ≤ second → 0x80 ≤ second :=
    fun _ hlow hsecond => UInt8.le_trans hlow hsecond
  unfold secondAllowed at h
  split_ifs at h
  case neg => exact not_ascii_of_isContinuation h
  all_goals
    simp only [Bool.and_eq_true, decide_eq_true_eq] at h
    exact hle _ (by decide) h.1

/-- Where no character is, no ASCII byte is among those that are skipped. -/
theorem not_ascii_of_invalid {bytes : List UInt8} (h : firstChar bytes = none) {byte : UInt8}
    (hmem : byte ∈ bytes.take (invalidLength bytes)) : 0x80 ≤ byte := by
  have hhead : ∀ first rest, bytes = first :: rest → 0x80 ≤ first := by
    rintro first rest rfl
    by_contra hlow
    rw [firstChar_of_ascii (UInt8.not_le.mp hlow)] at h
    exact absurd h nofun
  match bytes, hhead with
  | [], _ => exact absurd hmem List.not_mem_nil
  | [first], hhead =>
    obtain rfl : byte = first := List.mem_singleton.mp hmem
    exact hhead _ _ rfl
  | first :: second :: rest, hhead =>
    rw [invalidLength] at hmem
    split_ifs at hmem with hallowed
    · rw [Nat.add_comm, List.take_succ_cons, List.take_succ_cons] at hmem
      rcases List.mem_cons.mp hmem with rfl | hmem
      · exact hhead _ _ rfl
      rcases List.mem_cons.mp hmem with rfl | hmem
      · exact not_ascii_of_secondAllowed hallowed.2
      · -- the rest of the piece is the continuation bytes themselves
        have hpre := (List.takeWhile_prefix isContinuation
          (l := rest.take (charWidth first - 3))).trans (List.take_prefix _ _)
        rw [← List.prefix_iff_eq_take.mp hpre] at hmem
        exact not_ascii_of_isContinuation (List.mem_takeWhile_imp hmem)
    · obtain rfl : byte = first := List.mem_singleton.mp hmem
      exact hhead _ _ rfl

/-- **An ASCII character is read as often as its byte is there.** -/
theorem count_lossy {ascii : Char} (hascii : ascii.toNat < 0x80) (bytes : List UInt8) :
    (lossy bytes).count ascii = bytes.count (UInt8.ofNat ascii.toNat) := by
  induction bytes using lossy.induct with
  | case1 =>
    rw [lossy]
    rfl
  | case2 byte rest c hchar ih =>
    obtain ⟨after, hafter⟩ := firstChar_eq_some hchar
    rw [hafter] at ih ⊢
    rw [← String.length_utf8EncodeChar, List.drop_left] at ih
    rw [lossy_encode_append, List.count_append, count_utf8EncodeChar hascii, ← ih,
      ← List.count_append, List.singleton_append]
  | case3 byte rest hchar ih =>
    have hskipped : ((byte :: rest).take (invalidLength (byte :: rest))).count
        (UInt8.ofNat ascii.toNat) = 0 := by
      refine List.count_eq_zero_of_not_mem fun hmem => ?_
      have hhigh := not_ascii_of_invalid hchar hmem
      rw [UInt8.le_iff_toNat_le, toNat_ofNat_ascii hascii] at hhigh
      exact absurd hhigh (Nat.not_le.mpr hascii)
    have hne : ascii ≠ '\uFFFD' := by
      rintro rfl
      exact absurd hascii (by decide)
    rw [lossy]
    simp only [hchar]
    rw [List.count_cons_of_ne hne.symm, ih, ← Nat.zero_add (List.count _ _), ← hskipped,
      ← List.count_append, List.take_append_drop]

/-! ## What was read was there -/

theorem lossy_textBytes_append (text : List Char) (rest : List UInt8) :
    lossy (textBytes text ++ rest) = text ++ lossy rest := by
  induction text with
  | nil => rfl
  | cons c text ih => rw [textBytes_cons, List.append_assoc, lossy_encode_append, ih,
      List.cons_append]

theorem prefix_of_textBytes {part text : List Char} (h : textBytes part <+: textBytes text) :
    part <+: text := by
  obtain ⟨rest, hrest⟩ := h
  have hread := congrArg lossy hrest
  rw [lossy_textBytes_append, lossy_textBytes] at hread
  exact ⟨_, hread⟩

theorem textBytes_ne_nil {text : List Char} (h : text ≠ []) : textBytes text ≠ [] := by
  obtain ⟨c, text, rfl⟩ := List.exists_cons_of_ne_nil h
  intro hnil
  have hread := congrArg lossy hnil
  rw [lossy_textBytes, lossy] at hread
  exact absurd hread (List.cons_ne_nil _ _)

/-- **Where the bytes of a text are among those of another, the text is**: no character begins
within one. -/
theorem exists_of_textBytes_at {part text : List Char} (hne : part ≠ []) {position : Nat}
    (h : textBytes part <+: (textBytes text).drop position) :
    ∃ before after, text = before ++ after ∧ (textBytes before).length = position ∧
      part <+: after := by
  induction text generalizing position with
  | nil =>
    have hnil : (textBytes []).drop position = [] := List.drop_nil
    rw [hnil, List.prefix_nil] at h
    exact absurd h (textBytes_ne_nil hne)
  | cons c text ih =>
    by_cases hzero : position = 0
    · subst hzero
      exact ⟨[], c :: text, rfl, rfl, prefix_of_textBytes h⟩
    rw [textBytes_cons] at h
    by_cases hwithin : position < (String.utf8EncodeChar c).length
    · -- a continuation byte begins no text
      exfalso
      obtain ⟨d, part, rfl⟩ := List.exists_cons_of_ne_nil hne
      rcases utf8EncodeChar_cases c with ⟨-, hone⟩ | ⟨-, first, rest, hbytes, -, -, hrest⟩
      · rw [hone, List.length_singleton] at hwithin
        omega
      · obtain ⟨index, rfl⟩ := Nat.exists_eq_succ_of_ne_zero hzero
        rw [hbytes, List.length_cons] at hwithin
        have hindex : index < rest.length := by omega
        have hcont := hrest _ (List.getElem_mem hindex)
        have hhead : (textBytes (d :: part)).head? = some rest[index] := by
          obtain ⟨tail, htail⟩ := h
          have hsome : (textBytes (d :: part)).head?.isSome := by
            rw [List.isSome_head?]
            simpa using textBytes_ne_nil (List.cons_ne_nil d part)
          obtain ⟨byte, hbyte⟩ := Option.isSome_iff_exists.mp hsome
          have heq := congrArg List.head? htail
          rw [List.head?_append, hbyte, Option.some_or, hbytes, List.cons_append,
            List.drop_succ_cons, List.drop_append_of_le_length hindex.le,
            List.head?_append, List.head?_drop, List.getElem?_eq_getElem hindex,
            Option.some_or] at heq
          rw [hbyte, heq]
        have hnot := head_textBytes (d :: part)
        rw [hhead, Option.any_some, hcont] at hnot
        exact absurd hnot Bool.true_eq_false_eq_False
    · have hle := Nat.not_lt.mp hwithin
      rw [List.drop_append, List.drop_of_length_le hle, List.nil_append] at h
      obtain ⟨before, after, rfl, hlength, hafter⟩ := ih h
      refine ⟨c :: before, after, rfl, ?_, hafter⟩
      rw [textBytes_cons, List.length_append, hlength]
      omega

end Keepstone.Lib
