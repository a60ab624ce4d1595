import Keepstone.Lib.Bytes
import Keepstone.Lib.Except
import Mathlib.Data.List.DropRight
import Mathlib.Data.List.ReduceOption

/-!
# Text

The operations of Rust's `str` and of the `hex` crate that the data files are read and written
with, on lists of characters. A file is a byte string; `readText` is its text, if it is UTF-8.

Results:
* `readText_textBytes`, `hexDecode_hexEncode`, `parseU64_showU64`: reading undoes writing;
* `lines_hexEncode`, `trim_hexEncode`: a line of hexadecimal digits is read back as it is;
* `lines_unlines_append`, `splitWhitespace_spaced_append`: so are lines, and words with spaces
  after them;
* `exists_of_prefix_textBytes`, `prefix_unlines_cases`: what the first part of a file of ASCII
  lines can be.
-/

namespace Keepstone.Lib

/-! ## Lines and words -/

/-- `char::is_whitespace`: the Unicode property `White_Space`. -/
def isWhitespace (c : Char) : Bool :=
  let n := c.toNat
  (0x09 ≤ n && n ≤ 0x0D) || n = 0x20 || n = 0x85 || n = 0xA0 || n = 0x1680 ||
    (0x2000 ≤ n && n ≤ 0x200A) || n = 0x2028 || n = 0x2029 || n = 0x202F || n = 0x205F ||
    n = 0x3000

/-- `str::trim`. -/
def trim (text : List Char) : List Char := (text.dropWhile isWhitespace).rdropWhile isWhitespace

/-- A line without its ending, given in reverse: a `\r` before the `\n` belongs to the ending. -/
def endLine : List Char → List Char
  | '\r' :: line => line.reverse
  | line => line.reverse

/-- `lines`, with the characters of the current line in reverse. -/
def linesFrom : List Char → List Char → List (List Char)
  | [], [] => []
  | line, [] => [line.reverse]
  | line, '\n' :: rest => endLine line :: linesFrom [] rest
  | line, c :: rest => linesFrom (c :: line) rest

/-- `str::lines`. -/
def lines (text : List Char) : List (List Char) := linesFrom [] text

/-- `str::split_whitespace`. -/
def splitWhitespace (text : List Char) : List (List Char) :=
  (text.splitOnP isWhitespace).filter fun word => !word.isEmpty

theorem linesFrom_append {line : List Char} (h : '\n' ∉ line) (acc rest : List Char) :
    linesFrom acc (line ++ '\n' :: rest) = endLine (line.reverse ++ acc) :: linesFrom [] rest := by
  induction line generalizing acc with
  | nil =>
    cases acc with
    | nil => rfl
    | cons c acc => rfl
  | cons c line ih =>
    obtain ⟨hc, hline⟩ := not_or.mp (List.mem_cons.not.mp h)
    rw [List.cons_append, linesFrom, ih hline, List.reverse_cons, List.append_assoc]
    · rfl
    · exact fun heq => hc heq.symm

/-- A line without line endings in it is read back. -/
theorem lines_append {line : List Char} (hn : '\n' ∉ line) (hr : '\r' ∉ line) (rest : List Char) :
    lines (line ++ '\n' :: rest) = line :: lines rest := by
  unfold lines
  rw [linesFrom_append hn, List.append_nil]
  congr 1
  cases h : line.reverse with
  | nil => simpa [endLine] using h
  | cons c l =>
    have hmem : c ∈ line := List.mem_reverse.mp (h ▸ List.mem_cons_self)
    have hc : c ≠ '\r' := fun hc => hr (hc ▸ hmem)
    rw [endLine, ← h, List.reverse_reverse]
    intro l' heq
    exact hc (List.cons.inj heq).1

theorem trim_of_forall {text : List Char} (h : ∀ c ∈ text, isWhitespace c = false) :
    trim text = text := by
  unfold trim
  have hdrop : text.dropWhile isWhitespace = text := by
    cases text with
    | nil => rfl
    | cons c text => simp [h c List.mem_cons_self]
  rw [hdrop, List.rdropWhile_eq_self_iff]
  intro hne
  simp [h _ (List.getLast_mem hne)]

@[simp] theorem trim_space (text : List Char) : trim (' ' :: text) = trim text := rfl

/-- A text that does not begin with white space, trimmed. -/
theorem trim_eq_self_iff {first : Char} (hfirst : isWhitespace first = false) (text : List Char) :
    trim (first :: text) = first :: text ↔
      isWhitespace ((first :: text).getLast (List.cons_ne_nil _ _)) = false := by
  have hdrop : (first :: text).dropWhile isWhitespace = first :: text := by simp [hfirst]
  rw [trim, hdrop, List.rdropWhile_eq_self_iff]
  simp

/-! ## Written lines -/

/-- A word: white space is none of its characters, and it has some. -/
def IsWord (word : List Char) : Prop := word ≠ [] ∧ ∀ c ∈ word, isWhitespace c = false

/-- Words, each with a space after it. -/
def spaced (words : List (List Char)) : List Char := words.flatMap (· ++ [' '])

theorem spaced_cons (word : List Char) (words : List (List Char)) (rest : List Char) :
    spaced (word :: words) ++ rest = word ++ ' ' :: (spaced words ++ rest) := by
  simp only [spaced, List.flatMap_cons, List.append_assoc, List.cons_append, List.nil_append]

theorem splitWhitespace_of_isWord {word : List Char} (h : IsWord word) :
    splitWhitespace word = [word] := by
  unfold splitWhitespace
  rw [List.splitOnP_eq_singleton h.2]
  simp [h.1]

/-- Words that are written with spaces after them are read back. -/
theorem splitWhitespace_spaced_append {words : List (List Char)} (h : ∀ w ∈ words, IsWord w)
    (rest : List Char) :
    splitWhitespace (spaced words ++ rest) = words ++ splitWhitespace rest := by
  induction words with
  | nil => rfl
  | cons word words ih =>
    obtain ⟨hword, hwords⟩ := List.forall_mem_cons.mp h
    have hsplit : splitWhitespace (word ++ ' ' :: (spaced words ++ rest)) =
        word :: splitWhitespace (spaced words ++ rest) := by
      unfold splitWhitespace
      rw [List.splitOnP_append_cons_of_forall_mem hword.2 ' ' (by decide)]
      simp [hword.1]
    rw [spaced_cons, hsplit, ih hwords, List.cons_append]

/-- The first part of some words with spaces after them has no more words. -/
theorem length_splitWhitespace_of_prefix {words : List (List Char)} (h : ∀ w ∈ words, IsWord w)
    {text : List Char} (hpre : text <+: spaced words) :
    (splitWhitespace text).length ≤ words.length := by
  induction words generalizing text with
  | nil =>
    rw [List.prefix_nil.mp hpre]
    exact Nat.le_refl 0
  | cons word words ih =>
    obtain ⟨hword, hwords⟩ := List.forall_mem_cons.mp h
    have hcons : spaced (word :: words) = (word ++ [' ']) ++ spaced words := List.flatMap_cons
    rw [hcons] at hpre
    rcases List.prefix_or_prefix_of_prefix hpre (List.prefix_append _ _) with hshort | ⟨rest, rfl⟩
    · rcases List.prefix_concat_iff.mp hshort with rfl | hpiece
      · have hone := splitWhitespace_spaced_append (List.forall_mem_singleton.mpr hword) []
        rw [spaced_cons] at hone
        rw [show word ++ [' '] = word ++ ' ' :: (spaced [] ++ []) from rfl, hone]
        simp [splitWhitespace]
      · by_cases hnil : text = []
        · rw [hnil]
          exact Nat.zero_le _
        · have hpart : IsWord text := ⟨hnil, fun c hc => hword.2 c (hpiece.subset hc)⟩
          rw [splitWhitespace_of_isWord hpart]
          exact Nat.succ_le_succ (Nat.zero_le _)
    · rw [List.append_assoc, List.append_assoc] at hpre
      have hrest := (List.prefix_append_right_inj _).mp ((List.prefix_append_right_inj _).mp hpre)
      have hsplit := splitWhitespace_spaced_append (List.forall_mem_singleton.mpr hword) rest
      rw [spaced_cons] at hsplit
      rw [show word ++ [' '] ++ rest = word ++ ' ' :: (spaced [] ++ rest) by simp [spaced], hsplit]
      exact Nat.succ_le_succ (ih hwords hrest)

/-- Neither `\n` nor `\r` is in it. -/
def OneLine (line : List Char) : Prop := '\n' ∉ line ∧ '\r' ∉ line

theorem IsWord.not_mem {word : List Char} (h : IsWord word) {c : Char} (hc : isWhitespace c = true) :
    c ∉ word := by
  intro hmem
  exact Bool.noConfusion (hc.symm.trans (h.2 c hmem))

theorem oneLine_spaced_append {words : List (List Char)} {last : List Char}
    (h : ∀ w ∈ words, IsWord w) (hlast : IsWord last ∨ last = []) :
    OneLine (spaced words ++ last) := by
  have hnot : ∀ c, isWhitespace c = true → c ≠ ' ' → c ∉ spaced words ++ last := by
    intro c hc hspace hmem
    rcases List.mem_append.mp hmem with hmem | hmem
    · obtain ⟨word, hword, hmem⟩ := List.mem_flatMap.mp hmem
      rcases List.mem_append.mp hmem with hmem | hmem
      · exact (h word hword).not_mem hc hmem
      · exact hspace (List.mem_singleton.mp hmem)
    · rcases hlast with hlast | rfl
      · exact hlast.not_mem hc hmem
      · exact List.not_mem_nil hmem
  exact ⟨hnot _ (by decide) (by decide), hnot _ (by decide) (by decide)⟩

/-- Lines, each with its ending. -/
def unlines (lines : List (List Char)) : List Char := lines.flatMap (· ++ ['\n'])

/-- Lines that are written are read back. -/
theorem lines_unlines_append {written : List (List Char)} (h : ∀ line ∈ written, OneLine line)
    (rest : List Char) : lines (unlines written ++ rest) = written ++ lines rest := by
  induction written with
  | nil => rfl
  | cons line written ih =>
    obtain ⟨hline, hwritten⟩ := List.forall_mem_cons.mp h
    rw [unlines, List.flatMap_cons, List.append_assoc, List.append_assoc, List.singleton_append,
      lines_append hline.1 hline.2]
    exact congrArg (line :: ·) (ih hwritten)

/-- A last line may have no ending. -/
theorem lines_of_not_mem {line : List Char} (h : '\n' ∉ line) (hne : line ≠ []) :
    lines line = [line] := by
  have hfrom : ∀ (line acc : List Char), '\n' ∉ line → line.reverse ++ acc ≠ [] →
      linesFrom acc line = [(line.reverse ++ acc).reverse] := by
    intro line
    induction line with
    | nil =>
      intro acc _ hacc
      cases acc with
      | nil => exact absurd rfl hacc
      | cons c acc => rfl
    | cons c line ih =>
      intro acc hmem hacc
      obtain ⟨hc, hline⟩ := not_or.mp (List.mem_cons.not.mp hmem)
      rw [linesFrom, ih _ hline (by simp), List.reverse_cons, List.append_assoc]
      · rfl
      · exact fun heq => hc heq.symm
  rw [lines, hfrom line [] h (by simpa using hne), List.append_nil, List.reverse_reverse]

/-- The first part of a text of lines is all of it, or some of its lines and a first part of the
next, without its ending. -/
theorem prefix_unlines_cases {written : List (List Char)} {text : List Char}
    (h : text <+: unlines written) :
    text = unlines written ∨ ∃ before line after piece, written = before ++ line :: after ∧
      text = unlines before ++ piece ∧ piece <+: line := by
  induction written generalizing text with
  | nil => exact Or.inl (List.prefix_nil.mp h)
  | cons line written ih =>
    have hcons : ∀ written, unlines (line :: written) = (line ++ ['\n']) ++ unlines written :=
      fun _ => List.flatMap_cons
    rw [hcons] at h ⊢
    rcases List.prefix_or_prefix_of_prefix h (List.prefix_append _ _) with hshort | ⟨rest, rfl⟩
    · rcases List.prefix_concat_iff.mp hshort with rfl | hpiece
      · cases written with
        | nil => exact Or.inl (List.append_nil _).symm
        | cons next written =>
          refine Or.inr ⟨[line], next, written, [], rfl, ?_, List.nil_prefix⟩
          rw [hcons, List.append_nil]
          exact (List.append_nil _).symm
      · exact Or.inr ⟨[], line, written, text, rfl, rfl, hpiece⟩
    · rcases ih ((List.prefix_append_right_inj _).mp h) with rfl |
        ⟨before, next, after, piece, rfl, rfl, hpiece⟩
      · exact Or.inl rfl
      · refine Or.inr ⟨line :: before, next, after, piece, rfl, ?_, hpiece⟩
        rw [hcons, List.append_assoc _ (unlines before)]

/-- Reading line after line; `parse` may skip one. -/
def parseLines {ε α : Type} (parse : List Char → Except ε (Option α)) (text : List Char) :
    Except ε (List α) := do
  let parsed ← (lines text).mapM parse
  pure parsed.reduceOption

/-- A text of one line. -/
theorem parseLines_of_lines {ε α : Type} {parse : List Char → Except ε (Option α)}
    {text line : List Char} (h : lines text = [line]) {out : List α} :
    parseLines parse text = .ok out ↔ ∃ found, parse line = .ok found ∧ out = found.toList := by
  have hone : ∀ found : Option α, [found].reduceOption = found.toList := fun found => by
    cases found <;> rfl
  unfold parseLines
  simp only [h, List.mapM_cons, List.mapM_nil, bind_ok_iff, pure_ok_iff]
  constructor
  · rintro ⟨_, ⟨found, hfound, _, rfl, rfl⟩, rfl⟩
    exact ⟨found, hfound, hone found⟩
  · rintro ⟨found, hfound, rfl⟩
    exact ⟨_, ⟨found, hfound, _, rfl, rfl⟩, hone found⟩

/-- What was written line by line is read back, and then what follows is read. -/
theorem parseLines_unlines_append {ε α β : Type} {parse : List Char → Except ε (Option α)}
    {write : β → List Char} {value : β → α} {written : List β}
    (hline : ∀ b ∈ written, OneLine (write b))
    (hparse : ∀ b ∈ written, parse (write b) = .ok (some (value b))) {rest : List Char}
    {out : List α} :
    parseLines parse (unlines (written.map write) ++ rest) = .ok out ↔
      ∃ out', parseLines parse rest = .ok out' ∧ out = written.map value ++ out' := by
  have hlines : ∀ line ∈ written.map write, OneLine line := by
    intro line hmem
    obtain ⟨b, hb, rfl⟩ := List.mem_map.mp hmem
    exact hline b hb
  have hwritten : (written.map write).mapM parse = .ok (written.map fun b => some (value b)) := by
    rw [mapM_ok_iff, List.forall₂_map_left_iff, List.forall₂_map_right_iff, List.forall₂_same]
    exact hparse
  have hsome : (written.map fun b => some (value b)).reduceOption = written.map value := by
    rw [List.reduceOption, List.filterMap_map]
    exact congrFun List.filterMap_eq_map written
  unfold parseLines
  rw [lines_unlines_append hlines, List.mapM_append, hwritten]
  simp only [bind_ok_iff, pure_ok_iff]
  constructor
  · rintro ⟨_, ⟨_, hsame, parsed, hrest, rfl⟩, rfl⟩
    obtain rfl := Except.ok.inj hsame
    exact ⟨_, ⟨parsed, hrest, rfl⟩, by rw [List.reduceOption_append, hsome]⟩
  · rintro ⟨_, ⟨parsed, hrest, rfl⟩, rfl⟩
    exact ⟨_, ⟨_, rfl, parsed, hrest, rfl⟩, by rw [List.reduceOption_append, hsome]⟩

/-- What was read stands on some line. -/
theorem exists_of_mem_parseLines {ε α : Type} {parse : List Char → Except ε (Option α)}
    {text : List Char} {out : List α} (h : parseLines parse text = .ok out) {a : α} (ha : a ∈ out) :
    ∃ line ∈ lines text, parse line = .ok (some a) := by
  obtain ⟨parsed, hparsed, hout⟩ := bind_ok_iff.mp h
  rw [← pure_ok_iff.mp hout, List.reduceOption_mem_iff] at ha
  obtain ⟨i, hi, hget⟩ := List.getElem_of_mem ha
  have hall := mapM_ok_iff.mp hparsed
  have hlines : i < (lines text).length := hall.length_eq ▸ hi
  refine ⟨(lines text)[i], List.getElem_mem hlines, ?_⟩
  rw [← hget]
  exact List.Forall₂.get hall hlines hi

/-- A line without an ending. -/
theorem parseLines_of_not_mem {ε α : Type} {parse : List Char → Except ε (Option α)}
    {line : List Char} (h : '\n' ∉ line) (hne : line ≠ []) {out : List α} :
    parseLines parse line = .ok out ↔ ∃ a, parse line = .ok a ∧ out = a.toList := by
  unfold parseLines
  rw [lines_of_not_mem h hne]
  simp only [List.mapM_cons, List.mapM_nil, bind_ok_iff, pure_ok_iff]
  constructor
  · rintro ⟨_, ⟨a, ha, _, rfl, rfl⟩, rfl⟩
    exact ⟨a, ha, by cases a <;> rfl⟩
  · rintro ⟨a, ha, rfl⟩
    exact ⟨_, ⟨a, ha, _, rfl, rfl⟩, by cases a <;> rfl⟩

/-! ## Unfinished lines -/

/-- What follows the last line ending. -/
def lastLine (text : List Char) : List Char := text.rtakeWhile fun c => c ≠ '\n'

/-- The lines before it, with their endings. -/
def endedLines (text : List Char) : List Char := text.rdropWhile fun c => c ≠ '\n'

/-- The word at the end that more can be written to. -/
def openWord (text : List Char) : List Char := text.rtakeWhile fun c => !isWhitespace c

/-- The words before it. -/
def closedWords (text : List Char) : List (List Char) :=
  splitWhitespace (text.rdropWhile fun c => !isWhitespace c)

theorem endedLines_append_lastLine (text : List Char) : endedLines text ++ lastLine text = text :=
  List.rdropWhile_append_rtakeWhile

theorem not_mem_lastLine (text : List Char) : '\n' ∉ lastLine text := by
  intro h
  simpa using List.mem_rtakeWhile_imp h

/-- A list without its last part is empty or ends before that part. -/
theorem rdropWhile_cases {α : Type} (p : α → Bool) (l : List α) :
    l.rdropWhile p = [] ∨ ∃ front a, l.rdropWhile p = front ++ [a] ∧ p a = false := by
  by_cases h : l.rdropWhile p = []
  · exact Or.inl h
  · refine Or.inr ⟨_, _, (List.dropLast_append_getLast h).symm, ?_⟩
    simpa using List.rdropWhile_last_not p l h

theorem linesFrom_ended (acc text rest : List Char) :
    linesFrom acc (text ++ '\n' :: rest) = linesFrom acc (text ++ ['\n']) ++ linesFrom [] rest := by
  induction text generalizing acc with
  | nil => cases acc <;> rfl
  | cons c text ih =>
    by_cases hc : c = '\n'
    · subst hc
      have hcons : ∀ more, linesFrom acc ('\n' :: more) = endLine acc :: linesFrom [] more := by
        intro more
        cases acc <;> rfl
      rw [List.cons_append, List.cons_append, hcons, hcons, ih, List.cons_append]
    · rw [List.cons_append, List.cons_append, linesFrom, linesFrom, ih]
      · exact hc
      · exact hc

theorem lines_endedLines_append (text rest : List Char) :
    lines (endedLines text ++ rest) = lines (endedLines text) ++ lines rest := by
  unfold lines endedLines
  rcases rdropWhile_cases (fun c => decide (c ≠ '\n')) text with h | ⟨front, c, h, hc⟩
  · rw [h]
    rfl
  · obtain rfl : c = '\n' := by simpa using hc
    rw [h, List.append_assoc]
    exact linesFrom_ended [] front rest

/-- Only a `\r` at the end of a line belongs to its ending. -/
theorem lines_concat {line : List Char} (hn : '\n' ∉ line) (hr : line.getLast? ≠ some '\r') :
    lines (line ++ ['\n']) = [line] := by
  unfold lines
  rw [linesFrom_append hn, List.append_nil]
  congr 1
  rw [List.getLast?_eq_head?_reverse] at hr
  cases h : line.reverse with
  | nil => simpa [endLine] using h
  | cons c l =>
    rw [h, List.head?_cons] at hr
    rw [endLine, ← h, List.reverse_reverse]
    intro l' heq
    exact hr (congrArg some (List.cons.inj heq).1)

theorem splitWhitespace_append_ended {text : List Char} {c : Char} (hc : isWhitespace c = true)
    (rest : List Char) :
    splitWhitespace (text ++ c :: rest) = splitWhitespace text ++ splitWhitespace rest := by
  unfold splitWhitespace
  rw [List.splitOnP_append_cons _ _ hc, List.filter_append]

theorem closed_append_openWord (text : List Char) :
    text.rdropWhile (fun c => !isWhitespace c) ++ openWord text = text :=
  List.rdropWhile_append_rtakeWhile

theorem splitWhitespace_closed_append (text rest : List Char) :
    splitWhitespace (text.rdropWhile (fun c => !isWhitespace c) ++ rest) =
      closedWords text ++ splitWhitespace rest := by
  unfold closedWords
  rcases rdropWhile_cases (fun c => !isWhitespace c) text with h | ⟨front, c, h, hc⟩
  · rw [h]
    rfl
  · have hspace : isWhitespace c = true := by simpa using hc
    have hnil : splitWhitespace [] = [] := rfl
    rw [h, List.append_assoc, List.singleton_append, splitWhitespace_append_ended hspace,
      splitWhitespace_append_ended hspace, hnil, List.append_nil]

theorem not_isWhitespace_of_mem_openWord {text : List Char} {c : Char} (h : c ∈ openWord text) :
    isWhitespace c = false := by
  simpa using List.mem_rtakeWhile_imp h

/-- A word that is written to a text goes on with its open word. -/
theorem splitWhitespace_append_word (text : List Char) {word : List Char} (hword : IsWord word)
    (rest : List Char) :
    splitWhitespace (text ++ (word ++ ' ' :: rest)) =
      closedWords text ++ (openWord text ++ word) :: splitWhitespace rest := by
  have hopen : IsWord (openWord text ++ word) := by
    refine ⟨List.append_ne_nil_of_right_ne_nil _ hword.1, fun c hc => ?_⟩
    rcases List.mem_append.mp hc with hc | hc
    · exact not_isWhitespace_of_mem_openWord hc
    · exact hword.2 c hc
  have hjoined : splitWhitespace (openWord text ++ word ++ ' ' :: rest) =
      (openWord text ++ word) :: splitWhitespace rest := by
    rw [splitWhitespace_append_ended (by decide), splitWhitespace_of_isWord hopen,
      List.singleton_append]
  rw [← hjoined, ← splitWhitespace_closed_append, List.append_assoc (openWord text),
    ← List.append_assoc _ (openWord text), closed_append_openWord]

theorem splitWhitespace_eq_closedWords (text : List Char) :
    splitWhitespace text =
      closedWords text ++ if openWord text = [] then [] else [openWord text] := by
  have hlast : splitWhitespace (openWord text) =
      if openWord text = [] then [] else [openWord text] := by
    by_cases hnil : openWord text = []
    · rw [if_pos hnil, hnil]
      rfl
    · rw [if_neg hnil]
      exact splitWhitespace_of_isWord ⟨hnil, fun c hc => not_isWhitespace_of_mem_openWord hc⟩
  rw [← hlast, ← splitWhitespace_closed_append, closed_append_openWord]

/-- Lines that have their endings are read apart from what follows them. -/
theorem parseLines_endedLines_append {ε α : Type} {parse : List Char → Except ε (Option α)}
    {text rest : List Char} {out : List α} :
    parseLines parse (endedLines text ++ rest) = .ok out ↔
      ∃ before after, parseLines parse (endedLines text) = .ok before ∧
        parseLines parse rest = .ok after ∧ out = before ++ after := by
  unfold parseLines
  rw [lines_endedLines_append, List.mapM_append]
  simp only [bind_ok_iff, pure_ok_iff]
  constructor
  · rintro ⟨_, ⟨first, hfirst, second, hsecond, rfl⟩, rfl⟩
    exact ⟨_, _, ⟨first, hfirst, rfl⟩, ⟨second, hsecond, rfl⟩, List.reduceOption_append _ _⟩
  · rintro ⟨_, _, ⟨first, hfirst, rfl⟩, ⟨second, hsecond, rfl⟩, rfl⟩
    exact ⟨_, ⟨first, hfirst, second, hsecond, rfl⟩, List.reduceOption_append _ _⟩

/-! ## Files -/

/-- The text of a file: `none` if it is not UTF-8. -/
def readText (bytes : List UInt8) : Option (List Char) :=
  (String.fromUTF8? ⟨bytes.toArray⟩).map String.toList

/-- The bytes of a text. -/
def textBytes (text : List Char) : List UInt8 := utf8 (String.ofList text)

theorem readText_textBytes (text : List Char) : readText (textBytes text) = some text := by
  unfold readText textBytes
  rw [fromUTF8?_eq_some_iff.mpr rfl, Option.map_some, String.toList_ofList]

theorem readText_eq_some_iff {bytes : List UInt8} {text : List Char} :
    readText bytes = some text ↔ textBytes text = bytes := by
  constructor
  · intro h
    obtain ⟨value, hvalue, rfl⟩ := Option.map_eq_some_iff.mp h
    rw [textBytes, String.ofList_toList]
    exact fromUTF8?_eq_some_iff.mp hvalue
  · rintro rfl
    exact readText_textBytes text

theorem textBytes_eq (text : List Char) : textBytes text = text.flatMap String.utf8EncodeChar := by
  unfold textBytes utf8
  change (List.utf8Encode text).data.toList = _
  unfold List.utf8Encode
  rw [List.data_toByteArray]

theorem textBytes_append (first second : List Char) :
    textBytes (first ++ second) = textBytes first ++ textBytes second := by
  simp only [textBytes_eq, List.flatMap_append]

/-- No byte `0xFF` stands in a text. -/
theorem readText_eq_none {bytes : List UInt8} (h : 0xFF ∈ bytes) : readText bytes = none := by
  refine Option.eq_none_iff_forall_ne_some.mpr fun text htext => ?_
  obtain rfl := readText_eq_some_iff.mp htext
  rw [textBytes_eq] at h
  obtain ⟨c, -, hc⟩ := List.mem_flatMap.mp h
  have hlt : ∀ byte ∈ String.utf8EncodeChar c, byte.toNat < 248 := by
    unfold String.utf8EncodeChar
    dsimp only
    split_ifs <;>
      simp only [List.mem_cons, List.not_mem_nil, or_false, forall_eq_or_imp, forall_eq,
        UInt8.toNat_ofNat'] <;> omega
  exact absurd (hlt _ hc) (by decide)

/-- Every character is one byte. -/
def Ascii (text : List Char) : Prop := ∀ c ∈ text, c.toNat < 128

theorem textBytes_of_ascii {text : List Char} (h : Ascii text) :
    textBytes text = text.map fun c => UInt8.ofNat c.toNat := by
  rw [textBytes_eq]
  induction text with
  | nil => rfl
  | cons c text ih =>
    obtain ⟨hc, hrest⟩ := List.forall_mem_cons.mp h
    have hone : String.utf8EncodeChar c = [UInt8.ofNat c.toNat] := if_pos (Nat.le_of_lt_succ hc)
    rw [List.flatMap_cons, ih hrest, hone, List.map_cons, List.singleton_append]

/-- The first bytes of an ASCII text are the bytes of its first characters. -/
theorem exists_of_prefix_textBytes {text : List Char} (h : Ascii text) {bytes : List UInt8}
    (hpre : bytes <+: textBytes text) : ∃ t, t <+: text ∧ bytes = textBytes t := by
  rw [textBytes_of_ascii h] at hpre
  have hascii : Ascii (text.take bytes.length) := fun c hc => h c (List.mem_of_mem_take hc)
  refine ⟨text.take bytes.length, List.take_prefix .., ?_⟩
  rw [textBytes_of_ascii hascii, List.map_take]
  exact List.prefix_iff_eq_take.mp hpre

/-! ## Hexadecimal -/

/-- The lower-case digit of a number below 16. -/
def hexDigit (n : Nat) : Char := if n < 10 then Char.ofNat (0x30 + n) else Char.ofNat (0x57 + n)

/-- `hex::encode`. -/
def hexEncode (bytes : List UInt8) : List Char :=
  bytes.flatMap fun byte => [hexDigit (byte.toNat / 16), hexDigit (byte.toNat % 16)]

/-- The value of a digit, of either case. -/
def hexValue (c : Char) : Option Nat :=
  let n := c.toNat
  if 0x30 ≤ n ∧ n ≤ 0x39 then some (n - 0x30)
  else if 0x61 ≤ n ∧ n ≤ 0x66 then some (n - 0x57)
  else if 0x41 ≤ n ∧ n ≤ 0x46 then some (n - 0x37)
  else none

/-- `hex::decode`: `none` on an odd number of digits or a character that is none. -/
def hexDecode : List Char → Option (List UInt8)
  | [] => some []
  | [_] => none
  | high :: low :: rest => do
    let h ← hexValue high
    let l ← hexValue low
    let bytes ← hexDecode rest
    pure (UInt8.ofNat (16 * h + l) :: bytes)

theorem hexValue_hexDigit : ∀ n < 16, hexValue (hexDigit n) = some n := by decide

theorem mem_hexEncode {bytes : List UInt8} {c : Char} (h : c ∈ hexEncode bytes) :
    ∃ n < 16, c = hexDigit n := by
  obtain ⟨byte, -, hc⟩ := List.mem_flatMap.mp h
  have hlt := byte.toNat_lt
  rcases List.mem_cons.mp hc with rfl | hc
  · exact ⟨byte.toNat / 16, by omega, rfl⟩
  · exact ⟨byte.toNat % 16, by omega, List.mem_singleton.mp hc⟩

/-- No digit is white space; in particular none ends a line. -/
theorem not_isWhitespace_of_mem_hexEncode {bytes : List UInt8} {c : Char}
    (h : c ∈ hexEncode bytes) : isWhitespace c = false := by
  have hdigits : ∀ n < 16, isWhitespace (hexDigit n) = false := by decide
  obtain ⟨n, hn, rfl⟩ := mem_hexEncode h
  exact hdigits n hn

theorem lines_hexEncode (bytes : List UInt8) (rest : List Char) :
    lines (hexEncode bytes ++ '\n' :: rest) = hexEncode bytes :: lines rest := by
  refine lines_append (fun h => ?_) (fun h => ?_) rest
  · exact absurd (not_isWhitespace_of_mem_hexEncode h) (by decide)
  · exact absurd (not_isWhitespace_of_mem_hexEncode h) (by decide)

theorem trim_hexEncode (bytes : List UInt8) : trim (hexEncode bytes) = hexEncode bytes :=
  trim_of_forall fun _ => not_isWhitespace_of_mem_hexEncode

theorem hexDecode_hexEncode (bytes : List UInt8) : hexDecode (hexEncode bytes) = some bytes := by
  induction bytes with
  | nil => rfl
  | cons byte bytes ih =>
    have hhigh : byte.toNat / 16 < 16 := by
      have := byte.toNat_lt
      omega
    have hlow : byte.toNat % 16 < 16 := Nat.mod_lt _ (by decide)
    have hbyte : UInt8.ofNat (16 * (byte.toNat / 16) + byte.toNat % 16) = byte := by
      rw [Nat.div_add_mod, UInt8.ofNat_toNat]
    simp only [hexEncode] at ih
    simp only [hexEncode, List.flatMap_cons, List.cons_append, List.nil_append, hexDecode, ih,
      hexValue_hexDigit _ hhigh, hexValue_hexDigit _ hlow, Option.pure_def, Option.bind_eq_bind,
      Option.bind_some, hbyte]

theorem length_of_hexDecode : ∀ {text : List Char} {bytes : List UInt8},
    hexDecode text = some bytes → text.length = 2 * bytes.length
  | [], bytes, h => by
    obtain rfl := Option.some.inj h
    rfl
  | [_], _, h => absurd h nofun
  | high :: low :: rest, bytes, h => by
    simp only [hexDecode, Option.pure_def, Option.bind_eq_bind, Option.bind_eq_some_iff,
      Option.some.injEq] at h
    obtain ⟨_, -, _, -, bytes', hrest, rfl⟩ := h
    simp only [List.length_cons, length_of_hexDecode hrest]
    omega

theorem length_hexEncode (bytes : List UInt8) : (hexEncode bytes).length = 2 * bytes.length :=
  length_of_hexDecode (hexDecode_hexEncode bytes)

theorem isWord_of_mem_hexEncode {bytes : List UInt8} {text : List Char} (hne : text ≠ [])
    (h : text <+: hexEncode bytes) : IsWord text :=
  ⟨hne, fun _ hc => not_isWhitespace_of_mem_hexEncode (h.subset hc)⟩

theorem isWord_hexEncode {bytes : List UInt8} (h : bytes ≠ []) : IsWord (hexEncode bytes) := by
  refine isWord_of_mem_hexEncode (fun hnil => h ?_) List.prefix_rfl
  have hlen := length_hexEncode bytes
  rw [hnil] at hlen
  exact List.length_eq_zero_iff.mp (by simpa using hlen.symm)

theorem isWord_hexEncode_bytes {n : Nat} (hn : n ≠ 0) (bytes : Bytes n) :
    IsWord (hexEncode bytes.toList) := by
  refine isWord_hexEncode fun hnil => hn ?_
  rw [← bytes.toList_length, hnil, List.length_nil]

theorem ascii_hexEncode (bytes : List UInt8) : Ascii (hexEncode bytes) := by
  have hdigits : ∀ n < 16, (hexDigit n).toNat < 128 := by decide
  intro c hc
  obtain ⟨n, hn, rfl⟩ := mem_hexEncode hc
  exact hdigits n hn

/-! ## Beginnings and endings -/

/-- `str::starts_with`. -/
def startsWith (text start : String) : Bool := start.toList.isPrefixOf text.toList

/-- `str::strip_prefix`. -/
def stripPrefix (text start : String) : Option String :=
  (text.toList.dropPrefix? start.toList).map String.ofList

/-- `str::strip_suffix`. -/
def stripSuffix (text ending : String) : Option String :=
  (text.toList.dropSuffix? ending.toList).map String.ofList

theorem startsWith_iff {text start : String} :
    startsWith text start = true ↔ start.toList <+: text.toList := List.isPrefixOf_iff_prefix

theorem stripPrefix_eq_some_iff {text start rest : String} :
    stripPrefix text start = some rest ↔ text.toList = start.toList ++ rest.toList := by
  simp only [stripPrefix, Option.map_eq_some_iff, List.dropPrefix?_eq_some_iff, beq_iff_eq]
  constructor
  · rintro ⟨chars, ⟨start', htext, rfl⟩, rfl⟩
    rw [htext, String.toList_ofList]
  · intro h
    exact ⟨rest.toList, ⟨_, h, rfl⟩, String.ofList_toList⟩

/-! ## Decimal -/

/-- `Display` for `u64`. -/
def showU64 (n : UInt64) : List Char := Nat.toDigits 10 n.toNat

/-- `str::parse` of an unsigned number below `bound`: digits, after a `+` if there is one. -/
def parseBelow (bound : Nat) (text : List Char) : Option Nat :=
  let digits := match text with
    | '+' :: rest => rest
    | text => text
  if digits.isEmpty || !digits.all Char.isDigit then none
  else
    let n := Nat.ofDigitChars 10 digits 0
    if n < bound then some n else none

/-- `str::parse::<u64>`. -/
def parseU64 (text : List Char) : Option UInt64 := (parseBelow (2 ^ 64) text).map UInt64.ofNat

/-- `str::parse::<u32>`. -/
def parseU32 (text : List Char) : Option UInt32 := (parseBelow (2 ^ 32) text).map UInt32.ofNat

theorem isDigit_of_mem_showU64 {n : UInt64} {c : Char} (h : c ∈ showU64 n) : c.isDigit = true :=
  Nat.isDigit_of_mem_toDigits (by decide) (by decide) h

theorem toNat_of_isDigit {c : Char} (h : c.isDigit = true) : 48 ≤ c.toNat ∧ c.toNat ≤ 57 := by
  simp only [Char.isDigit, Bool.and_eq_true, decide_eq_true_eq, UInt32.le_iff_toNat_le] at h
  exact h

theorem isWord_showU64 (n : UInt64) : IsWord (showU64 n) := by
  refine ⟨Nat.toDigits_ne_nil, fun c hc => ?_⟩
  have hrange := toNat_of_isDigit (isDigit_of_mem_showU64 hc)
  simp only [isWhitespace, Bool.or_eq_false_iff, Bool.and_eq_false_iff, decide_eq_false_iff_not]
  omega

theorem ascii_showU64 (n : UInt64) : Ascii (showU64 n) := by
  intro c hc
  have hrange := toNat_of_isDigit (isDigit_of_mem_showU64 hc)
  omega

/-- The digits of a number are parsed as it. -/
theorem parseBelow_toDigits {bound n : Nat} (h : n < bound) :
    parseBelow bound (Nat.toDigits 10 n) = some n := by
  have hdigit : ∀ c ∈ Nat.toDigits 10 n, c.isDigit = true := fun c hc =>
    Nat.isDigit_of_mem_toDigits (by decide) (by decide) hc
  have hne : Nat.toDigits 10 n ≠ [] := Nat.toDigits_ne_nil
  have hvalue : Nat.ofDigitChars 10 (Nat.toDigits 10 n) 0 = n := Nat.ofDigitChars_ten_toDigits
  have hsign : (match Nat.toDigits 10 n with
      | '+' :: rest => rest
      | text => text) = Nat.toDigits 10 n := by
    split
    case h_1 rest heq =>
      exact absurd (hdigit '+' (heq ▸ List.mem_cons_self)) (by decide)
    case h_2 => rfl
  unfold parseBelow
  simp only [hsign, hvalue]
  rw [if_neg (by simpa [hne] using hdigit), if_pos h]

theorem parseU64_showU64 (n : UInt64) : parseU64 (showU64 n) = some n := by
  rw [parseU64, showU64, parseBelow_toDigits n.toNat_lt, Option.map_some, UInt64.ofNat_toNat]

theorem parseU32_toDigits {n : Nat} (h : n < 2 ^ 32) :
    parseU32 (Nat.toDigits 10 n) = some (UInt32.ofNat n) := by
  rw [parseU32, parseBelow_toDigits h, Option.map_some]

end Keepstone.Lib
