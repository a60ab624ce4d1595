import Keepstone.Cli.Fetch
import Keepstone.Log.Anchor

/-!
# The file of anchors (`crates/cli/src/main.rs:330-333, 553-601`)

One receipt a line: the tree size, the root, the time, the previous link and the link, in decimal
or in hexadecimal. Every run writes the whole file again, from what it read. Reading is lenient: a
file that cannot be read, or is not UTF-8, has no receipts, and a line of fewer than five words is
passed over; but a line of five or more that does not parse is an error.

Results:
* `readReceipts_receiptsText`: the receipts that were saved are loaded;
* **`prefix_receiptsText_iff`**: when the file that is written next starts with the one that was
  read.
-/

namespace Keepstone.Cli

open Keepstone.Lib Keepstone.Crypto Keepstone.Store Keepstone.Log

/-- `hex32`. -/
def hex32 (text : List Char) : Except CliError (Bytes 32) :=
  match hexDecode (trim text) with
  | none => .error (.context "decoding hex" .conversion)
  | some bytes =>
    match tryBytes 32 bytes with
    | none => .error (.message "expected 32 bytes")
    | some out => .ok out

/-- One turn of the loop of `load_receipts`. -/
def parseReceipt (line : List Char) : Except CliError (Option AnchorReceipt) :=
  match splitWhitespace line with
  | size :: root :: stamp :: previous :: link :: _ => do
    let treeSize ← okOr (parseU64 size) (.context "anchor tree size" .conversion)
    let root ← hex32 root
    let anchoredAt ← okOr (parseU64 stamp) (.context "anchor timestamp" .conversion)
    let previous ← hex32 previous
    let link ← hex32 link
    pure (some ⟨"local-hashchain", treeSize, root, anchoredAt, previous, link⟩)
  | _ => pure none

/-- The loop of `load_receipts`. -/
def readReceipts (text : List Char) : Except CliError (List AnchorReceipt) :=
  parseLines parseReceipt text

/-- `load_receipts`. -/
def loadReceipts (dir : Dir) : Except CliError (List AnchorReceipt) :=
  match readToString dir .anchors with
  | some text => readReceipts text
  | none => .ok []

/-- The words of a line before the link. -/
def receiptHead (treeSize : UInt64) (root : Hash) (anchoredAt : UInt64) (previous : Hash) :
    List (List Char) :=
  [showU64 treeSize, hexEncode root.toList, showU64 anchoredAt, hexEncode previous.toList]

/-- A line of the file, without its ending. -/
def receiptLine (r : AnchorReceipt) : List Char :=
  spaced (receiptHead r.treeSize r.root r.anchoredAt r.previous) ++ hexEncode r.link.toList

/-- The text that `save_receipts` writes. -/
def receiptsText (receipts : List AnchorReceipt) : List Char := unlines (receipts.map receiptLine)

/-- `save_receipts`. -/
def saveReceipts (receipts : List AnchorReceipt) : Program CliError Disk Unit := do
  let _ ← createDirAll.ok
  (write .anchors (textBytes (receiptsText receipts))).mapErr fun e =>
    .context "writing anchors" (.io e)

/-- The receipts are of the backend that `load_receipts` names. -/
def Local (receipts : List AnchorReceipt) : Prop :=
  ∀ r ∈ receipts, r.anchor = HashChainAnchor.name

/-! ## Lines -/

theorem isWord_hash (hash : Hash) : IsWord (hexEncode hash.toList) :=
  isWord_hexEncode_bytes (by decide) hash

theorem isWord_receiptHead (treeSize : UInt64) (root : Hash) (anchoredAt : UInt64)
    (previous : Hash) : ∀ w ∈ receiptHead treeSize root anchoredAt previous, IsWord w := by
  simp only [receiptHead, List.forall_mem_cons, List.not_mem_nil, false_implies, implies_true,
    and_true]
  exact ⟨isWord_showU64 treeSize, isWord_hash root, isWord_showU64 anchoredAt, isWord_hash previous⟩

theorem oneLine_receiptLine (r : AnchorReceipt) : OneLine (receiptLine r) :=
  oneLine_spaced_append (isWord_receiptHead _ _ _ _) (Or.inl (isWord_hash r.link))

theorem ascii_receiptsText (receipts : List AnchorReceipt) : Ascii (receiptsText receipts) := by
  intro c hc
  obtain ⟨_, hline, hc⟩ := List.mem_flatMap.mp hc
  obtain ⟨r, -, rfl⟩ := List.mem_map.mp hline
  rcases List.mem_append.mp hc with hc | hc
  · rcases List.mem_append.mp hc with hc | hc
    · obtain ⟨word, hword, hc⟩ := List.mem_flatMap.mp hc
      rcases List.mem_append.mp hc with hc | hc
      · simp only [receiptHead, List.mem_cons, List.not_mem_nil, or_false] at hword
        rcases hword with rfl | rfl | rfl | rfl
        · exact ascii_showU64 _ c hc
        · exact ascii_hexEncode _ c hc
        · exact ascii_showU64 _ c hc
        · exact ascii_hexEncode _ c hc
      · rw [List.mem_singleton.mp hc]
        decide
    · exact ascii_hexEncode _ c hc
  · rw [List.mem_singleton.mp hc]
    decide

theorem hex32_hexEncode (bytes : Bytes 32) : hex32 (hexEncode bytes.toList) = .ok bytes := by
  unfold hex32
  simp only [trim_hexEncode, hexDecode_hexEncode, tryBytes_eq_some_iff.mpr rfl]

/-- A part of the digits of a link is no link. -/
theorem eq_of_hex32_ok {hash out : Hash} {piece : List Char}
    (hpre : piece <+: hexEncode hash.toList) (h : hex32 piece = .ok out) :
    piece = hexEncode hash.toList := by
  have htrim : trim piece = piece :=
    trim_of_forall fun c hc => not_isWhitespace_of_mem_hexEncode (hpre.subset hc)
  unfold hex32 at h
  rw [htrim] at h
  cases hbytes : hexDecode piece with
  | none => simp [hbytes] at h
  | some bytes =>
    cases htry : tryBytes 32 bytes with
    | none => simp [hbytes, htry] at h
    | some out' =>
      refine hpre.eq_of_length ?_
      rw [length_of_hexDecode hbytes, length_hexEncode, tryBytes_eq_some_iff.mp htry,
        out'.toList_length, hash.toList_length]

/-- A line whose words before the fifth are those of `r` parses as far as its fifth word does. -/
theorem parseReceipt_of_head {r : AnchorReceipt} {line : List Char} {link : List Char}
    (hwords : splitWhitespace line =
      receiptHead r.treeSize r.root r.anchoredAt r.previous ++ [link]) :
    parseReceipt line = (hex32 link).bind fun link =>
      .ok (some { r with anchor := HashChainAnchor.name, link }) := by
  unfold parseReceipt
  simp only [hwords, receiptHead, List.cons_append, List.nil_append, parseU64_showU64, okOr,
    hex32_hexEncode]
  rfl

theorem parseReceipt_receiptLine {r : AnchorReceipt} (hname : r.anchor = HashChainAnchor.name) :
    parseReceipt (receiptLine r) = .ok (some r) := by
  have hwords : splitWhitespace (receiptLine r) =
      receiptHead r.treeSize r.root r.anchoredAt r.previous ++ [hexEncode r.link.toList] := by
    rw [receiptLine, splitWhitespace_spaced_append (isWord_receiptHead _ _ _ _),
      splitWhitespace_of_isWord (isWord_hash r.link)]
  rw [parseReceipt_of_head hwords, hex32_hexEncode, ← hname]
  rfl

/-- What is read carries the name that `load_receipts` gives it. -/
theorem parseReceipt_local {line : List Char} {r : AnchorReceipt}
    (h : parseReceipt line = .ok (some r)) : r.anchor = HashChainAnchor.name := by
  unfold parseReceipt at h
  split at h
  case h_1 =>
    simp only [bind_ok_iff, pure_ok_iff] at h
    obtain ⟨_, -, _, -, _, -, _, -, _, -, h⟩ := h
    rw [← Option.some.inj h]
    rfl
  case h_2 => exact absurd (pure_ok_iff.mp h) nofun

theorem readReceipts_local {text : List Char} {receipts : List AnchorReceipt}
    (h : readReceipts text = .ok receipts) : Local receipts := by
  intro r hr
  obtain ⟨line, -, hline⟩ := exists_of_mem_parseLines h hr
  exact parseReceipt_local hline

/-! ## Files -/

theorem receiptsText_append (first second : List AnchorReceipt) :
    receiptsText (first ++ second) = receiptsText first ++ receiptsText second := by
  unfold receiptsText unlines
  rw [List.map_append, List.flatMap_append]

theorem receiptsText_singleton (r : AnchorReceipt) : receiptsText [r] = receiptLine r ++ ['\n'] :=
  List.append_nil _

/-- Receipts that were saved are loaded, and what follows them is read after them. -/
theorem readReceipts_append {receipts out : List AnchorReceipt} (h : Local receipts)
    {rest : List Char} :
    readReceipts (receiptsText receipts ++ rest) = .ok out ↔
      ∃ out', readReceipts rest = .ok out' ∧ out = receipts ++ out' := by
  have hread := @parseLines_unlines_append _ _ _ parseReceipt receiptLine id receipts
    (fun r _ => oneLine_receiptLine r) (fun r hr => parseReceipt_receiptLine (h r hr)) rest out
  rwa [List.map_id] at hread

/-- **The receipts that were saved are loaded.** -/
theorem readReceipts_receiptsText {receipts : List AnchorReceipt} (h : Local receipts) :
    readReceipts (receiptsText receipts) = .ok receipts := by
  have hread := (@readReceipts_append receipts receipts h []).mpr ⟨[], rfl, (List.append_nil _).symm⟩
  rwa [List.append_nil] at hread

/-- A line that is cut before its link is passed over. -/
theorem readReceipts_torn {treeSize anchoredAt : UInt64} {root previous : Hash} {torn : List Char}
    (h : torn <+: spaced (receiptHead treeSize root anchoredAt previous)) :
    readReceipts torn = .ok [] := by
  by_cases hne : torn = []
  · rw [hne]
    rfl
  have hwords := length_splitWhitespace_of_prefix (isWord_receiptHead _ _ _ _) h
  have hline : OneLine (spaced (receiptHead treeSize root anchoredAt previous) ++ []) :=
    oneLine_spaced_append (isWord_receiptHead _ _ _ _) (Or.inr rfl)
  rw [List.append_nil] at hline
  refine (parseLines_of_not_mem (fun hmem => hline.1 (h.subset hmem)) hne).mpr ⟨none, ?_, rfl⟩
  unfold parseReceipt
  split
  case h_1 hsplit =>
    rw [hsplit] at hwords
    simp only [List.length_cons, receiptHead, List.length_nil] at hwords
    omega
  case h_2 => rfl

/-- A line whose ending is cut is read. -/
theorem readReceipts_receiptLine {r : AnchorReceipt} (hname : r.anchor = HashChainAnchor.name) :
    readReceipts (receiptLine r) = .ok [r] := by
  have hne : receiptLine r ≠ [] := List.append_ne_nil_of_right_ne_nil _ (isWord_hash r.link).1
  refine (parseLines_of_not_mem (oneLine_receiptLine r).1 hne).mpr ⟨some r, ?_, rfl⟩
  exact parseReceipt_receiptLine hname

/-- **What the first part of a line is read as**: nothing if it ends before the link, the receipt if
it is whole, and otherwise it is an error. -/
theorem readReceipts_piece {r : AnchorReceipt} (hname : r.anchor = HashChainAnchor.name)
    {piece : List Char} (hpre : piece <+: receiptLine r) {out : List AnchorReceipt}
    (h : readReceipts piece = .ok out) :
    (piece <+: spaced (receiptHead r.treeSize r.root r.anchoredAt r.previous) ∧ out = []) ∨
      (piece = receiptLine r ∧ out = [r]) := by
  rcases List.prefix_or_prefix_of_prefix hpre (List.prefix_append _ _) with hhead | ⟨link, rfl⟩
  · exact Or.inl ⟨hhead, Except.ok.inj (h.symm.trans (readReceipts_torn hhead))⟩
  by_cases hnil : link = []
  · rw [hnil, List.append_nil] at h ⊢
    exact Or.inl ⟨List.prefix_rfl, Except.ok.inj (h.symm.trans (readReceipts_torn List.prefix_rfl))⟩
  have hlink : link <+: hexEncode r.link.toList := (List.prefix_append_right_inj _).mp hpre
  have hwords : splitWhitespace
      (spaced (receiptHead r.treeSize r.root r.anchoredAt r.previous) ++ link) =
        receiptHead r.treeSize r.root r.anchoredAt r.previous ++ [link] := by
    rw [splitWhitespace_spaced_append (isWord_receiptHead _ _ _ _),
      splitWhitespace_of_isWord (isWord_of_mem_hexEncode hnil hlink)]
  have hne : spaced (receiptHead r.treeSize r.root r.anchoredAt r.previous) ++ link ≠ [] :=
    List.append_ne_nil_of_right_ne_nil _ hnil
  have hend : '\n' ∉ spaced (receiptHead r.treeSize r.root r.anchoredAt r.previous) ++ link :=
    fun hmem => (oneLine_receiptLine r).1 (hpre.subset hmem)
  obtain ⟨parsed, hparse, rfl⟩ := (parseLines_of_not_mem hend hne).mp h
  rw [parseReceipt_of_head hwords] at hparse
  obtain ⟨out, hout, -⟩ := bind_ok_iff.mp hparse
  have hwhole : link = hexEncode r.link.toList := eq_of_hex32_ok hlink hout
  subst hwhole
  have hread := readReceipts_receiptLine hname
  exact Or.inr ⟨rfl, Except.ok.inj (h.symm.trans hread)⟩

/-- A file whose last ending is cut is read as if it were whole. -/
theorem readReceipts_of_concat {receipts : List AnchorReceipt} (hlocal : Local receipts)
    {text : List Char} (h : text ++ ['\n'] = receiptsText receipts) :
    readReceipts text = .ok receipts := by
  rcases List.eq_nil_or_concat' receipts with rfl | ⟨init, r, rfl⟩
  · exact absurd h (List.append_ne_nil_of_right_ne_nil _ (List.cons_ne_nil _ _))
  rw [receiptsText_append, receiptsText_singleton, ← List.append_assoc] at h
  rw [List.append_cancel_right h]
  obtain ⟨hinit, hr⟩ := List.forall_mem_append.mp hlocal
  exact (readReceipts_append hinit).mpr
    ⟨[r], readReceipts_receiptLine (hr r List.mem_cons_self), rfl⟩

/-- **When a file that goes on with one more receipt starts with the file that was read**: when that
was written by `save_receipts`, up to the last ending, or followed by a part of the line that is
written next which ends before its link. -/
theorem prefix_receiptsText_iff {text : List Char} {receipts : List AnchorReceipt}
    {new : AnchorReceipt} (hname : new.anchor = HashChainAnchor.name)
    (hread : readReceipts text = .ok receipts) :
    text <+: receiptsText (receipts ++ [new]) ↔
      text ++ ['\n'] = receiptsText receipts ∨
        ∃ torn, torn <+: spaced (receiptHead new.treeSize new.root new.anchoredAt new.previous) ∧
          text = receiptsText receipts ++ torn := by
  have hlocal := readReceipts_local hread
  have hall : Local (receipts ++ [new]) :=
    List.forall_mem_append.mpr ⟨hlocal, List.forall_mem_singleton.mpr hname⟩
  constructor
  · intro hpre
    rcases prefix_unlines_cases hpre with rfl | ⟨lines, line, after, piece, hlines, rfl, hpiece⟩
    · -- All of it would be read as one receipt more.
      have hmore := Except.ok.inj (hread.symm.trans (readReceipts_receiptsText hall))
      exact absurd (congrArg List.length hmore) (by simp)
    obtain ⟨before, rest, hsplit, rfl, hrest⟩ := List.map_eq_append_iff.mp hlines
    obtain ⟨r, after', rfl, rfl, -⟩ := List.map_eq_cons_iff.mp hrest
    obtain ⟨hbefore, hlater⟩ := List.forall_mem_append.mp (hsplit ▸ hall)
    obtain ⟨out, hout, hreceipts⟩ := (readReceipts_append hbefore).mp hread
    rcases readReceipts_piece (hlater r List.mem_cons_self) hpiece hout with
      ⟨hhead, rfl⟩ | ⟨rfl, rfl⟩
    · -- The piece counts for nothing, so it is of the line that comes last.
      rw [List.append_nil] at hreceipts
      subst hreceipts
      obtain ⟨rfl, -⟩ := List.cons.inj (List.append_cancel_left hsplit)
      exact Or.inr ⟨piece, hhead, rfl⟩
    · left
      rw [hreceipts, receiptsText_append, receiptsText_singleton, ← List.append_assoc]
      rfl
  · rw [receiptsText_append, receiptsText_singleton]
    rintro (h | ⟨torn, htorn, rfl⟩)
    · rw [← h, List.append_assoc]
      exact List.prefix_append _ _
    · refine (List.prefix_append_right_inj _).mpr (htorn.trans ?_)
      rw [receiptLine, List.append_assoc]
      exact List.prefix_append _ _

end Keepstone.Cli
