import Keepstone.Daemon.Requests
import Keepstone.Lib.Transcript

/-!
# A connection (`crates/daemon/src/main.rs:52-97, 166-192, 226-250, 284-304`)

For each connection the daemon reads a request, routes it and writes the response; what cannot be
read gets a 400, and a panic or a request that does not arrive gets nothing. In a release build
(`Cargo.toml:67-70`) a panic ends the daemon: whoever comes later finds nobody. The token is looked
for in the header lines, which are read from bytes that need not be UTF-8 and are trimmed.

Results:
* `written_read_back`: a response is read back from what is written;
* **`reply_read_back`**: so is every reply of the daemon, its body to the last byte, and no more;
* **`connections_without_token`**: connections whose bytes do not have the token may be left out of
  any run that none of them ends;
* `transcript_of_panics`: in a release build one that panics ends it;
* **`token_works_iff`**: which tokens let any request through.
-/

namespace Keepstone.Daemon

open Keepstone.Lib Keepstone.Crypto Keepstone.Core Keepstone.Store

variable (lib : Libraries) (outside : Outside) (token : Option String)

/-! ## The connection -/

/-- `"\r\n"`. -/
def crlf : List Char := ['\r', '\n']

/-- The reason that goes with a status. -/
def reasonOf (status : UInt16) : String :=
  if status = 200 then "OK"
  else if status = 201 then "Created"
  else if status = 400 then "Bad Request"
  else if status = 401 then "Unauthorized"
  else if status = 404 then "Not Found"
  else if status = 500 then "Internal Server Error"
  else "OK"

/-- Lines, each ended by `"\r\n"`. -/
def headText (lines : List (List Char)) : List Char := lines.flatMap (· ++ crlf)

namespace Response

/-- The line of the status. -/
def statusLine (response : Response) : List Char :=
  "HTTP/1.1 ".toList ++ (showU64 response.status.toUInt64 ++
    ' ' :: (reasonOf response.status).toList)

/-- The header lines: a name and a value. -/
def fields (response : Response) : List (String × List Char) :=
  [("Content-Type", response.contentType.toList),
    ("Content-Length", showU64 (UInt64.ofNat response.body.length)),
    ("Connection", "close".toList),
    ("Access-Control-Allow-Origin", "*".toList),
    ("Access-Control-Allow-Headers", "content-type, authorization".toList),
    ("Access-Control-Allow-Methods", "GET, POST, OPTIONS".toList)]

/-- A header line. -/
def fieldLine (field : String × List Char) : List Char :=
  field.1.toList ++ ':' :: ' ' :: field.2

/-- `head`. -/
def head (response : Response) : List Char :=
  headText (response.statusLine :: response.fields.map fieldLine) ++ crlf

/-- `respond`: what is written. -/
def written (response : Response) : List UInt8 := textBytes response.head ++ response.body

end Response

/-- What the daemon writes to a connection; `none` if it ends or waits without writing. -/
def connection (arrivals : List Arrival) : Program Diverges Disk (Option (List UInt8)) :=
  match readRequest arrivals with
  | .ok request => do
    let response ← route lib outside request token
    pure (some response.written)
  | .error (.error _) =>
    pure (some (Response.json lib 400 (.obj [("error", .str "bad request")])).written)
  | .error .panics => pure none
  | .error .waits => pure none

/-- A connection: what the daemon takes from the system for it, and what arrives. -/
abbrev Connection := Outside × List Arrival

/-- What a panic ends: its task, or with `panic = "abort"`, as in `[profile.release]`, the whole
process. -/
inductive PanicStrategy where
  | unwind
  | abort
  deriving DecidableEq

/-- The process of the daemon. -/
structure Process where
  /-- Whether it still runs. -/
  runs : Bool
  /-- The disk. -/
  disk : Disk

/-- Whether a connection ends the process. -/
def ends (strategy : PanicStrategy) (c : Connection) : Bool :=
  decide (strategy = .abort) &&
    match readRequest c.2 with
    | .error .panics => true
    | _ => false

/-- A connection, by what it leaves of the process; there is no answer, not even the end of the
stream, from a process that does not run. -/
def serve (strategy : PanicStrategy) (c : Connection) (process : Process) :
    Option (Except Diverges (Option (List UInt8))) × Process :=
  if process.runs then
    let (answer, disk) := (connection lib c.1 token c.2).exec process.disk
    (some answer, ⟨!ends strategy c, disk⟩)
  else (none, process)

/-! ## Lines -/

variable {lib outside token}

/-- A text that does not begin with `"\r\n"` is cut later. -/
theorem splitCrlf_cons {c : Char} {text : List Char} (h : ¬ crlf <+: c :: text) :
    splitCrlf (c :: text) = (splitCrlf text).modifyHead (c :: ·) := by
  rw [splitCrlf]
  intro rest hc htext
  exact h ⟨rest, by rw [hc, htext]; rfl⟩

theorem splitCrlf_crlf (text : List Char) : splitCrlf (crlf ++ text) = [] :: splitCrlf text := rfl

theorem splitCrlf_ne_nil (text : List Char) : splitCrlf text ≠ [] := by
  induction text using splitCrlf.induct with
  | case1 => exact List.cons_ne_nil _ _
  | case2 rest ih => exact List.cons_ne_nil _ _
  | case3 c rest hne ih =>
    rw [splitCrlf.eq_3 _ _ hne]
    obtain ⟨line, lines, hlines⟩ := List.exists_cons_of_ne_nil ih
    rw [hlines]
    exact List.cons_ne_nil _ _

/-- **A text is cut wherever it has `"\r\n"`.** -/
theorem splitCrlf_append (text rest : List Char) :
    splitCrlf (text ++ crlf ++ rest) = splitCrlf text ++ splitCrlf rest := by
  induction text using splitCrlf.induct with
  | case1 => rfl
  | case2 text ih => exact congrArg ([] :: ·) ih
  | case3 c text hne ih =>
    have hfirst : ¬ crlf <+: c :: (text ++ crlf ++ rest) := by
      intro hcrlf
      obtain ⟨rfl, hnext⟩ := List.cons_prefix_cons.mp hcrlf
      cases text with
      | nil => exact absurd (List.cons_prefix_cons.mp hnext).1 (by decide)
      | cons d text =>
        obtain ⟨rfl, -⟩ := List.cons_prefix_cons.mp hnext
        exact hne text rfl rfl
    obtain ⟨line, lines, hlines⟩ := List.exists_cons_of_ne_nil (splitCrlf_ne_nil text)
    rw [List.cons_append, List.cons_append, splitCrlf_cons hfirst, splitCrlf.eq_3 _ _ hne, ih,
      hlines]
    rfl

theorem splitCrlf_of_not_infix {line : List Char} (h : ¬ crlf <:+: line) :
    splitCrlf line = [line] := by
  induction line with
  | nil => rfl
  | cons c line ih =>
    have hline : ¬ crlf <:+: line := fun hin => h (hin.trans (List.suffix_cons c line).isInfix)
    rw [splitCrlf_cons fun hfirst => h hfirst.isInfix, ih hline]
    rfl

theorem splitCrlf_headText {lines : List (List Char)} (h : ∀ line ∈ lines, ¬ crlf <:+: line)
    (rest : List Char) : splitCrlf (headText lines ++ rest) = lines ++ splitCrlf rest := by
  induction lines with
  | nil => rfl
  | cons line lines ih =>
    obtain ⟨hline, hlines⟩ := List.forall_mem_cons.mp h
    rw [headText, List.flatMap_cons, List.append_assoc, splitCrlf_append,
      splitCrlf_of_not_infix hline]
    exact congrArg (line :: ·) (ih hlines)

/-- What is between the cuts is in the text, and is not cut itself. -/
theorem mem_splitCrlf {text line : List Char} (h : line ∈ splitCrlf text) :
    line <:+: text ∧ ¬ crlf <:+: line := by
  suffices hall : ∀ first lines, splitCrlf text = first :: lines →
      first <+: text ∧ (∀ l ∈ lines, l <:+: text) ∧ ∀ l ∈ first :: lines, ¬ crlf <:+: l by
    obtain ⟨first, lines, hlines⟩ := List.exists_cons_of_ne_nil (splitCrlf_ne_nil text)
    obtain ⟨hfirst, hrest, hnone⟩ := hall _ _ hlines
    rw [hlines] at h
    refine ⟨?_, hnone line h⟩
    rcases List.mem_cons.mp h with rfl | hmem
    · exact hfirst.isInfix
    · exact hrest line hmem
  clear h
  induction text using splitCrlf.induct with
  | case1 =>
    intro first lines hlines
    obtain ⟨rfl, rfl⟩ := List.cons.inj (hlines : [[]] = first :: lines)
    simp [crlf]
  | case2 rest ih =>
    intro first lines hlines
    obtain ⟨rfl, rfl⟩ := List.cons.inj (hlines : [] :: splitCrlf rest = first :: lines)
    obtain ⟨second, lines, hsecond⟩ := List.exists_cons_of_ne_nil (splitCrlf_ne_nil rest)
    obtain ⟨hfirst, hrest, hnone⟩ := ih _ _ hsecond
    have hsuffix : rest <:+ '\r' :: '\n' :: rest := ⟨crlf, rfl⟩
    rw [hsecond]
    refine ⟨List.nil_prefix, ?_, ?_⟩
    · intro l hl
      rcases List.mem_cons.mp hl with rfl | hl
      · exact hfirst.isInfix.trans hsuffix.isInfix
      · exact (hrest l hl).trans hsuffix.isInfix
    · exact List.forall_mem_cons.mpr ⟨by simp [crlf], hnone⟩
  | case3 c rest hne ih =>
    intro first lines hlines
    obtain ⟨second, others, hsecond⟩ := List.exists_cons_of_ne_nil (splitCrlf_ne_nil rest)
    obtain ⟨hfirst, hrest, hnone⟩ := ih _ _ hsecond
    rw [splitCrlf.eq_3 _ _ hne, hsecond] at hlines
    obtain ⟨rfl, rfl⟩ := List.cons.inj hlines
    obtain ⟨hsecondNone, hothers⟩ := List.forall_mem_cons.mp hnone
    refine ⟨List.cons_prefix_cons.mpr ⟨rfl, hfirst⟩,
      fun l hl => (hrest l hl).trans (List.suffix_cons c rest).isInfix,
      List.forall_mem_cons.mpr ⟨fun hcrlf => ?_, hothers⟩⟩
    rcases List.infix_cons_iff.mp hcrlf with hstart | hlater
    · -- the first line goes on with what the text goes on with
      obtain ⟨rfl, hnext⟩ := List.cons_prefix_cons.mp hstart
      obtain ⟨after, hafter⟩ := hnext.trans hfirst
      exact hne after rfl hafter.symm
    · exact hsecondNone hlater

/-! ## The end of the headers -/

theorem headersEnd_eq : headersEnd = textBytes (crlf ++ crlf) := by decide

theorem eq_nil_of_splitCrlf {text : List Char} (h : splitCrlf text = [[]]) : text = [] := by
  induction text using splitCrlf.induct with
  | case1 => rfl
  | case2 rest ih =>
    have hrest := (List.cons.inj (h : [] :: splitCrlf rest = [[]])).2
    exact absurd hrest (splitCrlf_ne_nil rest)
  | case3 c rest hne ih =>
    obtain ⟨line, lines, hlines⟩ := List.exists_cons_of_ne_nil (splitCrlf_ne_nil rest)
    rw [splitCrlf.eq_3 _ _ hne, hlines] at h
    exact absurd (List.cons.inj h).1 (List.cons_ne_nil _ _)

/-- Lines that are not empty have no empty line before the one after them. -/
theorem eq_nil_of_blank {lines : List (List Char)}
    (h : ∀ line ∈ lines, line ≠ [] ∧ ¬ crlf <:+: line) {before after : List Char}
    (heq : headText lines ++ crlf = before ++ crlf ++ (crlf ++ after)) : after = [] := by
  have hcut := congrArg splitCrlf heq
  have hend : splitCrlf crlf = [[], []] := rfl
  rw [splitCrlf_headText fun line hline => (h line hline).2, hend, splitCrlf_append,
    splitCrlf_crlf] at hcut
  refine eq_nil_of_splitCrlf ?_
  rcases List.append_eq_append_iff.mp hcut with ⟨more, -, hmore⟩ | ⟨more, hlines, hmore⟩
  · cases more with
    | nil => exact (List.cons.inj hmore).2.symm
    | cons line more =>
      have hlast := (List.cons.inj hmore).2
      cases more with
      | nil => exact absurd (List.cons.inj hlast).2.symm (splitCrlf_ne_nil after)
      | cons other more =>
        have hlength := congrArg List.length hlast
        simp at hlength
  · cases more with
    | nil => exact (List.cons.inj hmore).2
    | cons line more =>
      -- the empty line would be one of the lines
      obtain rfl := (List.cons.inj hmore).1
      exact absurd rfl (h [] (hlines ▸ List.mem_append_right _ List.mem_cons_self)).1

/-- **The headers end at the first empty line**, whatever follows. -/
theorem find_headersEnd {lines : List (List Char)} (hne : lines ≠ [])
    (h : ∀ line ∈ lines, line ≠ [] ∧ ¬ crlf <:+: line) (rest : List UInt8) :
    ∃ position, find (textBytes (headText lines ++ crlf) ++ rest) headersEnd = some position ∧
      position + 4 = (textBytes (headText lines ++ crlf)).length := by
  obtain ⟨start, last, hlines⟩ := List.eq_nil_or_concat lines |>.resolve_left hne
  have htext : headText lines ++ crlf = (headText start ++ last) ++ (crlf ++ crlf) := by
    simp [hlines, headText]
  have hfour : (textBytes (crlf ++ crlf)).length = 4 := rfl
  have hlength : (textBytes (headText start ++ last)).length + 4 =
      (textBytes (headText lines ++ crlf)).length := by
    rw [htext, textBytes_append (headText start ++ last), List.length_append, hfour]
  refine ⟨(textBytes (headText start ++ last)).length, ?_, hlength⟩
  refine ((find_eq_some_iff_of_isPrefix headersEnd_ne_nil (List.prefix_append _ rest)).mp ?_).1
  refine (find_eq_some_iff headersEnd_ne_nil).mpr ⟨?_, fun j hj hoccurs => ?_⟩
  · rw [htext, textBytes_append (headText start ++ last), List.drop_left, headersEnd_eq]
  · rw [headersEnd_eq] at hoccurs
    have htwice : crlf ++ crlf ≠ [] := by simp [crlf]
    obtain ⟨before, after, hsplit, rfl, after', rfl⟩ := exists_of_textBytes_at htwice hoccurs
    have hblank : after' = [] := @eq_nil_of_blank lines h before after' (by
      rw [hsplit]
      simp only [List.append_assoc])
    rw [hsplit, hblank, List.append_nil, textBytes_append before, List.length_append,
      hfour] at hlength
    omega

/-! ## Reading a response back -/

/-- What a client has of the bytes of a response, if it finds the end of the headers and the length
of the body as the daemon does for a request; and the bytes that are left. -/
def readReply (bytes : List UInt8) : Option (Response × List UInt8) := do
  let position ← find bytes headersEnd
  let text := lossy (bytes.take (position + 4))
  let word ← (requestLine text)[1]?
  let status ← parseU64 word.toList
  let contentType ← (headerLines text).find? fun line => line.1 == "Content-Type"
  let length := (contentLength (headerLines text)).toNat
  let rest := bytes.drop (position + 4)
  pure (⟨status.toUInt16, trimmed contentType.2, rest.take length⟩, rest.drop length)

theorem not_crlf_of_not_mem {line : List Char} (h : '\n' ∉ line) : ¬ crlf <:+: line :=
  fun hin => h (hin.subset (by simp [crlf]))

theorem splitOnce_of_not_mem {separator : Char} {name : String} (h : separator ∉ name.toList)
    (value : List Char) :
    splitOnce separator (String.ofList (name.toList ++ separator :: value)) =
      some (name, String.ofList value) := by
  have hspan : (name.toList ++ separator :: value).span (· ≠ separator) =
      (name.toList, separator :: value) := by
    rw [List.span_eq_takeWhile_dropWhile]
    have hname : ∀ c ∈ name.toList, decide (c ≠ separator) = true := by
      intro c hc
      simp only [decide_eq_true_eq]
      rintro rfl
      exact h hc
    rw [List.takeWhile_append_of_pos hname, List.dropWhile_append_of_pos hname]
    simp
  unfold splitOnce
  rw [String.toList_ofList, hspan]
  simp only [String.ofList_toList]

/-- A header line is read as it was written. -/
theorem splitOnce_fieldLine {field : String × List Char} (h : ':' ∉ field.1.toList) :
    splitOnce ':' (String.ofList (Response.fieldLine field)) =
      some (field.1, String.ofList (' ' :: field.2)) := splitOnce_of_not_mem h _

theorem headerLines_headText {first : List Char} {fields : List (String × List Char)}
    (hfirst : ¬ crlf <:+: first) (hfields : ∀ field ∈ fields,
      ':' ∉ field.1.toList ∧ ¬ crlf <:+: Response.fieldLine field) :
    headerLines (headText (first :: fields.map Response.fieldLine) ++ crlf) =
      fields.map fun field => (field.1, String.ofList (' ' :: field.2)) := by
  have hlines : ∀ line ∈ first :: fields.map Response.fieldLine, ¬ crlf <:+: line := by
    refine List.forall_mem_cons.mpr ⟨hfirst, fun line hline => ?_⟩
    obtain ⟨field, hfield, rfl⟩ := List.mem_map.mp hline
    exact (hfields field hfield).2
  have hend : [[], []].filterMap (fun line => splitOnce ':' (String.ofList line)) = [] := by decide
  rw [headerLines, splitCrlf_headText hlines, List.cons_append, List.tail_cons,
    List.filterMap_append, show splitCrlf crlf = [[], []] from rfl, hend, List.append_nil,
    List.filterMap_map]
  rw [← List.filterMap_eq_map]
  refine List.filterMap_congr fun field hfield => ?_
  rw [Function.comp_apply, Function.comp_apply, splitOnce_fieldLine (hfields field hfield).1]

theorem requestLine_headText {first : List Char} {rest : List (List Char)}
    (h : ∀ line ∈ first :: rest, ¬ crlf <:+: line) :
    requestLine (headText (first :: rest) ++ crlf) =
      (splitWhitespace first).map String.ofList := by
  rw [requestLine, splitCrlf_headText h]
  rfl

/-- The content type is one of the two that the daemon has. -/
def Response.Typed (response : Response) : Prop :=
  response.contentType = "application/json" ∨ response.contentType = "text/html; charset=utf-8"

theorem not_mem_showU64 (n : UInt64) : '\n' ∉ showU64 n :=
  fun hmem => absurd (isDigit_of_mem_showU64 hmem) (by decide)

theorem not_mem_statusLine (response : Response) : '\n' ∉ response.statusLine := by
  have hdigits := not_mem_showU64 response.status.toUInt64
  have hreason : ∀ status, '\n' ∉ (reasonOf status).toList := by
    intro status
    unfold reasonOf
    split_ifs <;> decide
  have hstart : '\n' ∉ "HTTP/1.1 ".toList := by decide
  unfold Response.statusLine
  generalize showU64 response.status.toUInt64 = digits at *
  simp only [List.mem_append, List.mem_cons, not_or]
  exact ⟨hstart, hdigits, by decide, hreason _⟩

theorem words_statusLine (response : Response) :
    (splitWhitespace response.statusLine)[1]? = some (showU64 response.status.toUInt64) := by
  have hword : IsWord "HTTP/1.1".toList := by simp [IsWord, isWhitespace]
  have hdigits := isWord_showU64 response.status.toUInt64
  unfold Response.statusLine
  generalize showU64 response.status.toUInt64 = digits at *
  have hline : "HTTP/1.1 ".toList ++ (digits ++ ' ' :: (reasonOf response.status).toList) =
      spaced ["HTTP/1.1".toList, digits] ++ (reasonOf response.status).toList := by
    have hstart : "HTTP/1.1 ".toList = "HTTP/1.1".toList ++ [' '] := by decide
    simp only [spaced, hstart, List.flatMap_cons, List.flatMap_nil,
      List.append_nil, List.append_assoc, List.cons_append, List.nil_append]
  rw [hline, splitWhitespace_spaced_append]
  · rfl
  · exact List.forall_mem_cons.mpr ⟨hword, List.forall_mem_singleton.mpr hdigits⟩

/-- The header lines are lines, and their names have no colon. -/
theorem Response.Typed.fields {response : Response} (h : response.Typed) :
    ∀ field ∈ response.fields, ':' ∉ field.1.toList ∧ ¬ crlf <:+: Response.fieldLine field := by
  have hdigits := not_mem_showU64 (UInt64.ofNat response.body.length)
  have htype : '\n' ∉ response.contentType.toList := by
    rcases h with h | h <;> rw [h] <;> decide
  intro field hfield
  refine ⟨?_, not_crlf_of_not_mem ?_⟩
  · have hnames : field.1 ∈ ["Content-Type", "Content-Length", "Connection",
        "Access-Control-Allow-Origin", "Access-Control-Allow-Headers",
        "Access-Control-Allow-Methods"] := List.mem_map_of_mem (f := Prod.fst) hfield
    have hall : ∀ name ∈ ["Content-Type", "Content-Length", "Connection",
        "Access-Control-Allow-Origin", "Access-Control-Allow-Headers",
        "Access-Control-Allow-Methods"], ':' ∉ name.toList := by decide
    exact hall _ hnames
  · simp only [Response.fields, List.mem_cons, List.not_mem_nil, or_false] at hfield
    rcases hfield with rfl | rfl | rfl | rfl | rfl | rfl
    · simp [Response.fieldLine, htype]
    · simp [Response.fieldLine, hdigits]
    all_goals
      unfold Response.fieldLine
      decide

theorem contentLength_fields (response : Response) :
    contentLength (response.fields.map fun field => (field.1, String.ofList (' ' :: field.2))) =
      UInt64.ofNat response.body.length := by
  have htype : eqIgnoreAsciiCase "Content-Type" "content-length" = false := by decide +kernel
  have hlength : eqIgnoreAsciiCase "Content-Length" "content-length" = true := by decide +kernel
  have hdigits := trim_of_forall (isWord_showU64 (UInt64.ofNat response.body.length)).2
  simp only [contentLength, Response.fields, List.map_cons, List.find?_cons, htype, hlength,
    Option.bind_some, String.toList_ofList, trim_space, hdigits, parseU64_showU64, Option.getD_some]

/-- **A response is read back** from what is written for it, and nothing is left. -/
theorem written_read_back {response : Response} (h : response.Typed)
    (hsize : response.body.length < 2 ^ 64) :
    readReply response.written = some (response, []) := by
  have hfirst := not_crlf_of_not_mem (not_mem_statusLine response)
  have hlines : ∀ line ∈ response.statusLine :: response.fields.map Response.fieldLine,
      line ≠ [] ∧ ¬ crlf <:+: line := by
    refine List.forall_mem_cons.mpr ⟨⟨List.cons_ne_nil _ _, hfirst⟩, fun line hline => ?_⟩
    obtain ⟨field, hfield, rfl⟩ := List.mem_map.mp hline
    exact ⟨List.append_ne_nil_of_right_ne_nil _ (List.cons_ne_nil _ _), (h.fields field hfield).2⟩
  obtain ⟨position, hfind, hend⟩ := find_headersEnd (List.cons_ne_nil _ _) hlines response.body
  have hwritten : response.written = textBytes response.head ++ response.body := rfl
  have hfind' : find response.written headersEnd = some position := hfind
  have htake : response.written.take (position + 4) = textBytes response.head := by
    rw [hwritten, hend]
    exact List.take_left
  have hdrop : response.written.drop (position + 4) = response.body := by
    rw [hwritten, hend]
    exact List.drop_left
  have hwords := requestLine_headText fun line hline => (hlines line hline).2
  have hfields := headerLines_headText hfirst h.fields
  have hhead : headerLines response.head =
      response.fields.map fun field => (field.1, String.ofList (' ' :: field.2)) := hfields
  have hstatus : (requestLine response.head)[1]? =
      some (String.ofList (showU64 response.status.toUInt64)) := by
    rw [Response.head, hwords, List.getElem?_map, words_statusLine, Option.map_some]
  have hlength : contentLength (headerLines response.head) = UInt64.ofNat response.body.length := by
    rw [hhead]
    exact contentLength_fields response
  have htype : (headerLines response.head).find? (fun line => line.1 == "Content-Type") =
      some ("Content-Type", String.ofList (' ' :: response.contentType.toList)) := by
    rw [hhead]
    exact List.find?_cons_of_pos rfl
  have htrimmed : trimmed (String.ofList (' ' :: response.contentType.toList)) =
      response.contentType := by
    rw [trimmed, String.toList_ofList, trim_space]
    rcases h with h | h <;> rw [h] <;> decide +kernel
  have hbody : (UInt64.ofNat response.body.length).toNat = response.body.length :=
    UInt64.toNat_ofNat_of_lt' hsize
  simp only [readReply, hfind', htake, hdrop, lossy_textBytes, hstatus, hlength, htype, htrimmed,
    hbody, Option.bind_eq_bind, Option.bind_some, String.toList_ofList, parseU64_showU64,
    UInt16.toUInt16_toUInt64, List.take_length, List.drop_length]
  rfl

/-! ## What the daemon replies -/

theorem typed_json (lib : Libraries) (status : UInt16) (value : Json) :
    (Response.json lib status value).Typed := Or.inl rfl

theorem typed_apiStatus {result : Handler} {ok : UInt16} {disk disk' : Disk} {response : Response}
    (h : (apiStatus lib result ok).exec disk = (.ok response, disk')) : response.Typed := by
  rw [apiStatus, Program.exec_step] at h
  cases hexec : result.exec disk with
  | mk r after =>
    rw [hexec] at h
    cases r with
    | ok value =>
      obtain rfl := Except.ok.inj (Prod.mk.inj h).1
      exact typed_json ..
    | error e =>
      cases e with
      | message text =>
        obtain rfl := Except.ok.inj (Prod.mk.inj h).1
        exact typed_json ..
      | diverges => cases (Prod.mk.inj h).1

theorem Reaches.typed {request : Request} {program : Program Diverges Disk Response}
    (h : Reaches lib outside request program) {disk disk' : Disk} {response : Response}
    (hexec : program.exec disk = (.ok response, disk')) : response.Typed := by
  cases h <;> exact typed_apiStatus hexec

theorem typed_publicResponse (request : Request) : (publicResponse lib request).Typed := by
  unfold publicResponse
  split_ifs
  · exact Or.inr rfl
  · exact typed_json ..

/-- Every response of the daemon has one of its content types. -/
theorem typed_route {request : Request} {disk disk' : Disk} {response : Response}
    (h : (route lib outside request token).exec disk = (.ok response, disk')) :
    response.Typed := by
  unfold route at h
  split_ifs at h
  · obtain ⟨rfl, -⟩ := Program.exec_pure_eq_ok h
    exact typed_json ..
  · obtain ⟨rfl, -⟩ := Program.exec_pure_eq_ok h
    exact typed_json ..
  · rcases table_cases lib outside request with hreach | hpublic
    · exact hreach.typed h
    · rw [hpublic] at h
      obtain ⟨rfl, -⟩ := Program.exec_pure_eq_ok h
      exact typed_publicResponse request

/-- **Every reply is read back**: it is the response to the request that came, or a 400 if none did,
to the last byte of its body, and nothing comes after it. -/
theorem reply_read_back (lib : Libraries) (token : Option String) {outside : Outside}
    {arrivals : List Arrival} {disk disk' : Disk} {bytes : List UInt8}
    (h : (connection lib outside token arrivals).exec disk = (.ok (some bytes), disk'))
    (hsize : bytes.length < 2 ^ 64) :
    ∃ response, readReply bytes = some (response, []) ∧
      (∀ request, readRequest arrivals = .ok request →
        (route lib outside request token).exec disk = (.ok response, disk')) ∧
      ∀ stop, readRequest arrivals = .error stop → response.status = 400 ∧ disk' = disk := by
  have hbody (response : Response) (hwritten : response.written = bytes) :
      response.body.length < 2 ^ 64 := by
    rw [← hwritten, Response.written, List.length_append] at hsize
    omega
  unfold connection at h
  cases hread : readRequest arrivals with
  | ok request =>
    rw [hread] at h
    obtain ⟨response, after, hroute, hrest⟩ := Program.exec_bind_eq_ok h
    obtain ⟨hwritten, rfl⟩ := Program.exec_pure_eq_ok hrest
    obtain hwritten := Option.some.inj hwritten
    refine ⟨response, ?_, fun other hother => ?_, nofun⟩
    · rw [← hwritten]
      exact written_read_back (typed_route hroute) (hbody response hwritten)
    · obtain rfl := Except.ok.inj hother
      exact hroute
  | error stop =>
    rw [hread] at h
    cases stop with
    | error e =>
      obtain ⟨hwritten, rfl⟩ := Program.exec_pure_eq_ok h
      obtain hwritten := Option.some.inj hwritten
      refine ⟨Response.json lib 400 (.obj [("error", .str "bad request")]), ?_, nofun,
        fun _ _ => ⟨rfl, rfl⟩⟩
      rw [← hwritten]
      exact written_read_back (typed_json ..) (hbody _ hwritten)
    | panics => exact absurd (Program.exec_pure_eq_ok h).1 nofun
    | waits => exact absurd (Program.exec_pure_eq_ok h).1 nofun

/-- What is written for a post that is read to the last byte of its body, and routed. -/
theorem known_post_answered :
    ∃ bytes response, (connection knownLibraries knownOutside none
        (deliver [⟨knownPost, by decide⟩] [streamEnd])).exec ⟨KnownAuthor.dir, []⟩ =
          (.ok (some bytes), ⟨KnownAuthor.dir, []⟩) ∧
      readReply bytes = some (response, []) ∧ response.status = 404 ∧
      response.body = utf8 "\x7b\"error\":\"not found\"\x7d" := by
  have hread : readRequest (deliver [⟨knownPost, by decide⟩] [streamEnd]) =
      .ok ⟨"POST", "/", [], [("content-length", "2")], utf8 "hi"⟩ := by decide +kernel
  have hexec : (connection knownLibraries knownOutside none
      (deliver [⟨knownPost, by decide⟩] [streamEnd])).exec ⟨KnownAuthor.dir, []⟩ =
        (.ok (some (Response.error knownLibraries 404 "not found").written),
          ⟨KnownAuthor.dir, []⟩) := by
    rw [connection, hread]
    rfl
  obtain ⟨response, hback, hroute, -⟩ :=
    reply_read_back knownLibraries none hexec (by decide +kernel)
  obtain rfl := Except.ok.inj (congrArg Prod.fst (hroute _ hread))
  exact ⟨_, _, hexec, hback, rfl, by decide +kernel⟩

/-! ## The token in the bytes -/

theorem trim_isInfix (text : List Char) : trim text <:+: text :=
  (List.rdropWhile_prefix isWhitespace _).isInfix.trans (List.dropWhile_suffix _).isInfix

theorem suffix_of_splitOnce {separator : Char} {text name value : String}
    (h : splitOnce separator text = some (name, value)) : value.toList <:+ text.toList := by
  unfold splitOnce at h
  rw [List.span_eq_takeWhile_dropWhile] at h
  have hsplit := List.takeWhile_append_dropWhile (p := (· ≠ separator)) (l := text.toList)
  cases hrest : text.toList.dropWhile (· ≠ separator) with
  | nil =>
    simp only [hrest] at h
    exact absurd h nofun
  | cons c rest =>
    simp only [hrest] at h
    obtain ⟨-, rfl⟩ := Prod.mk.inj (Option.some.inj h)
    rw [String.toList_ofList, ← hsplit, hrest]
    exact ⟨_ ++ [c], List.append_cons .. |>.symm⟩

/-- Where the value of a header is from: it is a trimmed part of a line. -/
theorem exists_of_mem_headers {bytes : List UInt8} {head : Head}
    (hhead : parseHead bytes = some head) {name value : String}
    (hmem : (name, value) ∈ head.headers) :
    ∃ line ∈ splitCrlf (lossy bytes), ∃ text, text <:+ line ∧ value.toList = trim text := by
  obtain ⟨target, -, hpure⟩ := Option.bind_eq_some_iff.mp hhead
  obtain rfl := Option.some.inj hpure
  obtain ⟨⟨first, second⟩, hfield, heq⟩ := List.mem_map.mp hmem
  obtain ⟨-, rfl⟩ := Prod.mk.inj heq
  obtain ⟨line, hline, hsplit⟩ := List.mem_filterMap.mp hfield
  have hsuffix := suffix_of_splitOnce hsplit
  rw [String.toList_ofList] at hsuffix
  exact ⟨line, List.mem_of_mem_tail hline, _, hsuffix, String.toList_ofList⟩

section Serving

variable {strategy : PanicStrategy} {process : Process}

theorem serve_of_ended (c : Connection) (h : process.runs = false) :
    serve lib token strategy c process = (none, process) := by
  simp [serve, h]

theorem serve_of_runs (c : Connection) (h : process.runs = true) :
    serve lib token strategy c process =
      (some ((connection lib c.1 token c.2).exec process.disk).1,
        ⟨!ends strategy c, ((connection lib c.1 token c.2).exec process.disk).2⟩) := by
  simp [serve, h]

/-- A process that has ended answers nobody and leaves its disk. -/
theorem transcript_of_ended (connections : List Connection) (h : process.runs = false) :
    (∀ p ∈ (transcript (serve lib token strategy) connections process).1, p.2 = none) ∧
      (transcript (serve lib token strategy) connections process).2 = process := by
  refine transcript_invariant (I := fun s => s = process) (P := fun _ written => written = none)
    (fun c _ s hs => ?_) rfl
  rw [hs, serve_of_ended c h]
  exact ⟨rfl, rfl⟩

/-- **In a release build a connection that panics ends the daemon**: nothing is written to it, the
disk stays, and nobody is answered after it. -/
theorem transcript_of_panics {c : Connection} (hread : readRequest c.2 = .error .panics)
    (connections : List Connection) (hruns : process.runs = true) :
    ∃ later, (∀ p ∈ later, p.2 = none) ∧
      transcript (serve lib token .abort) (c :: connections) process =
        ((c, some (.ok none)) :: later, ⟨false, process.disk⟩) := by
  have hends : ends .abort c = true := by simp [ends, hread]
  have hserve : serve lib token .abort c process = (some (.ok none), ⟨false, process.disk⟩) := by
    rw [serve_of_runs c hruns, hends, connection, hread]
    rfl
  obtain ⟨hlater, hlast⟩ :=
    @transcript_of_ended lib token .abort ⟨false, process.disk⟩ connections rfl
  refine ⟨_, hlater, ?_⟩
  rw [transcript_cons, hserve, hlast]

end Serving

/-- A header line can end with the token: it is one line, and does not end with white space. -/
structure Presentable (token : String) : Prop where
  oneLine : ¬ crlf <:+: token.toList
  ended : ∃ c, token.toList.getLast? = some c ∧ isWhitespace c = false

theorem trim_trim (text : List Char) : trim (trim text) = trim text := by
  have hdrop : (trim text).dropWhile isWhitespace = trim text := by
    rw [List.dropWhile_eq_self_iff]
    intro hpos
    have hpre : trim text <+: text.dropWhile isWhitespace := List.rdropWhile_prefix isWhitespace _
    have hbound : 0 < (text.dropWhile isWhitespace).length := hpos.trans_le hpre.length_le
    rw [hpre.getElem hpos]
    exact List.dropWhile_get_zero_not isWhitespace text hbound
  change ((trim text).dropWhile isWhitespace).rdropWhile isWhitespace = trim text
  rw [hdrop]
  exact List.rdropWhile_idempotent _ _

theorem trim_bearer_iff {token : String} :
    trim ("Bearer " ++ token).toList = ("Bearer " ++ token).toList ↔
      ∃ c, token.toList.getLast? = some c ∧ isWhitespace c = false := by
  have hstart : ("Bearer " ++ token).toList = 'B' :: ("earer ".toList ++ token.toList) := by
    rw [String.toList_append]
    rfl
  rw [hstart, trim_eq_self_iff (by decide)]
  rcases List.eq_nil_or_concat' token.toList with hnil | ⟨init, c, hlast⟩
  · simp [hnil, isWhitespace]
  · simp [hlast]

/-- The request for the public keys with a token. -/
def bearerLines (token : String) : List (List Char) :=
  ["GET /api/id HTTP/1.1".toList,
    Response.fieldLine ("authorization", ("Bearer " ++ token).toList)]

theorem crlf_infix_append {first rest : List Char} (h : '\r' ∉ first) :
    crlf <:+: first ++ rest ↔ crlf <:+: rest := by
  induction first with
  | nil => rfl
  | cons c first ih =>
    obtain ⟨hc, hfirst⟩ := not_or.mp (fun hor => h (List.mem_cons.mpr hor))
    rw [List.cons_append, List.infix_cons_iff, ih hfirst, or_iff_right]
    intro hstart
    exact hc (List.cons_prefix_cons.mp hstart).1

theorem crlf_infix_bearer_iff {token : String} :
    crlf <:+: Response.fieldLine ("authorization", ("Bearer " ++ token).toList) ↔
      crlf <:+: token.toList := by
  have hline : Response.fieldLine ("authorization", ("Bearer " ++ token).toList) =
      "authorization: Bearer ".toList ++ token.toList := by
    simp [Response.fieldLine]
  rw [hline, crlf_infix_append (by decide)]

/-- What is accepted was the end of a header line. -/
theorem presentable_of_authorized {token : String} {arrivals : List Arrival} {request : Request}
    (hread : readRequest arrivals = .ok request) (hauth : authorized request token = true) :
    Presentable token := by
  obtain ⟨received, hreceive, hrequest⟩ := bind_ok_iff.mp hread
  obtain rfl := Except.ok.inj hrequest
  obtain ⟨position, -, -, -, hhead, -⟩ := receive_ok hreceive
  obtain ⟨line, hline, text, hsuffix, hvalue⟩ := exists_of_mem_headers hhead
    (authorized_iff.mp hauth)
  constructor
  · intro hin
    have hsuffix' : token.toList <:+ ("Bearer " ++ token).toList := by
      rw [String.toList_append]
      exact List.suffix_append _ _
    refine (mem_splitCrlf hline).2 (hin.trans (hsuffix'.isInfix.trans ?_))
    rw [hvalue]
    exact (trim_isInfix text).trans hsuffix.isInfix
  · rw [← trim_bearer_iff, hvalue]
    exact trim_trim text

/-- The bytes of the request for the public keys with a token. -/
def bearerBytes (token : String) : List UInt8 := textBytes (headText (bearerLines token) ++ crlf)

theorem length_bearerBytes (token : String) :
    (bearerBytes token).length = 48 + (utf8 token).length := by
  have hline : headText (bearerLines token) ++ crlf =
      "GET /api/id HTTP/1.1\r\nauthorization: Bearer ".toList ++
        (token.toList ++ (crlf ++ crlf)) := by
    simp [headText, bearerLines, Response.fieldLine, crlf]
  have hstart :
      (textBytes "GET /api/id HTTP/1.1\r\nauthorization: Bearer ".toList).length = 44 := by decide
  have hend : (textBytes (crlf ++ crlf)).length = 4 := rfl
  have htoken : textBytes token.toList = utf8 token := by rw [textBytes, String.ofList_toList]
  rw [bearerBytes, hline, textBytes_append, textBytes_append token.toList, List.length_append,
    List.length_append, hstart, hend, htoken]
  omega

/-- The request with a token that a header line can end with is read with the token. -/
theorem requestOf_bearerBytes {token : String} (h : Presentable token) :
    ∃ request, requestOf (bearerBytes token) = .ok request ∧ request.path = "/api/id" ∧
      ("authorization", "Bearer " ++ token) ∈ request.headers := by
  have hlines : ∀ line ∈ bearerLines token, line ≠ [] ∧ ¬ crlf <:+: line := by
    refine List.forall_mem_cons.mpr ⟨by decide, List.forall_mem_singleton.mpr ⟨?_, ?_⟩⟩
    · exact List.append_ne_nil_of_right_ne_nil _ (List.cons_ne_nil _ _)
    · rw [crlf_infix_bearer_iff]
      exact h.oneLine
  obtain ⟨position, hfind, hend⟩ := find_headersEnd (List.cons_ne_nil _ _) hlines []
  rw [List.append_nil] at hfind
  have hfind' : find (bearerBytes token) headersEnd = some position := hfind
  have htake : (bearerBytes token).take (position + 4) = bearerBytes token :=
    List.take_of_length_le hend.ge
  have hwords := requestLine_headText fun line hline => (hlines line hline).2
  have htarget : targetOf (bearerBytes token) = "/api/id" := by
    rw [bearerBytes, targetOf_textBytes, bearerLines, hwords]
    decide
  have hpath : splitTarget (targetOf (bearerBytes token)) = some ("/api/id", []) := by
    rw [htarget]
    decide
  have hcolon : ':' ∉ "authorization".toList := by decide
  have hfields := @headerLines_headText "GET /api/id HTTP/1.1".toList
    [("authorization", ("Bearer " ++ token).toList)] (by decide)
    (List.forall_mem_singleton.mpr ⟨hcolon, (hlines _ (by simp [bearerLines])).2⟩)
  have hheaders : headerLines (lossy (bearerBytes token)) =
      [("authorization", String.ofList (' ' :: ("Bearer " ++ token).toList))] := by
    rw [bearerBytes, lossy_textBytes]
    exact hfields
  have hname :
      String.ofList ((trim "authorization".toList).map Char.toLower) = "authorization" := by
    decide +kernel
  have hvalue :
      trimmed (String.ofList (' ' :: ("Bearer " ++ token).toList)) = "Bearer " ++ token := by
    rw [trimmed, String.toList_ofList, trim_space, trim_bearer_iff.mpr h.ended,
      String.ofList_toList]
  rw [requestOf, hfind']
  simp only [htake, parseHead, hpath, hheaders, Option.bind_eq_bind, Option.bind_some,
    List.map_cons, List.map_nil, hname, hvalue]
  exact ⟨_, rfl, rfl, List.mem_cons_self⟩

/-- **Which tokens let a request through**: those that a header line can end with. With another
one, such as the empty one, every request for the API is refused. -/
theorem token_works_iff {token : String} (hsize : (utf8 token).length + 48 ≤ maxRequest) :
    (∃ arrivals request, readRequest arrivals = .ok request ∧
      "/api/".toList <+: request.path.toList ∧ refuses request (some token) = false) ↔
      Presentable token := by
  constructor
  · rintro ⟨arrivals, request, hread, hpath, hnot⟩
    refine presentable_of_authorized hread ?_
    simpa [refuses, startsWith_iff.mpr hpath] using hnot
  · intro hpresentable
    obtain ⟨request, hrequest, hpath, hmem⟩ := requestOf_bearerBytes hpresentable
    have hlength : (bearerBytes token).length ≤ maxRequest := by
      rw [length_bearerBytes]
      omega
    refine ⟨_, request, (readRequest_delivered hlength (delivers_singles _)).trans hrequest, ?_, ?_⟩
    · rw [hpath]
      decide
    · simp [refuses, authorized_iff.mpr hmem]

/-- A space is no token, and a word is one. -/
theorem known_tokens_tried :
    (¬ ∃ arrivals request, readRequest arrivals = .ok request ∧
      "/api/".toList <+: request.path.toList ∧ refuses request (some " ") = false) ∧
    ∃ arrivals request, readRequest arrivals = .ok request ∧
      "/api/".toList <+: request.path.toList ∧ refuses request (some "secret") = false := by
  constructor
  · rw [@token_works_iff " " (by decide)]
    rintro ⟨-, c, hlast, hnot⟩
    obtain rfl : ' ' = c := by simpa using hlast
    exact absurd hnot (by decide)
  · rw [@token_works_iff "secret" (by decide)]
    exact ⟨by decide, 't', by decide, by decide⟩

end Keepstone.Daemon
