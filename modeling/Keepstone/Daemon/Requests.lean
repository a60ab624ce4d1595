import Keepstone.Daemon.Query
import Keepstone.Daemon.Routing
import Keepstone.Lib.Search

/-!
# Reading a request (`crates/daemon/src/main.rs:38, 52-121`)

`read_request` reads from the connection until it has the end of the headers, and then until it has
the body that the headers announce. TCP may deliver the bytes of a request in any pieces. The limit
is checked by the first loop only.

Results:
* `readHead_ok`, `readBody_ok`, `receive_ok`: what the loops leave, on any reads;
* `readHead_found`, `readBody_delivered`: the same, on reads that deliver a stream;
* `readRequest_delivered`: what a delivery is read as depends on the stream alone;
* **`delivery_irrelevant_iff`**: for which streams every delivery is read as the request in it;
* **`size_limited_iff`**: for which streams the limit covers the whole request.
-/

namespace Keepstone.Daemon

open Keepstone.Lib Keepstone.Store

/-! ## The connection -/

/-- `MAX_REQUEST`. -/
def maxRequest : Nat := 8 * 1024 * 1024

/-- What a read puts into a buffer of 4096 bytes. -/
abbrev Chunk := { bytes : List UInt8 // bytes.length ≤ 4096 }

/-- What a read from the connection gives; no bytes are the end of the stream. -/
inductive Arrival where
  | bytes (chunk : Chunk)
  | failed (error : IoError)

/-- How a reading ends that returns no request. -/
inductive ReadStop where
  | error (error : IoError)
  | panics
  /-- It waits for more than has arrived. -/
  | waits
  deriving DecidableEq

/-- `b"\r\n\r\n"`. -/
def headersEnd : List UInt8 := [0x0D, 0x0A, 0x0D, 0x0A]

/-- The first loop of `read_request`: the buffer, the end of the headers in it, and what is still to
come. -/
def readHead : List UInt8 → List Arrival → Except ReadStop (List UInt8 × Nat × List Arrival)
  | _, [] => .error .waits
  | _, .failed e :: _ => .error (.error e)
  | buffer, .bytes chunk :: rest =>
    if chunk.val = [] then .error (.error (.message "empty request"))
    else if maxRequest < (buffer ++ chunk.val).length then
      .error (.error (.message "request too large"))
    else
      match find (buffer ++ chunk.val) headersEnd with
      | some position => .ok (buffer ++ chunk.val, position + 4, rest)
      | none => readHead (buffer ++ chunk.val) rest

/-- The second loop: the body is read until it is long enough, or the stream ends. -/
def readBody (contentLength : Nat) : List UInt8 → List Arrival → Except ReadStop (List UInt8)
  | body, arrivals =>
    if body.length < contentLength then
      match arrivals with
      | [] => .error .waits
      | .failed e :: _ => .error (.error e)
      | .bytes chunk :: rest =>
        if chunk.val = [] then .ok body else readBody contentLength (body ++ chunk.val) rest
    else .ok body

/-! ## The headers -/

/-- `str::split` at `"\r\n"`. -/
def splitCrlf : List Char → List (List Char)
  | [] => [[]]
  | '\r' :: '\n' :: rest => [] :: splitCrlf rest
  | c :: rest => (splitCrlf rest).modifyHead (c :: ·)

/-- What the headers say. -/
structure Head where
  /-- Method. -/
  method : String
  /-- The target up to the query. -/
  path : String
  /-- The query, decoded. -/
  query : List (String × String)
  /-- Headers; the names are in lower case. -/
  headers : List (String × String)
  /-- The length of the body, zero if it is not given. -/
  contentLength : UInt64

/-- `str::trim`. -/
def trimmed (text : String) : String := String.ofList (trim text.toList)

/-- The words of the first line. -/
def requestLine (text : List Char) : List String :=
  (splitWhitespace ((splitCrlf text).headD [])).map String.ofList

/-- The other lines that have a colon, split at the first. -/
def headerLines (text : List Char) : List (String × String) :=
  (splitCrlf text).tail.filterMap fun line => splitOnce ':' (String.ofList line)

/-- `content_length`. -/
def contentLength (lines : List (String × String)) : UInt64 :=
  ((lines.find? fun line => eqIgnoreAsciiCase line.1 "content-length").bind fun line =>
    parseU64 (trim line.2.toList)).getD 0

/-- The target in the first line. -/
def targetOf (bytes : List UInt8) : String := (requestLine (lossy bytes))[1]?.getD "/"

/-- What `read_request` takes from the bytes of the headers; `none` is a panic of `split_target`. -/
def parseHead (bytes : List UInt8) : Option Head := do
  let text := lossy bytes
  let (path, query) ← splitTarget (targetOf bytes)
  pure
    { method := (requestLine text).headD "", path, query
      headers := (headerLines text).map fun (name, value) =>
        (String.ofList ((trim name.toList).map Char.toLower), trimmed value)
      contentLength := contentLength (headerLines text) }

/-! ## The request -/

/-- What `read_request` has when both loops are done. -/
structure Received where
  /-- The headers. -/
  head : Head
  /-- `header_end`. -/
  headerEnd : Nat
  /-- `body`, before it is cut to the length the headers give. -/
  body : List UInt8

/-- Both loops of `read_request`. -/
def receive (arrivals : List Arrival) : Except ReadStop Received := do
  let (buffer, headerEnd, arrivals) ← readHead [] arrivals
  let head ← okOr (parseHead (buffer.take headerEnd)) .panics
  let body ← readBody head.contentLength.toNat (buffer.drop headerEnd) arrivals
  pure ⟨head, headerEnd, body⟩

/-- The request that is returned, with `body.truncate(content_length)`. -/
def Received.request (received : Received) : Request where
  method := received.head.method
  path := received.head.path
  query := received.head.query
  headers := received.head.headers
  body := received.body.take received.head.contentLength.toNat

/-- `read_request`, on what the reads from the connection give. -/
def readRequest (arrivals : List Arrival) : Except ReadStop Request := do
  let received ← receive arrivals
  pure received.request

/-! ## What has arrived -/

/-- The bytes of some reads. -/
def flat (chunks : List Chunk) : List UInt8 := chunks.flatMap Subtype.val

/-- Reads that give these bytes, and then what follows. -/
def deliver (chunks : List Chunk) (rest : List Arrival) : List Arrival :=
  chunks.map .bytes ++ rest

/-- The bytes that come before the stream ends or fails. -/
def carried : List Arrival → List UInt8
  | .bytes chunk :: rest => if chunk.val = [] then [] else chunk.val ++ carried rest
  | _ => []

theorem flat_cons (chunk : Chunk) (chunks : List Chunk) :
    flat (chunk :: chunks) = chunk.val ++ flat chunks := List.flatMap_cons

theorem deliver_cons (chunk : Chunk) (chunks : List Chunk) (rest : List Arrival) :
    deliver (chunk :: chunks) rest = .bytes chunk :: deliver chunks rest := rfl

theorem carried_deliver {chunks : List Chunk} (hne : ∀ c ∈ chunks, c.val ≠ [])
    (rest : List Arrival) : carried (deliver chunks rest) = flat chunks ++ carried rest := by
  induction chunks with
  | nil => rfl
  | cons c chunks ih =>
    obtain ⟨hc, hchunks⟩ := List.forall_mem_cons.mp hne
    rw [deliver_cons, carried, if_neg hc, ih hchunks, flat_cons, List.append_assoc]

theorem length_headersEnd : headersEnd.length = 4 := rfl

theorem headersEnd_ne_nil : headersEnd ≠ [] := List.cons_ne_nil _ _

/-! ## The loops, on any reads -/

/-- **What the first loop leaves**: a buffer within the limit in which the headers end, and in
front of the rest. -/
theorem readHead_ok {buffer buffer' : List UInt8} {arrivals rest : List Arrival} {headerEnd : Nat}
    (h : readHead buffer arrivals = .ok (buffer', headerEnd, rest)) :
    buffer'.length ≤ maxRequest ∧
      (∃ position, find buffer' headersEnd = some position ∧ headerEnd = position + 4) ∧
      buffer ++ carried arrivals = buffer' ++ carried rest := by
  induction arrivals generalizing buffer with
  | nil => exact absurd h nofun
  | cons arrival arrivals ih =>
    cases arrival with
    | failed e => exact absurd h nofun
    | bytes chunk =>
      rw [readHead] at h
      by_cases hend : chunk.val = []
      · rw [if_pos hend] at h
        exact absurd h nofun
      by_cases hlarge : maxRequest < (buffer ++ chunk.val).length
      · rw [if_neg hend, if_pos hlarge] at h
        exact absurd h nofun
      rw [if_neg hend, if_neg hlarge] at h
      rw [carried, if_neg hend, ← List.append_assoc]
      cases hfind : find (buffer ++ chunk.val) headersEnd with
      | none =>
        rw [hfind] at h
        exact ih h
      | some position =>
        rw [hfind] at h
        obtain ⟨rfl, hrest⟩ := Prod.mk.inj (Except.ok.inj h)
        obtain ⟨rfl, rfl⟩ := Prod.mk.inj hrest
        exact ⟨Nat.not_lt.mp hlarge, ⟨position, hfind, rfl⟩, rfl⟩

/-- **What the second loop leaves**: what it had and more of what came, and if more, then no more
than one read above the length. -/
theorem readBody_ok {cl : Nat} {body body' : List UInt8} {arrivals : List Arrival}
    (h : readBody cl body arrivals = .ok body') :
    body <+: body' ∧ body' <+: body ++ carried arrivals ∧
      (body' = body ∨ body'.length < cl + 4096) := by
  induction arrivals generalizing body with
  | nil =>
    unfold readBody at h
    split_ifs at h
    obtain rfl := Except.ok.inj h
    exact ⟨List.prefix_rfl, List.prefix_append _ _, Or.inl rfl⟩
  | cons arrival arrivals ih =>
    unfold readBody at h
    split_ifs at h with hmore
    · cases arrival with
      | failed e => exact absurd h nofun
      | bytes chunk =>
        simp only at h
        rw [carried]
        split_ifs at h with hend
        · obtain rfl := Except.ok.inj h
          exact ⟨List.prefix_rfl, List.prefix_append _ _, Or.inl rfl⟩
        · obtain ⟨hfirst, hlast, hbound⟩ := ih h
          rw [if_neg hend, ← List.append_assoc]
          refine ⟨(List.prefix_append _ _).trans hfirst, hlast, Or.inr ?_⟩
          rcases hbound with rfl | hlt
          · rw [List.length_append]
            have hchunk := chunk.property
            omega
          · exact hlt
    · obtain rfl := Except.ok.inj h
      exact ⟨List.prefix_rfl, List.prefix_append _ _, Or.inl rfl⟩

/-! ## The loops, on a delivery -/

/-- Reads that do not complete the headers are put into the buffer. -/
theorem readHead_skip {buffer : List UInt8} {chunks : List Chunk} (hne : ∀ c ∈ chunks, c.val ≠ [])
    (hsize : (buffer ++ flat chunks).length ≤ maxRequest)
    (hnone : find (buffer ++ flat chunks) headersEnd = none) (rest : List Arrival) :
    readHead buffer (deliver chunks rest) = readHead (buffer ++ flat chunks) rest := by
  induction chunks generalizing buffer with
  | nil => rw [show flat [] = [] from rfl, List.append_nil]; rfl
  | cons c chunks ih =>
    obtain ⟨hc, hchunks⟩ := List.forall_mem_cons.mp hne
    rw [flat_cons, ← List.append_assoc] at hsize hnone ⊢
    have hpart : find (buffer ++ c.val) headersEnd = none := by
      refine find_eq_none_of_isPrefix headersEnd_ne_nil (List.prefix_append _ (flat chunks)) ?_
      intro i hi
      rw [hnone] at hi
      exact absurd hi nofun
    have hsmall : ¬ maxRequest < (buffer ++ c.val).length := by
      rw [List.length_append] at hsize
      omega
    rw [deliver_cons, readHead, if_neg hc, if_neg hsmall, hpart]
    exact ih hchunks hsize hnone

/-- **The headers are found** as soon as they are complete, wherever the reads are cut. -/
theorem readHead_found {buffer : List UInt8} {chunks : List Chunk} (hne : ∀ c ∈ chunks, c.val ≠ [])
    (hsize : (buffer ++ flat chunks).length ≤ maxRequest) {position : Nat}
    (hnone : find buffer headersEnd = none)
    (hfind : find (buffer ++ flat chunks) headersEnd = some position) (rest : List Arrival) :
    ∃ before after, chunks = before ++ after ∧
      find (buffer ++ flat before) headersEnd = some position ∧
      readHead buffer (deliver chunks rest) =
        .ok (buffer ++ flat before, position + 4, deliver after rest) := by
  induction chunks generalizing buffer with
  | nil =>
    rw [show flat [] = [] from rfl, List.append_nil, hnone] at hfind
    exact absurd hfind nofun
  | cons c chunks ih =>
    obtain ⟨hc, hchunks⟩ := List.forall_mem_cons.mp hne
    rw [flat_cons, ← List.append_assoc] at hsize hfind
    have hsmall : ¬ maxRequest < (buffer ++ c.val).length := by
      rw [List.length_append] at hsize
      omega
    rw [deliver_cons, readHead, if_neg hc, if_neg hsmall]
    cases hpart : find (buffer ++ c.val) headersEnd with
    | none =>
      obtain ⟨before, after, rfl, hbefore, hread⟩ := ih hchunks hsize hpart hfind
      refine ⟨c :: before, after, rfl, ?_, ?_⟩
      · rwa [flat_cons, ← List.append_assoc]
      · rwa [flat_cons, ← List.append_assoc]
    | some other =>
      have hwhole := ((find_eq_some_iff_of_isPrefix headersEnd_ne_nil
        (List.prefix_append _ (flat chunks))).mp hpart).1
      obtain rfl : other = position := Option.some.inj (hwhole.symm.trans hfind)
      have hone : flat [c] = c.val := List.append_nil _
      exact ⟨[c], chunks, rfl, by rw [hone, hpart], by rw [hone]⟩

/-- Reads that end with the headers are read to the last. -/
theorem readHead_exact {chunks : List Chunk} (hne : ∀ c ∈ chunks, c.val ≠ []) {position : Nat}
    (hsize : (flat chunks).length ≤ maxRequest)
    (hfind : find (flat chunks) headersEnd = some position)
    (hend : (flat chunks).length = position + 4) (rest : List Arrival) :
    readHead [] (deliver chunks rest) = .ok (flat chunks, position + 4, rest) := by
  obtain ⟨before, after, rfl, hbefore, hread⟩ := @readHead_found [] chunks hne hsize position rfl
    hfind rest
  have hflat : flat (before ++ after) = flat before ++ flat after := List.flatMap_append
  rw [List.nil_append] at hbefore hread
  have hin := ((find_eq_some_iff_of_isPrefix headersEnd_ne_nil
    (hflat ▸ List.prefix_append _ _)).mp hbefore).2
  -- the headers are not complete before their last byte has come
  have hafter : after = [] := by
    cases after with
    | nil => rfl
    | cons c after =>
      have hc := List.length_pos_iff.mpr (hne c (List.mem_append_right _ List.mem_cons_self))
      rw [hflat, flat_cons, List.length_append, List.length_append] at hend
      rw [length_headersEnd] at hin
      omega
  rw [hread, hafter, List.append_nil]
  rfl

/-- Reads that do not go beyond the length are put into the body. -/
theorem readBody_skip {cl : Nat} {body : List UInt8} {chunks : List Chunk}
    (hne : ∀ c ∈ chunks, c.val ≠ []) (hle : (body ++ flat chunks).length ≤ cl)
    (rest : List Arrival) :
    readBody cl body (deliver chunks rest) = readBody cl (body ++ flat chunks) rest := by
  induction chunks generalizing body with
  | nil => rw [show flat [] = [] from rfl, List.append_nil]; rfl
  | cons c chunks ih =>
    obtain ⟨hc, hchunks⟩ := List.forall_mem_cons.mp hne
    have hpos := List.length_pos_iff.mpr hc
    rw [flat_cons, ← List.append_assoc] at hle ⊢
    have hmore : body.length < cl := by
      simp only [List.length_append] at hle
      omega
    rw [deliver_cons, readBody, if_pos hmore]
    exact (if_neg hc).trans (ih hchunks hle)

/-- The end of the stream. -/
def streamEnd : Arrival := .bytes ⟨[], Nat.zero_le _⟩

/-- **The body is what has come, up to the length**, wherever the reads are cut. -/
theorem readBody_delivered {cl : Nat} {body : List UInt8} {chunks : List Chunk}
    (hne : ∀ c ∈ chunks, c.val ≠ []) (after : List Arrival) :
    ∃ body', readBody cl body (deliver chunks (streamEnd :: after)) = .ok body' ∧
      body <+: body' ∧ body'.take cl = (body ++ flat chunks).take cl := by
  induction chunks generalizing body with
  | nil =>
    refine ⟨body, ?_, List.prefix_rfl, by rw [show flat [] = [] from rfl, List.append_nil]⟩
    unfold deliver streamEnd
    rw [List.map_nil, List.nil_append, readBody]
    by_cases hmore : body.length < cl
    · rw [if_pos hmore]
      exact if_pos rfl
    · rw [if_neg hmore]
  | cons c chunks ih =>
    obtain ⟨hc, hchunks⟩ := List.forall_mem_cons.mp hne
    rw [deliver_cons, readBody, flat_cons, ← List.append_assoc]
    by_cases hmore : body.length < cl
    · obtain ⟨body', hread, hprefix, htake⟩ := @ih (body ++ c.val) hchunks
      rw [if_pos hmore]
      exact ⟨body', (if_neg hc).trans hread, (List.prefix_append _ _).trans hprefix, htake⟩
    · rw [if_neg hmore]
      refine ⟨body, rfl, List.prefix_rfl, ?_⟩
      rw [List.append_assoc, List.take_append_of_le_length (Nat.not_lt.mp hmore)]

/-! ## Deliveries of a stream -/

/-- The reads give the bytes of the stream, each at least one of them, and then its end. -/
def Delivers (arrivals : List Arrival) (stream : List UInt8) : Prop :=
  ∃ chunks after, (∀ c ∈ chunks, c.val ≠ []) ∧ flat chunks = stream ∧
    arrivals = deliver chunks (streamEnd :: after)

/-- One byte at a time. -/
def singles (bytes : List UInt8) : List Chunk := bytes.map fun byte => ⟨[byte], by simp⟩

theorem flat_singles (bytes : List UInt8) : flat (singles bytes) = bytes := by
  rw [flat, singles, List.flatMap_map]
  exact List.flatMap_singleton' bytes

theorem singles_ne_nil (bytes : List UInt8) : ∀ c ∈ singles bytes, c.val ≠ [] := by
  intro c hc
  obtain ⟨byte, -, rfl⟩ := List.mem_map.mp hc
  exact List.cons_ne_nil _ _

theorem delivers_singles (stream : List UInt8) :
    Delivers (deliver (singles stream) [streamEnd]) stream :=
  ⟨_, [], singles_ne_nil stream, flat_singles stream, rfl⟩

/-- A short stream may come in one read. -/
theorem delivers_whole {chunk : Chunk} (hne : chunk.val ≠ []) :
    Delivers (deliver [chunk] [streamEnd]) chunk.val :=
  ⟨_, [], List.forall_mem_singleton.mpr hne, List.append_nil _, rfl⟩

/-- What a stream says, wherever it is cut. -/
def requestOf (stream : List UInt8) : Except ReadStop Request :=
  match find stream headersEnd with
  | none => .error (.error (.message "empty request"))
  | some position => do
    let head ← okOr (parseHead (stream.take (position + 4))) .panics
    pure (Received.request ⟨head, position + 4, stream.drop (position + 4)⟩)

/-- When the first loop is done. -/
theorem receive_of_readHead {arrivals rest : List Arrival} {buffer : List UInt8} {headerEnd : Nat}
    (h : readHead [] arrivals = .ok (buffer, headerEnd, rest)) :
    receive arrivals = (do
      let head ← okOr (parseHead (buffer.take headerEnd)) .panics
      let body ← readBody head.contentLength.toNat (buffer.drop headerEnd) rest
      pure ⟨head, headerEnd, body⟩) := by
  rw [receive, h]
  rfl

/-- **The request is what the stream says**, for every delivery of the stream. -/
theorem readRequest_delivered {stream : List UInt8} (hsize : stream.length ≤ maxRequest)
    {arrivals : List Arrival} (h : Delivers arrivals stream) :
    readRequest arrivals = requestOf stream := by
  obtain ⟨chunks, rest, hne, rfl, rfl⟩ := h
  rw [requestOf]
  cases hfind : find (flat chunks) headersEnd with
  | none =>
    rw [readRequest, receive, readHead_skip hne hsize hfind]
    rfl
  | some position =>
    obtain ⟨before, after, rfl, hbefore, hread⟩ :=
      @readHead_found [] chunks hne hsize position rfl hfind (streamEnd :: rest)
    have hflat : flat (before ++ after) = flat before ++ flat after := List.flatMap_append
    have hin : position + 4 ≤ (flat before).length :=
      ((find_eq_some_iff_of_isPrefix headersEnd_ne_nil (hflat ▸ List.prefix_append _ _)).mp hbefore).2
    rw [readRequest, receive_of_readHead hread, List.nil_append, hflat]
    dsimp only
    rw [List.take_append_of_le_length hin, List.drop_append_of_le_length hin]
    cases hhead : parseHead ((flat before).take (position + 4)) with
    | none => rfl
    | some head =>
      obtain ⟨body, hbody, -, htake⟩ := @readBody_delivered head.contentLength.toNat
        ((flat before).drop (position + 4)) after
        (fun c hc => hne c (List.mem_append_right _ hc)) rest
      have hok : okOr (some head) ReadStop.panics = .ok head := rfl
      simp only [hok, hbody, bind, Except.bind, pure, Except.pure, Received.request, htake]

/-! ## Which streams are read as a request -/

/-- `split_target` does not panic on the target of the stream. -/
def TargetDecodes (stream : List UInt8) : Prop :=
  ∀ position, find stream headersEnd = some position →
    ∀ path query, splitOnce '?' (targetOf (stream.take (position + 4))) = some (path, query) →
      ∀ piece ∈ queryPieces query, Decodable piece

/-- However the stream is delivered, it is an error if the headers do not end, and else the same
request, whose body is what follows them, up to the length they give. -/
def ReadAlike (stream : List UInt8) : Prop :=
  ∀ first second, Delivers first stream → Delivers second stream →
    match find stream headersEnd with
    | none => ∃ e, readRequest first = .error (.error e) ∧ readRequest second = .error (.error e)
    | some position =>
      let cl := (contentLength (headerLines (lossy (stream.take (position + 4))))).toNat
      let available := stream.drop (position + 4)
      ∃ request, readRequest first = .ok request ∧ readRequest second = .ok request ∧
        request.body = available.take (min cl available.length)

theorem parseHead_isSome_iff (bytes : List UInt8) :
    (parseHead bytes).isSome = true ↔
      ∀ path query, splitOnce '?' (targetOf bytes) = some (path, query) →
        ∀ piece ∈ queryPieces query, Decodable piece := by
  rw [← splitTarget_isSome_iff, parseHead]
  cases splitTarget (targetOf bytes) <;> rfl

theorem targetOf_textBytes (text : List Char) :
    targetOf (textBytes text) = (requestLine text)[1]?.getD "/" := by
  rw [targetOf, lossy_textBytes]

theorem contentLength_of_parseHead {bytes : List UInt8} {head : Head}
    (h : parseHead bytes = some head) :
    head.contentLength = contentLength (headerLines (lossy bytes)) := by
  obtain ⟨target, -, htarget⟩ := Option.bind_eq_some_iff.mp h
  obtain rfl := Option.some.inj htarget
  rfl

theorem readAlike_iff {stream : List UInt8} (hsize : stream.length ≤ maxRequest) :
    ReadAlike stream ↔ TargetDecodes stream := by
  constructor
  · intro halike position hfind
    have hdelivers := delivers_singles stream
    have hread := halike _ _ hdelivers hdelivers
    rw [hfind] at hread
    obtain ⟨request, hrequest, -, -⟩ := hread
    rw [readRequest_delivered hsize hdelivers, requestOf, hfind] at hrequest
    obtain ⟨head, hhead, -⟩ := bind_ok_iff.mp hrequest
    rw [← parseHead_isSome_iff, okOr_ok_iff.mp hhead]
    rfl
  · intro hdecodes first second hfirst hsecond
    rw [readRequest_delivered hsize hfirst, readRequest_delivered hsize hsecond, requestOf]
    cases hfind : find stream headersEnd with
    | none => exact ⟨_, rfl, rfl⟩
    | some position =>
      have hsome := (parseHead_isSome_iff _).mpr (hdecodes position hfind)
      obtain ⟨head, hhead⟩ := Option.isSome_iff_exists.mp hsome
      refine ⟨Received.request ⟨head, position + 4, stream.drop (position + 4)⟩, ?_, ?_, ?_⟩
      · rw [bind_ok_iff]
        exact ⟨head, okOr_ok_iff.mpr hhead, rfl⟩
      · rw [bind_ok_iff]
        exact ⟨head, okOr_ok_iff.mpr hhead, rfl⟩
      · rw [← contentLength_of_parseHead hhead, Received.request]
        exact List.take_eq_take_min

/-- **How a request is cut does not matter**: every delivery of a stream gives the same outcome. It
is the request in the stream, or an error if the headers do not end, for the streams whose target
can be decoded. -/
theorem delivery_irrelevant_iff {stream : List UInt8} (hsize : stream.length ≤ maxRequest) :
    (∀ first second, Delivers first stream → Delivers second stream →
      readRequest first = readRequest second) ∧
    (ReadAlike stream ↔ TargetDecodes stream) := by
  refine ⟨fun first second hfirst hsecond => ?_, readAlike_iff hsize⟩
  rw [readRequest_delivered hsize hfirst, readRequest_delivered hsize hsecond]

/-- A request with a body. -/
def knownPost : List UInt8 := utf8 "POST / HTTP/1.1\r\nContent-Length: 2\r\n\r\nhi"

/-- It may come whole or byte by byte. -/
theorem known_post_delivered :
    readRequest (deliver [⟨knownPost, by decide⟩] [streamEnd]) =
        readRequest (deliver (singles knownPost) [streamEnd]) ∧
      ReadAlike knownPost := by
  obtain ⟨hsame, halike⟩ := @delivery_irrelevant_iff knownPost (by decide)
  refine ⟨hsame _ _ (delivers_whole (List.cons_ne_nil _ _)) (delivers_singles _), halike.mpr ?_⟩
  intro position hfind path query hsplit
  obtain rfl : 34 = position := by
    rw [← Option.some_inj, ← hfind]
    decide
  have hhead : knownPost.take (34 + 4) =
      textBytes "POST / HTTP/1.1\r\nContent-Length: 2\r\n\r\n".toList := by decide
  have htarget : targetOf (knownPost.take (34 + 4)) = "/" := by
    rw [hhead, targetOf_textBytes]
    decide +kernel
  have hnone : splitOnce '?' "/" = none := by decide
  rw [htarget, hnone] at hsplit
  exact absurd hsplit.symm (Option.some_ne_none _)

/-- A request without a body whose target cannot be decoded. -/
def knownGet : List UInt8 := utf8 "GET /?%aé HTTP/1.1\r\n\r\n"

/-- There is no request in it, though its headers end: the daemon panics. -/
theorem known_get_panics :
    knownGet.length ≤ maxRequest ∧ find knownGet headersEnd = some 19 ∧
      readRequest (deliver [⟨knownGet, by decide⟩] [streamEnd]) = .error .panics ∧
      ¬ ReadAlike knownGet := by
  have hsize : knownGet.length ≤ maxRequest := by decide
  have hfind : find knownGet headersEnd = some 19 := by decide
  have hhead : parseHead (knownGet.take (19 + 4)) = none := by
    have hbytes : knownGet.take (19 + 4) =
        textBytes "GET /?%aé HTTP/1.1\r\n\r\n".toList := by decide
    have htarget : targetOf (knownGet.take (19 + 4)) = "/?%aé" := by
      rw [hbytes, targetOf_textBytes]
      decide +kernel
    rw [parseHead, htarget, splitTarget_cut]
    rfl
  have hdelivers : Delivers (deliver [⟨knownGet, by decide⟩] [streamEnd]) knownGet :=
    delivers_whole (List.cons_ne_nil _ _)
  refine ⟨hsize, hfind, ?_, fun halike => ?_⟩
  · rw [readRequest_delivered hsize hdelivers, requestOf, hfind]
    dsimp only
    rw [hhead]
    rfl
  · have hsome := (parseHead_isSome_iff _).mpr ((readAlike_iff hsize).mp halike 19 hfind)
    rw [hhead] at hsome
    exact absurd hsome Bool.false_ne_true

/-! ## The limit -/

/-- The stream has no more than the limit and one read, or the headers announce a body with which
the request is no more than a byte above the limit; or no request is read from it: the headers do
not end within the limit, or the target is not decoded. -/
def WithinLimit (stream : List UInt8) : Prop :=
  ∀ position head, find stream headersEnd = some position → position + 4 ≤ maxRequest →
    parseHead (stream.take (position + 4)) = some head →
      stream.length ≤ maxRequest + 4096 ∨ position + 4 + head.contentLength.toNat ≤ maxRequest + 1

/-- What `read_request` has put into its buffers. -/
def Received.buffered (received : Received) : Nat := received.headerEnd + received.body.length

@[simp] theorem buffered_mk (head : Head) (headerEnd : Nat) (body : List UInt8) :
    Received.buffered ⟨head, headerEnd, body⟩ = headerEnd + body.length := rfl

/-- **What a request was read from**: headers within the limit, and no more than came; if more than
the limit was buffered, then no more than one read above the length of the body. -/
theorem receive_ok {arrivals : List Arrival} {received : Received}
    (h : receive arrivals = .ok received) :
    ∃ position, find (carried arrivals) headersEnd = some position ∧
      position + 4 ≤ maxRequest ∧ received.headerEnd = position + 4 ∧
      parseHead ((carried arrivals).take (position + 4)) = some received.head ∧
      received.buffered ≤ (carried arrivals).length ∧
      (received.buffered ≤ maxRequest ∨
        received.buffered < position + 4 + received.head.contentLength.toNat + 4096) := by
  obtain ⟨⟨buffer, headerEnd, rest⟩, hread, h⟩ := bind_ok_iff.mp h
  obtain ⟨head, hhead, h⟩ := bind_ok_iff.mp h
  obtain ⟨body, hbody, h⟩ := bind_ok_iff.mp h
  obtain rfl := Except.ok.inj h
  obtain ⟨hlimit, ⟨position, hfind, rfl⟩, hcarried⟩ := readHead_ok hread
  obtain ⟨hfirst, hlast, hbound⟩ := readBody_ok hbody
  rw [List.nil_append] at hcarried
  rw [hcarried]
  obtain ⟨hwhole, hin⟩ := (find_eq_some_iff_of_isPrefix headersEnd_ne_nil
    (List.prefix_append buffer (carried rest))).mp hfind
  have hend : position + 4 ≤ buffer.length := hin
  have hlen := hlast.length_le
  simp only [List.length_append, List.length_drop] at hlen
  refine ⟨position, hwhole, hend.trans hlimit, rfl, ?_, ?_, ?_⟩
  · rw [List.take_append_of_le_length hend]
    exact okOr_ok_iff.mp hhead
  · rw [buffered_mk, List.length_append]
    omega
  · rw [buffered_mk]
    rcases hbound with rfl | hlt
    · left
      rw [List.length_drop]
      omega
    · right
      dsimp only
      omega

/-- A stream that is not within the limit, delivered byte by byte up to one byte above the limit,
and then by a full read. -/
theorem exists_oversized {stream : List UInt8} {position : Nat} {head : Head}
    (hfind : find stream headersEnd = some position) (hlimit : position + 4 ≤ maxRequest)
    (hhead : parseHead (stream.take (position + 4)) = some head)
    (hlen : maxRequest + 4096 < stream.length)
    (hcl : maxRequest + 1 < position + 4 + head.contentLength.toNat) :
    ∃ arrivals received, carried arrivals = stream ∧ receive arrivals = .ok received ∧
      maxRequest + 4096 < received.buffered := by
  have hover (limit n : Nat) (hlimit : position + 4 ≤ limit)
      (hn : limit + 1 - (position + 4) + 4096 ≤ n) : limit + 4096 < position + 4 + n := by omega
  let headers := stream.take (position + 4)
  let few := (stream.drop (position + 4)).take (maxRequest + 1 - (position + 4))
  let full : Chunk := ⟨(stream.drop (maxRequest + 1)).take 4096, List.length_take_le _ _⟩
  let last := stream.drop (maxRequest + 1 + 4096)
  let arrivals := deliver (singles headers)
    (deliver (singles few) (deliver (full :: singles last) [streamEnd]))
  have hheaders : headers.length = position + 4 := by
    rw [List.length_take]
    omega
  have hfew : few.length = maxRequest + 1 - (position + 4) := by
    rw [List.length_take, List.length_drop]
    omega
  have hfull : full.val.length = 4096 := by
    rw [List.length_take, List.length_drop]
    omega
  have hfullne : full.val ≠ [] := List.ne_nil_of_length_pos (by rw [hfull]; decide)
  have hlastne : ∀ c ∈ full :: singles last, c.val ≠ [] :=
    List.forall_mem_cons.mpr ⟨hfullne, singles_ne_nil last⟩
  have hcarried : carried arrivals = stream := by
    have hend : carried [streamEnd] = [] := rfl
    rw [carried_deliver (singles_ne_nil _), carried_deliver (singles_ne_nil _),
      carried_deliver hlastne, hend, flat_cons, flat_singles, flat_singles, flat_singles,
      List.append_nil]
    calc headers ++ (few ++ (full.val ++ last))
        = headers ++ (few ++ stream.drop (maxRequest + 1)) := by
          rw [← List.take_append_drop 4096 (stream.drop (maxRequest + 1)), List.drop_drop]
      _ = headers ++ stream.drop (position + 4) := by
          rw [← List.take_append_drop (maxRequest + 1 - (position + 4))
            (stream.drop (position + 4)), List.drop_drop, Nat.add_sub_of_le (by omega)]
      _ = stream := List.take_append_drop _ _
  have hread : readHead [] arrivals = .ok (headers, position + 4,
      deliver (singles few) (deliver (full :: singles last) [streamEnd])) := by
    rw [readHead_exact (singles_ne_nil headers) _ _ _, flat_singles]
    · rw [flat_singles]
      exact (List.length_take_le _ _).trans hlimit
    · rw [flat_singles]
      refine (find_eq_some_iff_of_isPrefix headersEnd_ne_nil (List.take_prefix _ _)).mpr ⟨hfind, ?_⟩
      rw [hheaders, length_headersEnd]
    · rw [flat_singles, hheaders]
  obtain ⟨body, hbody, hfirst, -⟩ := @readBody_delivered head.contentLength.toNat
    (few ++ full.val) (singles last) (singles_ne_nil last) []
  have hreadBody : readBody head.contentLength.toNat [] (deliver (singles few)
      (deliver (full :: singles last) [streamEnd])) = .ok body := by
    rw [readBody_skip (singles_ne_nil few), flat_singles, List.nil_append, deliver_cons, readBody,
      if_pos]
    · exact (if_neg hfullne).trans hbody
    · omega
    · rw [flat_singles, List.nil_append]
      omega
  refine ⟨arrivals, ⟨head, position + 4, body⟩, hcarried, ?_, ?_⟩
  · have hwhole : headers.take (position + 4) = headers := List.take_of_length_le hheaders.le
    have hnone : headers.drop (position + 4) = [] := List.drop_of_length_le hheaders.le
    rw [receive_of_readHead hread, hwhole, hhead, hnone]
    exact bind_ok_iff.mpr ⟨head, rfl, bind_ok_iff.mpr ⟨body, hreadBody, rfl⟩⟩
  · have hlong := hfirst.length_le
    rw [List.length_append, hfew, hfull] at hlong
    exact hover _ _ hlimit hlong

/-- **For which streams the limit covers the whole request.** -/
theorem size_limited_iff (stream : List UInt8) :
    (∀ arrivals, carried arrivals = stream → ∀ received, receive arrivals = .ok received →
      received.buffered ≤ maxRequest + 4096) ↔ WithinLimit stream := by
  constructor
  · intro hlimited position head hfind hlimit hhead
    by_contra hnot
    obtain ⟨hlen, hcl⟩ := not_or.mp hnot
    obtain ⟨arrivals, received, hcarried, hreceive, hover⟩ :=
      exists_oversized hfind hlimit hhead (Nat.not_le.mp hlen) (Nat.not_le.mp hcl)
    exact absurd (hlimited arrivals hcarried received hreceive) (Nat.not_le.mpr hover)
  · rintro hwithin arrivals rfl received hreceive
    obtain ⟨position, hfind, hlimit, -, hhead, hcame, hbound⟩ := receive_ok hreceive
    rcases hwithin position received.head hfind hlimit hhead with hlen | hcl
    · exact hcame.trans hlen
    · omega

/-- The headers of a request with a body of nine million bytes. -/
def knownHeaders : List UInt8 := utf8 "POST / HTTP/1.1\r\nContent-Length: 9000000\r\n\r\n"

/-- The request, its body in full reads. -/
def knownUpload : List Arrival :=
  deliver (⟨knownHeaders, by decide⟩ ::
    List.replicate 2198 ⟨List.replicate 4096 0, List.length_replicate.le⟩) [streamEnd]

/-- It is read, and all of it is buffered. -/
theorem known_limit_passed :
    ∃ received, receive knownUpload = .ok received ∧
      readRequest knownUpload = .ok received.request ∧
      maxRequest + 4096 < received.buffered := by
  have hfind : find knownHeaders headersEnd = some 40 := by decide
  have hread : ∀ rest, readHead [] (deliver [⟨knownHeaders, by decide⟩] rest) =
      .ok (knownHeaders, 44, rest) := by
    intro rest
    exact @readHead_exact [⟨knownHeaders, by decide⟩]
      (List.forall_mem_singleton.mpr (List.cons_ne_nil _ _)) 40 (by decide) hfind (by decide) rest
  have htext : knownHeaders.take 44 =
      textBytes "POST / HTTP/1.1\r\nContent-Length: 9000000\r\n\r\n".toList := by decide
  have hsome : (parseHead (knownHeaders.take 44)).isSome = true := by
    have htarget : targetOf (knownHeaders.take 44) = "/" := by
      rw [htext, targetOf_textBytes]
      decide +kernel
    have hnone : splitOnce '?' "/" = none := by decide
    rw [parseHead_isSome_iff, htarget, hnone]
    exact fun _ _ h => absurd h.symm (Option.some_ne_none _)
  obtain ⟨head, hhead⟩ := Option.isSome_iff_exists.mp hsome
  have hlength : head.contentLength.toNat = 9000000 := by
    rw [contentLength_of_parseHead hhead, htext, lossy_textBytes]
    decide +kernel
  obtain ⟨body, hbody, -, htake⟩ := @readBody_delivered 9000000 (knownHeaders.drop 44)
    (List.replicate 2198 ⟨List.replicate 4096 0, List.length_replicate.le⟩) (fun c hc => by
      rw [List.eq_of_mem_replicate hc]
      exact List.cons_ne_nil _ _) []
  have hreceive : receive knownUpload = .ok ⟨head, 44, body⟩ := by
    refine (receive_of_readHead (hread _)).trans ?_
    rw [hhead]
    refine bind_ok_iff.mpr ⟨head, rfl, bind_ok_iff.mpr ⟨body, ?_, rfl⟩⟩
    rw [hlength]
    exact hbody
  have hlong : 9000000 ≤ body.length := by
    have hlen := congrArg List.length htake
    have hsent : (knownHeaders.drop 44 ++ flat (List.replicate 2198
        ⟨List.replicate 4096 0, List.length_replicate.le⟩)).length = 2198 * 4096 := by
      rw [List.length_append, flat, List.length_flatMap, List.map_replicate, List.length_replicate,
        List.sum_replicate]
      rfl
    rw [List.length_take, List.length_take, hsent] at hlen
    omega
  refine ⟨⟨head, 44, body⟩, hreceive, by rw [readRequest, hreceive]; rfl, ?_⟩
  rw [buffered_mk]
  exact Nat.lt_of_lt_of_le (by decide) (Nat.add_le_add_left hlong 44)

end Keepstone.Daemon
