/-
# Chunked bodies

A body in chunks is read back: each chunk has its size in hexadecimal digits of either case, with
leading zeros or not, whatever extension behind it, and its data; the chunk of size zero ends the
body and may be followed by header lines. `Chunk` carries what makes it a chunk, `leads_chunk`
reads one of them, `chunked_body` says what a whole body is reported as, and `chunked_request` what
a whole request with such a body is.
-/

import Viking.Http.Heads

namespace Viking.Http

open Execution

/-- The number that hexadecimal digits denote. -/
def chunkNumber (n : ℕ) (digits : Bytes) : ℕ :=
  digits.foldl (fun n c => n * 16 + (hexValue c).getD 0) n

/-- What a line with a size has behind its digits: nothing, or an extension. -/
def IsExtension (text : Bytes) : Prop :=
  ∀ c ∈ text.head?, (c = ascii ';' ∨ c = ascii ' ') ∧ cr ∉ text

instance : DecidablePred IsExtension := fun text =>
  inferInstanceAs (Decidable (∀ c ∈ text.head?, (c = ascii ';' ∨ c = ascii ' ') ∧ cr ∉ text))

/-- A line with the size of a chunk. -/
structure SizeLine (size : ℕ) where
  digits : Bytes
  extension : Bytes
  nonempty : digits ≠ []
  hex : ∀ c ∈ digits, isHex c = true
  denotes : chunkNumber 0 digits = size
  isExtension : IsExtension extension
  /-- no longer than a header may be -/
  short : digits.length + extension.length + 2 ≤ httpMaxHeaderSize

/-- The bytes of the line. -/
def SizeLine.text {size : ℕ} (line : SizeLine size) : Bytes :=
  line.digits ++ line.extension ++ Serializer.crlf

structure Chunk where
  data : Bytes
  nonempty : data ≠ []
  line : SizeLine data.length
  /-- the last few sizes below `2 ^ 64` are refused -/
  small : data.length < 2 ^ 64 - 16

/-- The bytes of a chunk. -/
def Chunk.text (chunk : Chunk) : Bytes := chunk.line.text ++ chunk.data ++ Serializer.crlf

/-- What is reported of a chunk. -/
def Chunk.calls (chunk : Chunk) : List Callback :=
  [.onChunkHeader, .onBody chunk.data, .onChunkComplete]

/-- A body in chunks, with the fields of its trailer. -/
def chunkedText (chunks : List Chunk) (last : SizeLine 0) (trailer : List (Bytes × Bytes)) :
    Bytes :=
  chunks.flatMap Chunk.text ++ last.text ++ trailer.flatMap Serializer.fieldLine ++ Serializer.crlf

/-- What is reported of it. -/
def chunkedCalls (chunks : List Chunk) (trailer : List (Bytes × Bytes)) : List Callback :=
  chunks.flatMap Chunk.calls ++ [.onChunkHeader] ++ trailer.flatMap fieldCalls ++
    [.onChunkComplete, .onMessageComplete]

/-! ## The line with the size -/

section Size

variable {p : HttpParser} {n v : ℕ} {c : Byte} {digits : Bytes} {l : List Callback}

/-- The table of the parser has the hexadecimal digits with their values. -/
theorem unhex_of_isHex (hex : isHex c = true) : unhex c = hexValue c :=
  forall_byte (P := fun c => isHex c = true → unhex c = hexValue c) (by decide +kernel) c hex

theorem le_chunkNumber (n : ℕ) (digits : Bytes) : n ≤ chunkNumber n digits := by
  induction digits generalizing n with
  | nil => exact Nat.le_refl n
  | cons c digits ih =>
    have grown := ih (n * 16 + (hexValue c).getD 0)
    rw [chunkNumber, List.foldl_cons]
    rw [chunkNumber] at grown
    omega

theorem leads_firstDigit (hex : isHex c = true) (room : n < httpMaxHeaderSize) :
    Leads (between p .chunkSizeStart n l)
      (between { p with contentLength := chunkNumber 0 [c] } .chunkSize (n + 1) l) [c] := by
  obtain ⟨v, value⟩ := Option.isSome_iff_exists.mp hex
  refine leads_between rfl room fun k => ?_
  show chunkSizeStart _ c = _
  simp only [chunkSizeStart, unhex_of_isHex hex, value, chunkNumber, List.foldl_cons,
    List.foldl_nil, Option.getD_some, Nat.zero_mul, Nat.zero_add]
  rfl

/-- A digit as long as the size stays below the last few below `2 ^ 64`. -/
theorem leads_digit (hex : isHex c = true) (room : n < httpMaxHeaderSize)
    (small : chunkNumber v [c] < 2 ^ 64 - 16) :
    Leads (between { p with contentLength := v } .chunkSize n l)
      (between { p with contentLength := chunkNumber v [c] } .chunkSize (n + 1) l) [c] := by
  have other : c ≠ cr := by
    rintro rfl
    exact absurd hex (by decide)
  obtain ⟨d, value⟩ := Option.isSome_iff_exists.mp hex
  have next : chunkNumber v [c] = v * 16 + d := by
    rw [chunkNumber, List.foldl_cons, List.foldl_nil, value, Option.getD_some]
  have fits : ¬ (ullongMax - 16) / 16 < v := by
    rw [ullongMax]
    omega
  refine leads_between rfl room fun k => ?_
  show chunkSize _ c = _
  rw [chunkSize, if_neg other, unhex_of_isHex hex, value]
  refine (if_neg fits).trans ?_
  rw [next]
  rfl

theorem leads_digits (hex : ∀ c ∈ digits, isHex c = true)
    (room : n + digits.length ≤ httpMaxHeaderSize) (small : chunkNumber v digits < 2 ^ 64 - 16) :
    Leads (between { p with contentLength := v } .chunkSize n l)
      (between { p with contentLength := chunkNumber v digits } .chunkSize (n + digits.length)
        l) digits := by
  induction digits generalizing n v with
  | nil => exact .refl _
  | cons c digits ih =>
    rw [List.forall_mem_cons] at hex
    rw [List.length_cons] at room
    have first : chunkNumber v (c :: digits) = chunkNumber (chunkNumber v [c]) digits := rfl
    have grows := le_chunkNumber (chunkNumber v [c]) digits
    rw [first] at small ⊢
    have one := leads_digit (p := p) (l := l) hex.1 (show n < _ by omega)
      (show chunkNumber v [c] < _ by omega)
    have more := ih (n := n + 1) hex.2 (by omega) small
    rw [List.length_cons, ← Nat.add_assoc, Nat.add_right_comm]
    exact one.trans more

/-- An extension is passed over. -/
theorem leads_parameters {text : Bytes} (line : cr ∉ text)
    (room : n + text.length ≤ httpMaxHeaderSize) :
    Leads (between p .chunkParameters n l) (between p .chunkParameters (n + text.length) l)
      text := by
  induction text generalizing n with
  | nil => exact .refl _
  | cons c text ih =>
    rw [List.mem_cons, not_or] at line
    rw [List.length_cons] at room
    have one : Leads (between p .chunkParameters n l)
        (between p .chunkParameters (n + 1) l) [c] := by
      refine leads_between rfl (by omega) fun k => ?_
      exact if_neg (Ne.symm line.1)
    rw [List.length_cons, ← Nat.add_assoc, Nat.add_right_comm]
    exact one.trans (ih line.2 (by omega))

/-- The extension, if there is one, and the carriage return. -/
theorem leads_extension {text : Bytes} (extension : IsExtension text)
    (room : n + text.length < httpMaxHeaderSize) :
    Leads (between p .chunkSize n l)
      (between p .chunkSizeAlmostDone (n + text.length + 1) l) (text ++ [cr]) := by
  cases text with
  | nil => exact leads_between rfl room fun _ => rfl
  | cons c text =>
    obtain ⟨starts, line⟩ := extension c rfl
    rw [List.mem_cons, not_or] at line
    rw [List.length_cons] at room ⊢
    have one : Leads (between p .chunkSize n l) (between p .chunkParameters (n + 1) l)
        [c] := by
      have digit : unhex c = none := by
        rcases starts with rfl | rfl <;> decide
      refine leads_between rfl (by omega) fun k => ?_
      show chunkSize _ c = _
      rw [chunkSize, if_neg (Ne.symm line.1), digit]
      exact if_pos starts
    have rest := leads_parameters (p := p) (l := l) (n := n + 1) line.2 (by omega)
    have ends : Leads (between p .chunkParameters (n + 1 + text.length) l)
        (between p .chunkSizeAlmostDone (n + 1 + text.length + 1) l) [cr] :=
      leads_between rfl (by omega) fun _ => rfl
    have sum : n + (text.length + 1) + 1 = n + 1 + text.length + 1 := by omega
    rw [sum]
    exact (one.trans rest).trans ends

/-- The line up to its carriage return sets the length of what follows. -/
theorem leads_size {size : ℕ} (line : SizeLine size) (small : size < 2 ^ 64 - 16) :
    Leads (between p .chunkSizeStart 0 l)
      (between { p with contentLength := size } .chunkSizeAlmostDone
        (line.digits.length + line.extension.length + 1) l)
      (line.digits ++ (line.extension ++ [cr])) := by
  obtain ⟨digits, extension, nonempty, hex, denotes, isExtension, short⟩ := line
  subst denotes
  obtain ⟨c, digits, rfl⟩ := List.exists_cons_of_ne_nil nonempty
  rw [List.forall_mem_cons] at hex
  simp only [List.length_cons] at short ⊢
  have first := leads_firstDigit (p := p) (n := 0) (l := l) hex.1 (by decide)
  have rest := leads_digits (p := p) (n := 1) (l := l) (v := chunkNumber 0 [c]) hex.2
    (by omega) small
  have behind := leads_extension (p := { p with contentLength := chunkNumber 0 (c :: digits) })
    (n := 1 + digits.length) (l := l) isExtension (by omega)
  have sum : digits.length + 1 + extension.length + 1 =
      1 + digits.length + extension.length + 1 := by omega
  rw [sum]
  exact (first.trans rest).trans behind

end Size

/-! ## A chunk -/

section Chunks

variable {p : HttpParser} {n : ℕ} {l : List Callback}

/-- The data of a chunk, part of which has been read. -/
theorem foldl_chunkRest {rest t : Bytes} (nonempty : rest ≠ []) (k : ℕ) : ∃ k', rest.foldl step
    (within { p with contentLength := rest.length } .chunkData 0 .body t l k) =
      within { p with contentLength := 0 } .chunkDataAlmostDone 0 .body (t ++ rest) l k' := by
  induction rest generalizing t k with
  | nil => exact absurd rfl nonempty
  | cons c rest ih =>
    rw [List.foldl_cons]
    cases rest with
    | nil => exact ⟨k + 1, rfl⟩
    | cons d rest =>
      obtain ⟨k', read⟩ := ih (t := t ++ [c]) (List.cons_ne_nil d rest) (k + 1)
      refine ⟨k', ?_⟩
      rw [List.append_assoc, List.singleton_append] at read
      rw [← read]
      rfl

theorem leads_data {data : Bytes} (nonempty : data ≠ []) :
    Leads (between { p with contentLength := data.length } .chunkData 0 l)
      (between { p with contentLength := 0 } .chunkSizeStart 0
        (l ++ [.onBody data, .onChunkComplete])) (data ++ Serializer.crlf) := by
  intro k
  obtain ⟨k', read⟩ := foldl_chunkRest (p := p) (l := l) (t := []) nonempty k
  refine ⟨k' + 2, ?_⟩
  have first : data.foldl step
      (between { p with contentLength := data.length } .chunkData 0 l k) =
      within { p with contentLength := 0 } .chunkDataAlmostDone 0 .body data l k' := by
    rw [List.nil_append] at read
    rw [← read]
    cases data with
    | nil => exact absurd rfl nonempty
    | cons c data => rfl
  rw [List.foldl_append, first, List.append_cons]
  rfl

/-- The line feed behind a size opens the data, or the trailer. -/
theorem leads_sizeEnd (room : n < httpMaxHeaderSize) :
    Leads (between p .chunkSizeAlmostDone n l)
      (if p.contentLength = 0 then
        between { p with flags := { p.flags with trailing := true } } .headerFieldStart 0
          (l ++ [.onChunkHeader])
      else between p .chunkData 0 (l ++ [.onChunkHeader])) [lf] := by
  split_ifs with zero
  · refine leads_between rfl room fun k => ?_
    show chunkSizeAlmostDone _ lf = _
    simp only [chunkSizeAlmostDone, between, zero, notify, ne_eq, not_true_eq_false, if_false,
      if_true]
  · refine leads_between rfl room fun k => ?_
    show chunkSizeAlmostDone _ lf = _
    simp only [chunkSizeAlmostDone, between, zero, notify, ne_eq, not_true_eq_false, if_false]

theorem SizeLine.text_eq {size : ℕ} (line : SizeLine size) :
    line.text = line.digits ++ (line.extension ++ [cr]) ++ [lf] := by
  simp only [SizeLine.text, List.append_assoc]
  rfl

theorem leads_chunk (chunk : Chunk) :
    Leads (between p .chunkSizeStart 0 l)
      (between { p with contentLength := 0 } .chunkSizeStart 0 (l ++ chunk.calls))
      chunk.text := by
  obtain ⟨data, nonempty, line, small⟩ := chunk
  have short := line.short
  have size := leads_size (p := p) (l := l) line small
  have ends := leads_sizeEnd (p := { p with contentLength := data.length })
    (n := line.digits.length + line.extension.length + 1) (l := l) (by omega)
  rw [if_neg (fun none => nonempty (List.length_eq_zero_iff.mp none))] at ends
  have body := leads_data (p := p) (l := l ++ [.onChunkHeader]) nonempty
  rw [Chunk.text, SizeLine.text_eq, Chunk.calls, List.append_assoc _ data]
  rw [List.append_assoc] at body
  exact (size.trans ends).trans body

theorem leads_chunks (chunks : List Chunk) :
    ∃ v, Leads (between p .chunkSizeStart 0 l)
      (between { p with contentLength := v } .chunkSizeStart 0
        (l ++ chunks.flatMap Chunk.calls)) (chunks.flatMap Chunk.text) := by
  induction chunks generalizing p l with
  | nil => exact ⟨p.contentLength, by simpa using Leads.refl (between p .chunkSizeStart 0 l)⟩
  | cons chunk chunks ih =>
    obtain ⟨v, rest⟩ := ih (p := { p with contentLength := 0 }) (l := l ++ chunk.calls)
    refine ⟨v, ?_⟩
    rw [List.flatMap_cons, List.flatMap_cons, ← List.append_assoc]
    exact (leads_chunk chunk).trans rest

/-! ## The end of the body -/

theorem leads_last (last : SizeLine 0) :
    Leads (between p .chunkSizeStart 0 l)
      (between { p with contentLength := 0, flags := { p.flags with trailing := true } }
        .headerFieldStart 0 (l ++ [.onChunkHeader])) last.text := by
  have short := last.short
  have size := leads_size (p := p) (l := l) last (by decide)
  have ends := leads_sizeEnd (p := { p with contentLength := 0 })
    (n := last.digits.length + last.extension.length + 1) (l := l) (by omega)
  rw [if_pos rfl] at ends
  rw [SizeLine.text_eq]
  exact size.trans ends

/-- The empty line behind the trailer ends the message. -/
theorem foldl_trailerEnd {e : Execution} (trailing : p.flags.trailing = true)
    (upgrade : p.upgrade = false) (ready : Ready e (between p .headerFieldStart n l))
    (room : n + 2 ≤ httpMaxHeaderSize) : ∃ k, Serializer.crlf.foldl step e =
      between p (newMessage p) (n + 2) (l ++ [.onChunkComplete, .onMessageComplete]) k := by
  have first : Leads (between p .headerFieldStart n l)
      (between p .headersAlmostDone (n + 1) l) [cr] :=
    leads_between rfl (by omega) fun _ => rfl
  have second : Leads (between p .headersAlmostDone (n + 1) l)
      (between p (newMessage p) (n + 2) (l ++ [.onChunkComplete, .onMessageComplete]))
      [lf] := by
    refine leads_between rfl (by omega) fun k => ?_
    show headersAlmostDone _ lf = _
    simp only [headersAlmostDone, between, trailing, messageDone, completeMessage, updateState,
      notify, upgrade, ne_eq, not_true_eq_false, if_false, if_true, Bool.false_eq_true,
      List.append_assoc]
    rfl
  have plain : cr ≠ ascii ' ' ∧ cr ≠ ascii '\t' := by decide
  exact ready.leads (first.trans second) plain.1 plain.2

/-- A whole body in chunks. -/
theorem foldl_chunkedText (chunks : List Chunk) (last : SizeLine 0)
    {trailer : List (Bytes × Bytes)} (upgrade : p.upgrade = false)
    (acceptable : ∀ field ∈ trailer, Acceptable field)
    (room : (trailer.flatMap Serializer.fieldLine).length + 2 ≤ httpMaxHeaderSize) (k : ℕ) :
    ∃ q n k', (chunkedText chunks last trailer).foldl step (between p .chunkSizeStart 0 l k) =
        between q (newMessage q) n (l ++ chunkedCalls chunks trailer) k' ∧
      q.httpErrno = p.httpErrno := by
  let lines : Bytes := trailer.flatMap Serializer.fieldLine
  obtain ⟨v, data⟩ := leads_chunks (p := p) (l := l) chunks
  obtain ⟨k, led⟩ := (data.trans (leads_last (p := { p with contentLength := v }) last)) k
  let body : Bytes := chunks.flatMap Chunk.text ++ last.text
  have ready : Ready (body.foldl step (between p .chunkSizeStart 0 l _)) _ :=
    fun c _ _ => ⟨k, by rw [led]⟩
  -- the trailer is read as the fields of a head are
  obtain ⟨q, framing, -, ready'⟩ := foldl_fieldLines acceptable ready (by omega)
  have trailing : q.flags.trailing = true := congrArg (fun p => p.flags.trailing) framing
  have upgrade' : q.upgrade = false := (congrArg HttpParser.upgrade framing).trans upgrade
  have errno := congrArg HttpParser.httpErrno framing
  obtain ⟨k', ended⟩ := foldl_trailerEnd trailing upgrade' ready' (by omega)
  refine ⟨q, 0 + lines.length + 2, k', ?_, errno⟩
  rw [chunkedText, List.foldl_append, List.foldl_append, ended]
  simp only [chunkedCalls, List.append_assoc, lines]

/-- A body in chunks is read back, from every parser that is where it begins: the data of each
chunk, the fields of the trailer, and the end of the message. -/
theorem chunked_body {chunks : List Chunk} {last : SizeLine 0} {trailer : List (Bytes × Bytes)}
    (ok : p.httpErrno = .ok) (state : p.state = .chunkSizeStart) (fresh : p.nread = 0)
    (upgrade : p.upgrade = false) (acceptable : ∀ field ∈ trailer, Acceptable field)
    (room : (trailer.flatMap Serializer.fieldLine).length + 2 ≤ httpMaxHeaderSize) :
    let run := httpParserExecute p (chunkedText chunks last trailer)
    run.callbacks = chunkedCalls chunks trailer ∧ run.parser.httpErrno = .ok ∧
      run.parser.state = newMessage run.parser := by
  have start : ({ parser := p, marked := (initialMark p.state).map fun m => (m, []) } : Execution) =
      between p .chunkSizeStart 0 [] 0 := by
    rw [state]
    cases p
    cases state
    cases fresh
    rfl
  obtain ⟨q, n, k, read, errno⟩ := foldl_chunkedText chunks last (l := []) upgrade
    acceptable room 0
  have nonempty : chunkedText chunks last trailer ≠ [] := by
    refine fun none => ?_
    have length := congrArg List.length none
    rw [chunkedText, List.length_append] at length
    exact absurd length (Nat.succ_ne_zero _)
  have run : httpParserExecute p (chunkedText chunks last trailer) =
      (between q (newMessage q) n (chunkedCalls chunks trailer) k).finish := by
    rw [httpParserExecute, if_neg (not_not.mpr ok), if_neg nonempty]
    dsimp only
    rw [start, read, List.nil_append]
  dsimp only
  rw [run]
  exact ⟨rfl, errno.trans ok, rfl⟩

/-- Two chunks, with an extension behind the second size. -/
def greetingChunks : List Chunk :=
  [{ data := bytes "hello"
     nonempty := by decide
     line := ⟨bytes "05", [], by decide, by decide +kernel, by decide, by decide +kernel,
       by decide⟩
     small := by decide },
   { data := bytes ", everybody"
     nonempty := by decide
     line := ⟨bytes "b", bytes ";a=b", by decide, by decide +kernel, by decide,
       by decide +kernel, by decide⟩
     small := by decide }]

/-- The line behind the last of them. -/
def greetingEnd : SizeLine 0 :=
  ⟨bytes "0", bytes " ", by decide, by decide +kernel, by decide, by decide +kernel, by decide⟩

/-- The parser behind the head of a request with a chunked body. -/
def beforeChunks : HttpParser :=
  (httpParserExecute httpParserInit
    (bytes "PUT / HTTP/1.1\r\nTransfer-Encoding: chunked\r\n\r\n")).parser

theorem chunked_body_greeting :
    let run := httpParserExecute beforeChunks
      (chunkedText greetingChunks greetingEnd [(bytes "x", bytes "y")])
    run.callbacks = chunkedCalls greetingChunks [(bytes "x", bytes "y")] ∧
      run.parser.httpErrno = .ok ∧ run.parser.state = newMessage run.parser :=
  chunked_body (by decide +kernel) (by decide +kernel) (by decide +kernel) (by decide +kernel)
    (fun _ mem => by
      cases List.mem_singleton.mp mem
      exact ⟨by decide, by decide +kernel, by decide +kernel, by decide +kernel, by decide,
        by decide, by decide⟩)
    (by decide)

/-! ## A request with such a body -/

/-- The field that announces a body in chunks. -/
def chunkedField : Bytes × Bytes := (bytes "Transfer-Encoding", bytes "chunked")

theorem leads_codingStart (coding : p.headerState = .transferEncoding)
    (room : n < httpMaxHeaderSize) : Leads (between p .headerValueDiscardWs n l)
      (within { p with headerState := .matchingTransferEncodingChunked, index := 0 } .headerValue
        (n + 1) .headerValue [ascii 'c'] l) [ascii 'c'] := by
  refine leads_open rfl room fun k => ?_
  show headerValueStart _ (ascii 'c') = _
  simp only [headerValueStart, between, mark, coding]
  rfl

/-- A value that has spelled some letters of the coding, inside its loop. -/
def spelling (p : HttpParser) (s : HeaderState) (i n : ℕ) (t : Bytes) (l : List Callback)
    (r k : ℕ) : Execution :=
  { parser := { p with headerState := s, index := i, state := .headerValue, nread := n }
    marked := some (.headerValue, t), callbacks := l, parsed := k
    inner := some (.headerValue r) }

/-- A letter of the coding. -/
theorem step_letter {s : HeaderState} {i r : ℕ} {t : Bytes} {c : Byte} (k : ℕ)
    (plain : ¬ (c = cr ∨ c = lf))
    (letter : (matchText (bytes "chunked") .general .transferEncodingChunked
      { headerState := .matchingTransferEncodingChunked, index := i } (lower c)).headerState = s)
    (next : (matchText (bytes "chunked") .general .transferEncodingChunked
      { headerState := .matchingTransferEncodingChunked, index := i } (lower c)).index = i + 1) :
    (spelling p .matchingTransferEncodingChunked i n t l r k).step c =
      spelling p s (i + 1) n (t ++ [c]) l (r + 1) (k + 1) := by
  let q : HttpParser := { p with
    headerState := .matchingTransferEncodingChunked, index := i, state := .headerValue, nread := n }
  have same : Matches { headerState := .matchingTransferEncodingChunked, index := i } q :=
    ⟨rfl, rfl⟩
  have matched := matchText_matches same (bytes "chunked") .general .transferEncodingChunked
    (lower c)
  have read : headerValueByte (spelling p .matchingTransferEncodingChunked i n t l r k).parser c =
      some { q with headerState := s, index := i + 1 } := by
    show some (matchText (bytes "chunked") .general .transferEncodingChunked q (lower c)) = _
    rw [matchText_frame, matched.1, matched.2, letter, next]
  have loop : (spelling p .matchingTransferEncodingChunked i n t l r k).consume c =
      spelling p s (i + 1) n t l (r + 1) k := by
    show headerValueLoop _ c r = _
    rw [headerValueLoop, if_neg plain, if_neg (by simp [spelling])]
    rw [read]
    rfl
  rw [step_consumed rfl loop rfl]
  rfl

/-- The loop of the value begins at its second letter. -/
theorem foldl_letters (room : n < httpMaxHeaderSize) (k : ℕ) :
    (bytes "hunked").foldl step
      (within { p with headerState := .matchingTransferEncodingChunked, index := 0 } .headerValue
        n .headerValue [ascii 'c'] l k) =
      spelling p .transferEncodingChunked 6 (n + 1) (bytes "chunked") l 6 (k + 6) := by
  have first : (within { p with headerState := .matchingTransferEncodingChunked, index := 0 }
      .headerValue n .headerValue [ascii 'c'] l k).step (ascii 'h') =
      spelling p .matchingTransferEncodingChunked 1 (n + 1) [ascii 'c', ascii 'h'] l 1 (k + 1) :=
    step_head rfl rfl rfl room rfl rfl
  have letters : bytes "hunked" =
      [ascii 'h', ascii 'u', ascii 'n', ascii 'k', ascii 'e', ascii 'd'] := rfl
  rw [letters, List.foldl_cons, first, List.foldl_cons,
    step_letter (s := .matchingTransferEncodingChunked) _ (by decide) (by decide) (by decide),
    List.foldl_cons,
    step_letter (s := .matchingTransferEncodingChunked) _ (by decide) (by decide) (by decide),
    List.foldl_cons,
    step_letter (s := .matchingTransferEncodingChunked) _ (by decide) (by decide) (by decide),
    List.foldl_cons,
    step_letter (s := .matchingTransferEncodingChunked) _ (by decide) (by decide) (by decide),
    List.foldl_cons,
    step_letter (s := .transferEncodingChunked) _ (by decide) (by decide) (by decide)]
  rfl

/-- The end of the line charges for the letters of the loop. -/
theorem step_spelled (room : n + 7 ≤ httpMaxHeaderSize) (k : ℕ) :
    (spelling p .transferEncodingChunked 6 (n + 1) (bytes "chunked") l 6 k).step cr =
      between { p with headerState := .transferEncodingChunked, index := 6 } .headerAlmostDone
        (n + 7) (l ++ [.onHeaderValue (bytes "chunked")]) (k + 1) := by
  have small : (n + 1 + 6) % 2 ^ 32 = n + 7 := by
    rw [httpMaxHeaderSize] at room
    omega
  have fits : ¬ n + 7 > httpMaxHeaderSize := by omega
  have ended : (spelling p .transferEncodingChunked 6 (n + 1) (bytes "chunked") l 6 k).consume cr =
      between { p with headerState := .transferEncodingChunked, index := 6 } .headerAlmostDone
        (n + 7) (l ++ [.onHeaderValue (bytes "chunked")]) k := by
    show headerValueLoop _ cr 6 = _
    simp only [headerValueLoop, headerValueEnd, true_or, if_true, callbackData, updateState, notify,
      countHeaderSize, spelling, small, Mark.callback, if_neg fits]
    rfl
  rw [step_consumed rfl ended rfl]
  rfl

/-- The value of the field, from the blank before it. -/
theorem foldl_coding (coding : p.headerState = .transferEncoding)
    (room : n + 10 ≤ httpMaxHeaderSize) (k : ℕ) : ∃ k',
      (bytes " chunked\r\n").foldl step (between p .headerValueDiscardWs n l k) =
        between { p with headerState := .transferEncodingChunked, index := 6 } .headerValueLws
          (n + 10) (l ++ [.onHeaderValue (bytes "chunked")]) k' := by
  have opened := (leads_blank p l (show n < _ by omega)).trans
    (leads_codingStart (n := n + 1) (l := l) coding (by omega))
  obtain ⟨k₁, led⟩ := opened k
  have last : Leads (between { p with headerState := .transferEncodingChunked, index := 6 }
      .headerAlmostDone (n + 9) (l ++ [.onHeaderValue (bytes "chunked")]))
      (between { p with headerState := .transferEncodingChunked, index := 6 } .headerValueLws
        (n + 10) (l ++ [.onHeaderValue (bytes "chunked")])) [lf] :=
    leads_between rfl (by omega) fun _ => rfl
  obtain ⟨k', closed⟩ := last (k₁ + 6 + 1)
  have parts : bytes " chunked\r\n" =
      ([ascii ' '] ++ [ascii 'c']) ++ (bytes "hunked" ++ cr :: [lf]) := rfl
  have looped := foldl_letters (p := p) (l := l) (show n + 1 + 1 < _ by omega) k₁
  have ended := step_spelled (p := p) (n := n + 1 + 1) (l := l) (by omega) (k₁ + 6)
  refine ⟨k', ?_⟩
  rw [parts, List.foldl_append, led, List.foldl_append, looped, List.foldl_cons, ended, closed]

/-- The line of the field sets the coding. -/
theorem foldl_chunkedField {e : Execution} (ready : Ready e (between p .headerFieldStart n l))
    (room : n + (Serializer.fieldLine chunkedField).length < httpMaxHeaderSize) :
    ∃ q, q.framing = { p with flags := { p.flags with chunked := true } }.framing ∧
      Ready ((Serializer.fieldLine chunkedField).foldl step e)
        (between q .headerFieldStart (n + (Serializer.fieldLine chunkedField).length)
          (l ++ fieldCalls chunkedField)) := by
  have line : Serializer.fieldLine chunkedField =
      (bytes "Transfer-Encoding" ++ [ascii ':']) ++ bytes " chunked\r\n" := rfl
  have length : (Serializer.fieldLine chunkedField).length = 28 := rfl
  rw [length] at room ⊢
  have nonempty : bytes "Transfer-Encoding" ≠ [] := by decide
  have named : Leads (between p .headerFieldStart n l) _ _ :=
    leads_name nonempty (by decide +kernel)
      (show n + 17 + 1 ≤ _ by omega)
  obtain ⟨k, opened⟩ := ready.leads named (by decide) (by decide)
  have opened' : (bytes "Transfer-Encoding" ++ [ascii ':']).foldl step e =
      between (readName p (bytes "Transfer-Encoding")) .headerValueDiscardWs (n + 18)
        (l ++ [.onHeaderField (bytes "Transfer-Encoding")]) k := opened
  have coding : (readName p (bytes "Transfer-Encoding")).headerState = .transferEncoding := by
    rw [readName_eq p nonempty]
    show (readName {} (bytes "Transfer-Encoding")).headerState = _
    decide +kernel
  obtain ⟨k', read⟩ := foldl_coding (n := n + 18)
    (l := l ++ [.onHeaderField (bytes "Transfer-Encoding")]) coding (by omega) k
  refine ⟨lineFlag { readName p (bytes "Transfer-Encoding") with
      headerState := .transferEncodingChunked, index := 6 }, ?_, ?_⟩
  · rw [readName_eq p nonempty]
    rfl
  · rw [line, List.foldl_append, opened', read, List.append_assoc]
    exact ready_lws room k'

/-- The empty line behind a head with that field is where the body begins. -/
theorem foldl_chunkedEnd {e : Execution}
    (simple : Simple { p with flags := { p.flags with chunked := false } })
    (chunked : p.flags.chunked = true) (ready : Ready e (between p .headerFieldStart n l))
    (room : n + 2 ≤ httpMaxHeaderSize) : ∃ k, [cr, lf].foldl step e =
      between { p with upgrade := false } .chunkSizeStart 0 (l ++ [headerCall p]) k := by
  have trailing : p.flags.trailing = false := simple.trailing
  have skipBody : p.flags.skipBody = false := simple.skipBody
  have upgrade : p.flags.upgrade = false := simple.upgrade
  have method : p.method ≠ .connect := simple.method
  have first : Leads (between p .headerFieldStart n l) (between p .headersAlmostDone (n + 1) l)
      [cr] := leads_between rfl (by omega) fun _ => rfl
  have second : Leads (between p .headersAlmostDone (n + 1) l)
      (between { p with upgrade := false } .chunkSizeStart 0 (l ++ [headerCall p])) [lf] := by
    refine leads_between rfl (by omega) fun k => ?_
    show headersAlmostDone _ lf = _
    simp only [headersAlmostDone, headersDone, between, trailing, chunked, skipBody, upgrade,
      method, notify, updateState, ne_eq, not_true_eq_false, Bool.false_eq_true, Bool.false_and,
      Bool.false_or, decide_false, false_and, if_false, if_true]
    rfl
  have plain : cr ≠ ascii ' ' ∧ cr ≠ ascii '\t' := by decide
  exact ready.leads (first.trans second) plain.1 plain.2

/-- A request whose body is in chunks is read back, whatever fields its head has besides. -/
theorem chunked_request {hm : HttpMethod} {target : Bytes} (before after : List (Bytes × Bytes))
    (chunks : List Chunk) (last : SizeLine 0) {trailer : List (Bytes × Bytes)}
    (spelled : hm ≠ .msearch) (other : hm ≠ .connect)
    (accepted : (target.foldl parseUrlChar .reqSpacesBeforeUrl).endsTarget = true)
    (acceptable : ∀ field ∈ before ++ after ++ trailer, Acceptable field)
    (room : (requestHead hm target (before ++ chunkedField :: after)).length ≤ httpMaxHeaderSize)
    (roomBehind : (trailer.flatMap Serializer.fieldLine).length + 2 ≤ httpMaxHeaderSize) :
    let run := httpParserExecute httpParserInit
      (requestHead hm target (before ++ chunkedField :: after) ++ chunkedText chunks last trailer)
    run.callbacks = headCalls target (before ++ chunkedField :: after) ++
        [.onHeadersComplete 1 1 hm] ++ chunkedCalls chunks trailer ∧
      run.parser.httpErrno = .ok ∧ run.parser.state = newMessage run.parser := by
  simp only [List.forall_mem_append] at acceptable
  obtain ⟨⟨acceptable, acceptable'⟩, acceptable''⟩ := acceptable
  let line : Bytes := requestLine hm target
  let lines : Bytes := before.flatMap Serializer.fieldLine
  let lines' : Bytes := after.flatMap Serializer.fieldLine
  let coding : Bytes := Serializer.fieldLine chunkedField
  have whole : requestHead hm target (before ++ chunkedField :: after) =
      line ++ lines ++ coding ++ lines' ++ [cr, lf] := by
    show line ++ (before ++ chunkedField :: after).flatMap Serializer.fieldLine ++ [cr, lf] = _
    simp only [List.flatMap_append, List.flatMap_cons, List.append_assoc, lines, lines', coding]
  rw [whole] at room ⊢
  simp only [List.length_append, List.length_cons, List.length_nil] at room
  let p : HttpParser := { methodRead hm with httpMajor := 1, httpMinor := 1 }
  obtain ⟨k, started⟩ := foldl_requestLine spelled other accepted (show line.length ≤ _ by omega)
  have ready : Ready (line.foldl step { parser := httpParserInit })
      (between p .headerFieldStart line.length [.onMessageBegin, .onUrl target]) :=
    fun c _ _ => ⟨k, by rw [started]⟩
  obtain ⟨q, framing, -, ready⟩ := foldl_fieldLines acceptable ready
    (show line.length + lines.length < _ by omega)
  obtain ⟨q', framing', ready⟩ := foldl_chunkedField ready
    (show line.length + lines.length + coding.length < _ by omega)
  obtain ⟨q'', framing'', -, ready⟩ := foldl_fieldLines acceptable' ready
    (show line.length + lines.length + coding.length + lines'.length < _ by omega)
  have same : q''.framing = { p with flags := { p.flags with chunked := true } }.framing := by
    have set := congrArg
      (fun r : HttpParser => { r with flags := { r.flags with chunked := true } }) framing
    exact framing''.trans (framing'.trans set)
  have simple : Simple { q'' with flags := { q''.flags with chunked := false } } := by
    have unset := congrArg
      (fun r : HttpParser => { r with flags := { r.flags with chunked := false } }) same
    exact Simple.of_framing (p := p) ⟨rfl, rfl, rfl, rfl, other⟩ unset
  have chunked : q''.flags.chunked = true := congrArg (fun r => r.flags.chunked) same
  have errno : q''.httpErrno = .ok := congrArg HttpParser.httpErrno same
  have call : headerCall q'' = .onHeadersComplete 1 1 hm := congrArg headerCall same
  obtain ⟨k₁, ended⟩ := foldl_chunkedEnd simple chunked ready (by omega)
  rw [call] at ended
  obtain ⟨r, n, k₂, read, errno'⟩ := foldl_chunkedText chunks last
    (p := { q'' with upgrade := false })
    (l := headCalls target (before ++ chunkedField :: after) ++ [.onHeadersComplete 1 1 hm]) rfl
    acceptable'' roomBehind k₁
  have calls : [.onMessageBegin, .onUrl target] ++ before.flatMap fieldCalls ++
      fieldCalls chunkedField ++ after.flatMap fieldCalls =
        headCalls target (before ++ chunkedField :: after) := by
    simp only [headCalls, List.flatMap_append, List.flatMap_cons, List.append_assoc]
  rw [calls] at ended
  rw [httpParserExecute_init, scan, List.foldl_append, List.foldl_append, List.foldl_append,
    List.foldl_append, List.foldl_append]
  rw [ended, read]
  exact ⟨rfl, errno'.trans errno, rfl⟩

theorem chunked_request_greeting :
    let before := [(bytes "Host", bytes "a")]
    let after := [(bytes "Content-Length", bytes "3")]
    let trailer := [(bytes "x", bytes "y")]
    let run := httpParserExecute httpParserInit
      (requestHead .put (bytes "/") (before ++ chunkedField :: after) ++
        chunkedText greetingChunks greetingEnd trailer)
    run.callbacks = headCalls (bytes "/") (before ++ chunkedField :: after) ++
        [.onHeadersComplete 1 1 .put] ++ chunkedCalls greetingChunks trailer ∧
      run.parser.httpErrno = .ok ∧ run.parser.state = newMessage run.parser := by
  intro before after trailer
  have acceptable : ∀ field ∈ before ++ after ++ trailer, Acceptable field := by
    intro field mem
    simp only [before, after, trailer, List.cons_append, List.nil_append, List.mem_cons,
      List.not_mem_nil, or_false] at mem
    rcases mem with rfl | rfl | rfl <;>
      exact ⟨by decide, by decide +kernel, by decide +kernel, by decide +kernel, by decide,
        by decide, by decide +kernel⟩
  exact chunked_request before after greetingChunks greetingEnd (by decide) (by decide)
    (by decide +kernel) acceptable (by decide +kernel) (by decide +kernel)

end Chunks

end Viking.Http
