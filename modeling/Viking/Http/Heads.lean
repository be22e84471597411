/-
# Reading a head

What the parser makes of the head of a request that is written as it should be: the names and
the values of its fields are reported, line by line, and the head ends where the body begins
or where the message does. A content length is read as a number, and no other field but a
transfer coding and an upgrade means anything to the framing.
-/

import Viking.Http.KnownNames
import Viking.Http.Fields
import Viking.Http.RequestLine

namespace Viking.Http

open Execution

/-! ## The name of a field -/

section Name

variable {p : HttpParser} {n : ℕ} {c : Byte} {name : Bytes} {calls : List Callback}

/-- Inside the loop over a name, of which `read` bytes are not charged yet. -/
def naming (p : HttpParser) (n read : ℕ) (t : Bytes) (calls : List Callback) (k : ℕ) : Execution :=
  { parser := { p with state := .headerField, nread := n }
    inner := some (.headerField read), marked := some (.headerField, t)
    callbacks := calls, parsed := k }

/-- The state and the count are not looked at when a name is compared. -/
theorem headerFieldByte_set (p : HttpParser) (s : State) (n : ℕ) (c : Byte) :
    headerFieldByte { p with state := s, nread := n } c =
      { headerFieldByte p c with state := s, nread := n } := by
  have same : Matches p { p with state := s, nread := n } := ⟨rfl, rfl⟩
  obtain ⟨state, index⟩ := headerFieldByte_matches same c
  rw [headerFieldByte_frame { p with state := s, nread := n } c, headerFieldByte_frame p c, state,
    index]

theorem leads_naming {read : ℕ} {t : Bytes} (valid : IsToken name) :
    Leads (naming p n read t calls)
      (naming (name.foldl headerFieldByte p) n (read + name.length) (t ++ name) calls) name := by
  induction name generalizing p read t with
  | nil =>
    rw [List.append_nil]
    exact Leads.refl _
  | cons c name ih =>
    rw [IsToken, List.forall_mem_cons] at valid
    have first : Leads (naming p n read t calls)
        (naming (headerFieldByte p c) n (read + 1) (t ++ [c]) calls) [c] := by
      intro k
      refine ⟨k + 1, ?_⟩
      have consumed : (naming p n read t calls k).consume c =
          naming (headerFieldByte p c) n (read + 1) t calls k := by
        show headerFieldLoop _ c read = _
        rw [headerFieldLoop, if_neg valid.1, naming, headerFieldByte_set]
        rfl
      rw [List.foldl_cons, List.foldl_nil, step, consumed]
      rfl
    have rest : Leads (naming (headerFieldByte p c) n (read + 1) (t ++ [c]) calls) _ name :=
      ih valid.2
    have whole := first.trans rest
    rw [List.append_assoc, Nat.add_assoc, Nat.add_comm 1] at whole
    exact whole

/-- The colon behind a name: what the loop has read is charged, and the name is reported. -/
theorem leads_namingEnd {read : ℕ} {t : Bytes} (room : n + read ≤ httpMaxHeaderSize) :
    Leads (naming p n read t calls)
      (between p .headerValueDiscardWs (n + read) (calls ++ [.onHeaderField t])) [ascii ':'] := by
  intro k
  refine ⟨k + 1, ?_⟩
  have small : (n + read) % 2 ^ 32 = n + read := by
    rw [httpMaxHeaderSize] at room
    omega
  have consumed : (naming p n read t calls k).consume (ascii ':') =
      between p .headerValueDiscardWs (n + read) (calls ++ [.onHeaderField t]) k := by
    show headerFieldLoop _ (ascii ':') read = _
    rw [headerFieldLoop, if_pos (by decide)]
    simp only [countHeaderSize, naming, small]
    rw [if_neg (by omega)]
    rfl
  rw [List.foldl_cons, List.foldl_nil, step, consumed]
  rfl

/-- The name of a field with its colon, at the start of a line. -/
theorem leads_name (nonempty : name ≠ []) (valid : IsToken name)
    (room : n + name.length + 1 ≤ httpMaxHeaderSize) :
    Leads (between p .headerFieldStart n calls)
      (between (readName p name) .headerValueDiscardWs (n + name.length + 1)
        (calls ++ [.onHeaderField name])) (name ++ [ascii ':']) := by
  cases name with
  | nil => exact absurd rfl nonempty
  | cons c name =>
    rw [IsToken, List.forall_mem_cons] at valid
    obtain ⟨letter, valid⟩ := valid
    rw [List.length_cons] at room
    let p₀ : HttpParser := { p with index := 0, headerState := headerStateOfLetter (token c) }
    have first : Leads (between p .headerFieldStart n calls)
        (within p₀ .headerField (n + 1) .headerField [c] calls) [c] := by
      refine leads_open rfl (by omega) fun k => ?_
      show headerFieldStart _ c = _
      have plain : c ≠ cr ∧ c ≠ lf := by
        have ends : token cr = 0 ∧ token lf = 0 := by decide
        exact ⟨fun same => letter (same ▸ ends.1), fun same => letter (same ▸ ends.2)⟩
      rw [headerFieldStart, if_neg plain.1, if_neg plain.2, if_neg letter]
      rfl
    cases name with
    | nil =>
      -- The colon follows at once, and the loop over the name is over as it begins.
      refine first.trans (leads_close rfl (by omega) fun k => ?_)
      show headerFieldLoop _ (ascii ':') 0 = _
      rw [headerFieldLoop, if_pos (by decide)]
      have small : (n + 1 + 1 + 0) % 2 ^ 32 = n + 1 + 1 := by
        rw [httpMaxHeaderSize] at room
        omega
      simp only [countHeaderSize, within, small]
      rw [if_neg (by simp at room; omega)]
      rfl
    | cons d name =>
      rw [List.forall_mem_cons] at valid
      have second : Leads (within p₀ .headerField (n + 1) .headerField [c] calls)
          (naming (headerFieldByte p₀ d) (n + 2) 1 [c, d] calls) [d] := by
        intro k
        refine ⟨k + 1, ?_⟩
        have goes : dispatch (within p₀ .headerField (n + 2) .headerField [c] calls k) d =
            naming (headerFieldByte p₀ d) (n + 2) 1 [c] calls k := by
          show headerFieldLoop _ d 0 = _
          rw [headerFieldLoop, if_neg valid.1, within, headerFieldByte_set]
          rfl
        have stepped := step_head (e := within p₀ .headerField (n + 1) .headerField [c] calls k)
          rfl rfl rfl (show n + 1 < _ by omega) goes rfl
        exact stepped
      rw [List.length_cons] at room
      have rest : Leads (naming (headerFieldByte p₀ d) (n + 2) 1 [c, d] calls)
          (naming (readName p (c :: d :: name)) (n + 2) (1 + name.length) (c :: d :: name) calls)
          name := leads_naming valid.2
      have colon : Leads
          (naming (readName p (c :: d :: name)) (n + 2) (1 + name.length) (c :: d :: name) calls)
          (between (readName p (c :: d :: name)) .headerValueDiscardWs
            (n + 2 + (1 + name.length)) (calls ++ [.onHeaderField (c :: d :: name)]))
          [ascii ':'] := leads_namingEnd (by omega)
      have charged : n + 2 + (1 + name.length) = n + (c :: d :: name).length + 1 := by
        simp only [List.length_cons]
        omega
      rw [charged] at colon
      exact ((first.trans second).trans rest).trans colon

end Name

/-! ## The value of a field -/

/-- What the framing of a message depends on, apart from the content length: the rest is
about where the parser is, or about the connection. -/
def HttpParser.framing (p : HttpParser) : HttpParser :=
  { p with
    state := .dead, headerState := .general, index := 0, nread := 0, contentLength := 0
    flags := { p.flags with
      connectionKeepAlive := false, connectionClose := false, connectionUpgrade := false } }

/-- The header states that say nothing about the framing. -/
def HeaderState.plain : HeaderState → Bool
  | .contentLength | .transferEncoding | .upgrade
  | .matchingTransferEncodingChunked | .transferEncodingChunked => false
  | _ => true

/-- The parser `p` has become `q` over the part `t` of a value: it has read a content length
as a number, and nothing that matters otherwise. -/
structure Reads (length : Bool) (p : HttpParser) (t : Bytes) (q : HttpParser) : Prop where
  framing : q.framing = p.framing
  number : length = true → q.headerState = .contentLength ∧ q.contentLength = decimalNumber t
  other : length = false → q.headerState.plain = true ∧ q.contentLength = p.contentLength

/-- Inside a value, with `n` bytes of the head read. -/
structure Valuing (length : Bool) (p : HttpParser) (n : ℕ) (t : Bytes) (calls : List Callback)
    (e : Execution) : Prop where
  live : e.returned = false
  marked : e.marked = some (.headerValue, t)
  calls : e.callbacks = calls
  state : e.parser.state = .headerValue
  reads : Reads length p t e.parser
  /-- the bytes that the loop has read are charged, or one of them is -/
  charged : (e.inner = none ∧ e.parser.nread = n) ∨
    ∃ read, e.parser.nread + read = n + 1 ∧
      (e.inner = some (.headerValue read) ∨
        e.parser.headerState = .general ∧ ∃ looked ≤ n, e.inner = some (.search read looked))

section Value

variable {length : Bool} {p q : HttpParser} {n : ℕ} {c : Byte} {t value : Bytes}
  {calls : List Callback} {e : Execution}

/-- A number with one more digit. -/
theorem decimalNumber_append (t : Bytes) (c : Byte) :
    decimalNumber (t ++ [c]) = decimalNumber t * 10 + digit c := by
  rw [decimalNumber, decimalNumber, List.foldl_append, List.foldl_cons, List.foldl_nil,
    Nat.mul_comm]

/-- A byte of a value that the parser compares with something. -/
theorem headerValueByte_reads (reads : Reads length p t q) (other : q.headerState ≠ .general)
    (number : length = true → isNum c = true ∧ decimalNumber (t ++ [c]) < 2 ^ 31) :
    ∃ q', headerValueByte q c = some q' ∧ Reads length p (t ++ [c]) q' ∧ q'.nread = q.nread := by
  cases length with
  | true =>
    obtain ⟨state, value⟩ := reads.number rfl
    obtain ⟨num, small⟩ := number rfl
    rw [decimalNumber_append] at small
    have blank : c ≠ ascii ' ' := by
      rintro rfl
      exact absurd num (by decide)
    have room : ¬ (ullongMax - 10) / 10 < q.contentLength := by
      rw [value, ullongMax]
      omega
    refine ⟨{ q with contentLength := q.contentLength * 10 + digit c }, ?_, ⟨reads.framing,
      fun _ => ⟨state, ?_⟩, nofun⟩, rfl⟩
    · simp only [headerValueByte, state, if_neg blank, num, Bool.not_true, Bool.false_eq_true,
        if_false, if_neg room]
    · rw [decimalNumber_append, ← value]
  | false =>
    obtain ⟨plain, length⟩ := reads.other rfl
    have framing := reads.framing
    have done {q' : HttpParser} (same : q'.framing = q.framing)
        (plain' : q'.headerState.plain = true) (length' : q'.contentLength = q.contentLength) :
        Reads false p (t ++ [c]) q' :=
      ⟨same.trans framing, nofun, fun _ => ⟨plain', length'.trans length⟩⟩
    cases state : q.headerState with
    | contentLength | transferEncoding | upgrade | matchingTransferEncodingChunked
    | transferEncodingChunked => simp [state, HeaderState.plain] at plain
    | general => exact absurd state other
    | connection =>
      refine ⟨q, ?_, done rfl plain rfl, rfl⟩
      simp only [headerValueByte, state]
    | matchingConnectionTokenStart =>
      simp only [headerValueByte, state]
      refine ⟨_, rfl, done rfl ?_ rfl, rfl⟩
      dsimp only
      split_ifs <;> rfl
    | matchingConnectionKeepAlive | matchingConnectionClose | matchingConnectionUpgrade =>
      simp only [headerValueByte, state]
      refine ⟨_, rfl, done ?_ ?_ ?_, ?_⟩
      all_goals
        simp only [matchText]
        split_ifs
      all_goals first
        | rfl
        | exact plain
    | matchingConnectionToken =>
      simp only [headerValueByte, state]
      split_ifs with comma
      · exact ⟨_, rfl, done rfl rfl rfl, rfl⟩
      · exact ⟨q, rfl, done rfl plain rfl, rfl⟩
    | connectionKeepAlive | connectionClose | connectionUpgrade =>
      simp only [headerValueByte, connectionFlag, state]
      -- The token sets its flag when the list goes on, and is forgotten when it is longer.
      split_ifs with comma blank
      · exact ⟨_, rfl, done rfl rfl rfl, rfl⟩
      · exact ⟨_, rfl, done rfl rfl rfl, rfl⟩
      · exact ⟨q, rfl, done rfl plain rfl, rfl⟩
    | _ =>
      simp only [headerValueByte, state]
      exact ⟨_, rfl, done rfl rfl rfl, rfl⟩

/-- A byte in the loop over a value. -/
theorem valuing_loop {read : ℕ} (live : e.returned = false)
    (marked : e.marked = some (.headerValue, t)) (called : e.callbacks = calls)
    (state : e.parser.state = .headerValue) (reads : Reads length p t e.parser)
    (charged : e.parser.nread + read = n + 1) (line : c ≠ cr ∧ c ≠ lf)
    (number : length = true → isNum c = true ∧ decimalNumber (t ++ [c]) < 2 ^ 31) :
    Valuing length p (n + 1) (t ++ [c]) calls ((e.headerValueLoop c read).advance c) ∧
      (e.headerValueLoop c read).returned = false := by
  have plain : ¬ (c = cr ∨ c = lf) := by
    rw [not_or]
    exact line
  by_cases general : e.parser.headerState = .general
  · -- From here on the parser looks for the end of the line only.
    have loop : e.headerValueLoop c read = { e with inner := some (.search (read + 1) 1) } := by
      rw [headerValueLoop, if_neg plain, if_pos general]
    rw [loop]
    have reads' : Reads length p (t ++ [c]) e.parser := by
      refine ⟨reads.framing, fun yes => ?_, reads.other⟩
      rw [(reads.number yes).1] at general
      cases general
    refine ⟨⟨live, ?_, called, state, reads',
      .inr ⟨read + 1, ?_, .inr ⟨general, 1, ?_, rfl⟩⟩⟩, live⟩
    · simp [marked]
    · show e.parser.nread + (read + 1) = _
      omega
    · omega
  · obtain ⟨q, byte, reads', same⟩ := headerValueByte_reads reads general number
    have loop : e.headerValueLoop c read =
        { e with parser := q, inner := some (.headerValue (read + 1)) } := by
      simp only [headerValueLoop, if_neg plain, if_neg general, byte]
    rw [loop]
    refine ⟨⟨live, ?_, called, (headerValueByte_state state byte), reads',
      .inr ⟨read + 1, ?_, .inl rfl⟩⟩, live⟩
    · simp [marked]
    · show q.nread + (read + 1) = _
      omega

/-- One more byte of a value. -/
theorem valuing_step (h : Valuing length p n t calls e) (line : c ≠ cr ∧ c ≠ lf)
    (room : n < httpMaxHeaderSize)
    (number : length = true → isNum c = true ∧ decimalNumber (t ++ [c]) < 2 ^ 31) :
    Valuing length p (n + 1) (t ++ [c]) calls (e.step c) := by
  rcases h.charged with ⟨outer, nread⟩ | ⟨read, charged, inner | ⟨general, looked, le, inner⟩⟩
  · -- The loop begins at this byte, which the main loop charges.
    obtain ⟨next, live⟩ := valuing_loop
      (e := { e with parser := { e.parser with nread := e.parser.nread + 1 } }) h.live h.marked
      h.calls h.state ⟨h.reads.framing, h.reads.number, h.reads.other⟩
      (show e.parser.nread + 1 + 0 = n + 1 by omega) line number
    have goes : dispatch { e with parser := { e.parser with nread := e.parser.nread + 1 } } c =
        headerValueLoop { e with parser := { e.parser with nread := e.parser.nread + 1 } } c 0 := by
      simp only [dispatch, h.state]
    rw [step_head h.live outer (by rw [h.state]; rfl) (nread ▸ room) goes live]
    exact next
  · obtain ⟨next, live⟩ := valuing_loop h.live h.marked h.calls h.state h.reads charged line number
    have stepped : e.step c = (e.headerValueLoop c read).advance c := by
      simp only [step, consume, h.live, inner, live, Bool.false_eq_true, if_false]
    rw [stepped]
    exact next
  · -- The end of the line is still being looked for.
    have plain : ¬ (c = cr ∨ c = lf) := by
      rw [not_or]
      exact line
    have near : ¬ looked ≥ httpMaxHeaderSize := by omega
    have stepped : e.step c =
        ({ e with inner := some (.search (read + 1) (looked + 1)) } : Execution).advance c := by
      simp only [step, consume, h.live, inner, searchLoop, if_neg near, if_neg plain,
        Bool.false_eq_true, if_false]
    rw [stepped]
    have reads' : Reads length p (t ++ [c]) e.parser := by
      refine ⟨h.reads.framing, fun yes => ?_, h.reads.other⟩
      rw [(h.reads.number yes).1] at general
      cases general
    refine ⟨h.live, ?_, h.calls, h.state, reads', .inr ⟨read + 1, ?_, .inr ⟨general, looked + 1, ?_,
      rfl⟩⟩⟩
    · simp [h.marked]
    · show e.parser.nread + (read + 1) = _
      omega
    · omega

/-- The carriage return behind a value. -/
theorem valuing_end (h : Valuing length p n t calls e) (room : n < httpMaxHeaderSize) :
    ∃ q, Reads length p t q ∧ ∃ k, e.step cr =
      between q .headerAlmostDone (n + 1) (calls ++ [.onHeaderValue t]) k := by
  have ended {x : Execution} {read : ℕ} (live : x.returned = false)
      (marked : x.marked = some (.headerValue, t)) (called : x.callbacks = calls)
      (reads : Reads length p t x.parser) (charged : x.parser.nread + read = n + 1) :
      ∃ q, Reads length p t q ∧ ∃ k, x.headerValueEnd cr read =
        between q .headerAlmostDone (n + 1) (calls ++ [.onHeaderValue t]) k := by
    have small : (x.parser.nread + read) % 2 ^ 32 = n + 1 := by
      rw [httpMaxHeaderSize] at room
      omega
    refine ⟨x.parser, reads, x.parsed, ?_⟩
    simp only [headerValueEnd, if_true, callbackData, updateState, marked, notify, countHeaderSize,
      small, called, live, between, Mark.callback]
    rw [if_neg (by omega)]
    rfl
  rcases h.charged with ⟨outer, nread⟩ | ⟨read, charged, inner | ⟨general, looked, le, inner⟩⟩
  · obtain ⟨q, reads, k, next⟩ := ended
      (x := { e with parser := { e.parser with nread := e.parser.nread + 1 } }) h.live h.marked
      h.calls ⟨h.reads.framing, h.reads.number, h.reads.other⟩
      (show e.parser.nread + 1 + 0 = n + 1 by omega)
    have goes : dispatch { e with parser := { e.parser with nread := e.parser.nread + 1 } } cr =
        between q .headerAlmostDone (n + 1) (calls ++ [.onHeaderValue t]) k := by
      rw [← next]
      simp only [dispatch, h.state, headerValueLoop, true_or, if_true]
    refine ⟨q, reads, k + 1, ?_⟩
    rw [step_head h.live outer (by rw [h.state]; rfl) (nread ▸ room) goes rfl]
    rfl
  · obtain ⟨q, reads, k, next⟩ := ended h.live h.marked h.calls h.reads charged
    refine ⟨q, reads, k + 1, ?_⟩
    simp only [step, consume, h.live, inner, headerValueLoop, true_or, if_true, next,
      Bool.false_eq_true, if_false]
    rfl
  · have near : ¬ looked ≥ httpMaxHeaderSize := by omega
    obtain ⟨q, reads, k, next⟩ := ended h.live h.marked h.calls h.reads charged
    refine ⟨q, reads, k + 1, ?_⟩
    simp only [step, consume, h.live, inner, searchLoop, if_neg near, true_or, if_true, next,
      Bool.false_eq_true, if_false]
    rfl

/-- The header states in which a value can begin that is neither a transfer coding nor the
value of an upgrade. -/
def HeaderState.starts (s : HeaderState) : Bool := s.plain || s = .contentLength

/-- The first byte of a value. -/
theorem valuing_start (starts : p.headerState.starts = true) (blank : c ≠ ascii ' ')
    (tab : c ≠ ascii '\t') (line : c ≠ cr ∧ c ≠ lf) (room : n < httpMaxHeaderSize)
    (number : p.headerState = .contentLength → isNum c = true) (k : ℕ) :
    Valuing (p.headerState = .contentLength) p (n + 1) [c] calls
      ((between p .headerValueDiscardWs n calls k).step c) := by
  have start : (between p .headerValueDiscardWs (n + 1) calls k).dispatch c =
      headerValueStart (between p .headerValueDiscardWs (n + 1) calls k) c := by
    show headerValueDiscardWs _ c = _
    rw [headerValueDiscardWs, if_neg (by simp [blank, tab]), if_neg line.1, if_neg line.2]
  -- What the start of a value leaves, in each header state it can begin in.
  have done {q : HttpParser} (same : q.framing = p.framing) (state : q.state = .headerValue)
      (nread : q.nread = n + 1)
      (length : p.headerState = .contentLength →
        q.headerState = .contentLength ∧ q.contentLength = digit c)
      (other : p.headerState ≠ .contentLength →
        q.headerState.plain = true ∧ q.contentLength = p.contentLength)
      (goes : headerValueStart (between p .headerValueDiscardWs (n + 1) calls k) c =
        { parser := q, marked := some (.headerValue, []), callbacks := calls, parsed := k }) :
      Valuing (p.headerState = .contentLength) p (n + 1) [c] calls
        ((between p .headerValueDiscardWs n calls k).step c) := by
    have stepped := step_head (e := between p .headerValueDiscardWs n calls k) rfl rfl rfl room
      (start.trans goes) rfl
    rw [stepped]
    refine ⟨rfl, rfl, rfl, state, ⟨same, fun yes => ?_, fun no => ?_⟩, .inl ⟨rfl, nread⟩⟩
    · obtain ⟨state, value⟩ := length (of_decide_eq_true yes)
      refine ⟨state, ?_⟩
      show q.contentLength = _
      rw [value, decimalNumber, List.foldl_cons, List.foldl_nil, Nat.mul_zero, Nat.zero_add]
    · exact other (of_decide_eq_false no)
  obtain ⟨s, state⟩ : ∃ s, p.headerState = s := ⟨_, rfl⟩
  cases s with
  | contentLength =>
    refine done (q := { p with
      state := .headerValue, nread := n + 1, index := 0, contentLength := digit c }) rfl rfl rfl
      (fun _ => ⟨state, rfl⟩) (fun no => absurd state no) ?_
    simp only [headerValueStart, mark, between, state, number state, Bool.not_true,
      Bool.false_eq_true, if_false]
  | upgrade | transferEncoding | matchingTransferEncodingChunked | transferEncodingChunked =>
    simp [state, HeaderState.starts, HeaderState.plain] at starts
  | connection =>
    refine done (q := { p with
      state := .headerValue, nread := n + 1, index := 0,
      headerState :=
        if lower c = ascii 'k' then .matchingConnectionKeepAlive
        else if lower c = ascii 'c' then .matchingConnectionClose
        else if lower c = ascii 'u' then .matchingConnectionUpgrade
        else .matchingConnectionToken }) rfl rfl rfl
      (fun yes => by rw [state] at yes; cases yes) (fun _ => ⟨?_, rfl⟩) ?_
    · dsimp only
      split_ifs <;> rfl
    · simp only [headerValueStart, mark, between, state]
  | matchingConnectionTokenStart =>
    refine done (q := { p with state := .headerValue, nread := n + 1, index := 0 }) rfl rfl rfl
      (fun yes => by rw [state] at yes; cases yes) (fun _ => ⟨?_, rfl⟩) ?_
    · show p.headerState.plain = true
      rw [state]
      rfl
    · simp only [headerValueStart, mark, between, state]
  | _ =>
    refine done (q := { p with
      state := .headerValue, nread := n + 1, index := 0, headerState := .general }) rfl rfl rfl
      (fun yes => by rw [state] at yes; cases yes) (fun _ => ⟨rfl, rfl⟩) ?_
    simp only [headerValueStart, mark, between, state]

theorem decimalNumber_le_append (t u : Bytes) : decimalNumber t ≤ decimalNumber (t ++ u) := by
  induction u using List.reverseRecOn with
  | nil => rw [List.append_nil]
  | append_singleton u c ih =>
    rw [← List.append_assoc, decimalNumber_append]
    omega

/-- The rest of a value. -/
theorem valuing_foldl (h : Valuing length p n t calls e) (line : ∀ c ∈ value, c ≠ cr ∧ c ≠ lf)
    (room : n + value.length ≤ httpMaxHeaderSize)
    (number : length = true →
      (∀ c ∈ value, isNum c = true) ∧ decimalNumber (t ++ value) < 2 ^ 31) :
    Valuing length p (n + value.length) (t ++ value) calls (value.foldl step e) := by
  induction value generalizing n t e with
  | nil =>
    rw [List.append_nil]
    exact h
  | cons c value ih =>
    rw [List.forall_mem_cons] at line
    rw [List.length_cons] at room
    rw [← List.singleton_append, ← List.append_assoc] at number ⊢
    have first := valuing_step h line.1 (by omega) fun yes => by
      obtain ⟨nums, small⟩ := number yes
      exact ⟨nums c (by simp), (decimalNumber_le_append _ _).trans_lt small⟩
    have rest := ih first line.2 (by omega) fun yes =>
      ⟨fun d mem => (number yes).1 d (by simp [mem]), (number yes).2⟩
    rw [List.singleton_append, List.length_cons, Nat.add_comm value.length, ← Nat.add_assoc]
    exact rest

end Value

/-! ## Field lines -/

/-- A byte that does not continue a line is read as it is at the place `g`. -/
def Ready (e : Execution) (g : ℕ → Execution) : Prop :=
  ∀ c, c ≠ ascii ' ' → c ≠ ascii '\t' → ∃ k, e.step c = (g k).step c

/-- What a field line must be like to mean nothing to the framing, unless it is a content
length. -/
structure Acceptable (field : Bytes × Bytes) : Prop where
  nonempty : field.1 ≠ []
  token : IsToken field.1
  line : ∀ c ∈ field.2, c ≠ cr ∧ c ≠ lf
  start : ∀ c ∈ field.2.head?, c ≠ ascii ' ' ∧ c ≠ ascii '\t'
  transferEncoding : ¬ SameName field.1 (bytes "Transfer-Encoding")
  upgrade : ¬ SameName field.1 (bytes "Upgrade")
  number : SameName field.1 contentLengthField →
    Numeral field.2 ∧ decimalNumber field.2 < 2 ^ 31

section Line

variable {p q : HttpParser} {n : ℕ} {c : Byte} {field : Bytes × Bytes} {text value : Bytes}
  {calls : List Callback} {e : Execution} {g h : ℕ → Execution}

/-- What leads on from the place leads on from the execution, unless it continues the line. -/
theorem Ready.leads (ready : Ready e g) (leads : Leads g h (c :: text)) (blank : c ≠ ascii ' ')
    (tab : c ≠ ascii '\t') : ∃ k, (c :: text).foldl step e = h k := by
  obtain ⟨k, same⟩ := ready c blank tab
  obtain ⟨k', led⟩ := leads k
  exact ⟨k', by rw [List.foldl_cons, same, ← List.foldl_cons, led]⟩

theorem consume_between {s : State} {k : ℕ} (head : s.parsingHeader = true)
    (room : n < httpMaxHeaderSize) :
    (between p s n calls k).consume c = (between p s (n + 1) calls k).dispatch c :=
  consume_head rfl head room

theorem lineFlag_set (q : HttpParser) (s : State) (n : ℕ) :
    lineFlag { q with state := s, nread := n } =
      { lineFlag q with state := s, nread := n } := by
  obtain ⟨_, _, headerState, _, _, _, _, _, _, _, _⟩ := q
  cases headerState <;> rfl

/-- The end of a line sets a flag of the connection at most. -/
theorem lineFlag_framing (plain : q.headerState ≠ .transferEncodingChunked) :
    (lineFlag q).framing = q.framing ∧ (lineFlag q).contentLength = q.contentLength := by
  simp only [lineFlag, connectionFlag]
  cases state : q.headerState with
  | transferEncodingChunked => exact absurd state plain
  | _ => exact ⟨rfl, rfl⟩

/-- After a line that is not empty the next one begins, unless it continues this one. -/
theorem ready_lws (room : n < httpMaxHeaderSize) (k : ℕ) :
    Ready (between q .headerValueLws n calls k)
      (between (lineFlag q) .headerFieldStart n calls) := by
  intro c blank tab
  refine ⟨k, ?_⟩
  have same : dispatch (between q .headerValueLws (n + 1) calls k) c =
      dispatch (between (lineFlag q) .headerFieldStart (n + 1) calls k) c := by
    show headerValueLws _ c = headerFieldStart _ c
    rw [headerValueLws, if_neg (by simp [blank, tab]), between, lineFlag_set]
    rfl
  rw [step, step, consume_between rfl room, consume_between rfl room, same]
  rfl

/-- After an empty value it is reported when the next line begins. -/
theorem ready_discardLws (room : n < httpMaxHeaderSize) (k : ℕ) :
    Ready (between q .headerValueDiscardLws n calls k)
      (between (lineFlag q) .headerFieldStart n (calls ++ [.onHeaderValue []])) := by
  intro c blank tab
  refine ⟨k, ?_⟩
  have same : dispatch (between q .headerValueDiscardLws (n + 1) calls k) c =
      dispatch (between (lineFlag q) .headerFieldStart (n + 1)
        (calls ++ [.onHeaderValue []]) k) c := by
    show headerValueDiscardLws _ c = headerFieldStart _ c
    rw [headerValueDiscardLws, if_neg (by simp [blank, tab]), between, lineFlag_set]
    rfl
  rw [step, step, consume_between rfl room, consume_between rfl room, same]
  rfl

theorem starts_plain {s : HeaderState} (starts : s.starts = true) :
    s ≠ .transferEncodingChunked := by
  rintro rfl
  cases starts

/-- The parser is not in the chunked coding after a value that cannot name it. -/
theorem Reads.plain {length : Bool} {t : Bytes} (reads : Reads length p t q) :
    q.headerState ≠ .transferEncodingChunked := by
  intro same
  cases length with
  | true =>
    have state := (reads.number rfl).1
    rw [same] at state
    cases state
  | false =>
    have plain := (reads.other rfl).1
    rw [same] at plain
    cases plain

theorem leads_blank (p : HttpParser) (calls : List Callback) (room : n < httpMaxHeaderSize) :
    Leads (between p .headerValueDiscardWs n calls) (between p .headerValueDiscardWs (n + 1) calls)
      [ascii ' '] :=
  leads_between rfl room fun _ => rfl

/-- The blank and the end of a line that has no value. -/
theorem foldl_value_nil (room : n + 3 < httpMaxHeaderSize) (k : ℕ) :
    Ready ([ascii ' ', cr, lf].foldl step (between p .headerValueDiscardWs n calls k))
      (between (lineFlag p) .headerFieldStart (n + 3) (calls ++ [.onHeaderValue []])) := by
  have cr : Leads (between p .headerValueDiscardWs (n + 1) calls)
      (between p .headerValueDiscardWsAlmostDone (n + 2) calls) [cr] :=
    leads_between rfl (by omega) fun _ => rfl
  have lf : Leads (between p .headerValueDiscardWsAlmostDone (n + 2) calls)
      (between p .headerValueDiscardLws (n + 3) calls) [lf] :=
    leads_between rfl (by omega) fun _ => rfl
  obtain ⟨k', led⟩ := (((leads_blank p calls (by omega)).trans cr).trans lf) k
  show Ready (([ascii ' '] ++ [Viking.Http.cr] ++ [Viking.Http.lf]).foldl step _) _
  rw [led]
  exact ready_discardLws room k'

/-- All of a value is read before its end is looked at. -/
theorem foldl_value_cons (calls : List Callback) (starts : p.headerState.starts = true)
    (line : ∀ d ∈ c :: value, d ≠ cr ∧ d ≠ lf) (blank : c ≠ ascii ' ') (tab : c ≠ ascii '\t')
    (number : p.headerState = .contentLength →
      Numeral (c :: value) ∧ decimalNumber (c :: value) < 2 ^ 31)
    (room : n + value.length + 4 < httpMaxHeaderSize) (k : ℕ) :
    ∃ q, Reads (p.headerState = .contentLength) p (c :: value) q ∧
      Ready ((ascii ' ' :: c :: (value ++ [cr, lf])).foldl step
          (between p .headerValueDiscardWs n calls k))
        (between (lineFlag q) .headerFieldStart (n + value.length + 4)
          (calls ++ [.onHeaderValue (c :: value)])) := by
  rw [List.forall_mem_cons] at line
  obtain ⟨k₁, led⟩ := leads_blank p calls (show n < _ by omega) k
  have first : Valuing _ p (n + 1 + 1) [c] calls _ := valuing_start starts blank tab line.1
    (show n + 1 < _ by omega) (fun length => (number length).1.2 c (by simp)) k₁
  have valued := valuing_foldl first line.2 (by omega) fun yes =>
    ⟨fun d mem => (number (of_decide_eq_true yes)).1.2 d (by simp [mem]),
      (number (of_decide_eq_true yes)).2⟩
  obtain ⟨q, reads, k₂, ended⟩ := valuing_end valued (by omega)
  rw [List.singleton_append] at reads ended
  have lf : Leads (between q .headerAlmostDone (n + 1 + 1 + value.length + 1)
      (calls ++ [.onHeaderValue (c :: value)])) (between q .headerValueLws
        (n + 1 + 1 + value.length + 1 + 1) (calls ++ [.onHeaderValue (c :: value)])) [lf] :=
    leads_between rfl (by omega) fun _ => rfl
  obtain ⟨k₃, done⟩ := lf k₂
  have whole : (ascii ' ' :: c :: (value ++ [Viking.Http.cr, Viking.Http.lf])).foldl step
      (between p .headerValueDiscardWs n calls k) =
        between q .headerValueLws (n + value.length + 4)
          (calls ++ [.onHeaderValue (c :: value)]) k₃ := by
    rw [List.foldl_cons, List.foldl_nil] at led done
    rw [List.foldl_cons, List.foldl_cons, List.foldl_append, led, List.foldl_cons,
      List.foldl_cons, List.foldl_nil, ended, done]
    congr 1
    omega
  refine ⟨q, reads, ?_⟩
  rw [whole]
  exact ready_lws room k₃

/-- The value of a field, from the blank before it to the end of its line. -/
theorem foldl_value (calls : List Callback) (starts : p.headerState.starts = true)
    (line : ∀ c ∈ value, c ≠ cr ∧ c ≠ lf)
    (start : ∀ c ∈ value.head?, c ≠ ascii ' ' ∧ c ≠ ascii '\t')
    (number : p.headerState = .contentLength → Numeral value ∧ decimalNumber value < 2 ^ 31)
    (room : n + value.length + 3 < httpMaxHeaderSize) (k : ℕ) :
    ∃ q, q.framing = p.framing ∧
      q.contentLength =
        (if p.headerState = .contentLength then decimalNumber value else p.contentLength) ∧
      Ready
        ((ascii ' ' :: (value ++ [cr, lf])).foldl step (between p .headerValueDiscardWs n calls k))
        (between q .headerFieldStart (n + value.length + 3) (calls ++ [.onHeaderValue value])) := by
  cases value with
  | nil =>
    have other : p.headerState ≠ .contentLength := fun length => (number length).1.1 rfl
    obtain ⟨framing, length⟩ := lineFlag_framing (starts_plain starts)
    exact ⟨lineFlag p, framing, by rw [if_neg other, length], foldl_value_nil room k⟩
  | cons c value =>
    rw [List.length_cons] at room ⊢
    have size : n + (value.length + 1) + 3 = n + value.length + 4 := by omega
    rw [size] at room ⊢
    obtain ⟨blank, tab⟩ := start c rfl
    obtain ⟨q, reads, ready⟩ := foldl_value_cons calls starts line blank tab number room k
    obtain ⟨framing, length⟩ := lineFlag_framing reads.plain
    refine ⟨lineFlag q, framing.trans reads.framing, ?_, ready⟩
    rw [length]
    split_ifs with yes
    · exact (reads.number (decide_eq_true yes)).2
    · exact (reads.other (decide_eq_false yes)).2

/-- The content length after a field line. -/
def lengthAfter (length : ℕ) (field : Bytes × Bytes) : ℕ :=
  if SameName field.1 contentLengthField then decimalNumber field.2 else length

/-- What is reported of a field line. -/
def fieldCalls (field : Bytes × Bytes) : List Callback :=
  [.onHeaderField field.1, .onHeaderValue field.2]

theorem readName_framing (p : HttpParser) (nonempty : field.1 ≠ []) :
    (readName p field.1).framing = p.framing ∧
      (readName p field.1).contentLength = p.contentLength := by
  rw [readName_eq p nonempty]
  exact ⟨rfl, rfl⟩

/-- The name of an acceptable field is not that of a transfer coding or of an upgrade. -/
theorem Acceptable.starts (h : Acceptable field) (p : HttpParser) :
    (readName p field.1).headerState.starts = true := by
  obtain ⟨coding, upgrade⟩ := @readName_other p field.1 h.nonempty h.token
  have spells := @readName_spells p field.1 h.nonempty h.token
  obtain ⟨s, state⟩ : ∃ s, (readName p field.1).headerState = s := ⟨_, rfl⟩
  rw [state] at coding upgrade spells ⊢
  cases s with
  | transferEncoding => exact absurd (coding rfl) h.transferEncoding
  | upgrade => exact absurd (upgrade rfl) h.upgrade
  | matchingTransferEncodingChunked | transferEncodingChunked => exact spells.elim
  | _ => rfl

/-- A whole field line. -/
theorem foldl_fieldLine (h : Acceptable field)
    (ready : Ready e (between p .headerFieldStart n calls))
    (room : n + (Serializer.fieldLine field).length < httpMaxHeaderSize) :
    ∃ q, q.framing = p.framing ∧ q.contentLength = lengthAfter p.contentLength field ∧
      Ready ((Serializer.fieldLine field).foldl step e)
        (between q .headerFieldStart (n + (Serializer.fieldLine field).length)
          (calls ++ fieldCalls field)) := by
  have line : Serializer.fieldLine field =
      (field.1 ++ [ascii ':']) ++ ascii ' ' :: (field.2 ++ [cr, lf]) := by
    simp only [Serializer.fieldLine, List.append_assoc]
    rfl
  have length : (Serializer.fieldLine field).length = field.1.length + 1 + field.2.length + 3 := by
    rw [line]
    simp
    omega
  rw [length] at room
  -- The name begins with a byte that does not continue the line before.
  have named : ∃ k, (field.1 ++ [ascii ':']).foldl step e =
      between (readName p field.1) .headerValueDiscardWs (n + field.1.length + 1)
        (calls ++ [.onHeaderField field.1]) k := by
    have leads : Leads (between p .headerFieldStart n calls) _ _ :=
      leads_name h.nonempty h.token (by omega)
    have token := h.token
    cases name : field.1 with
    | nil => exact absurd name h.nonempty
    | cons c rest =>
      rw [name] at leads token
      rw [IsToken, List.forall_mem_cons] at token
      exact ready.leads leads (fun same => token.1 (by rw [same]; decide))
        (fun same => token.1 (by rw [same]; decide))
  obtain ⟨k, named⟩ := named
  obtain ⟨q, framing, value, ready'⟩ := foldl_value (calls ++ [.onHeaderField field.1])
    (h.starts p) h.line h.start
    (fun state => h.number ((readName_contentLength_iff h.nonempty h.token).mp state))
    (show n + field.1.length + 1 + field.2.length + 3 < _ by omega) k
  obtain ⟨framing', value'⟩ := readName_framing p h.nonempty
  refine ⟨q, framing.trans framing', ?_, ?_⟩
  · rw [value, value', lengthAfter]
    simp only [readName_contentLength_iff h.nonempty h.token]
  · rw [List.append_assoc] at ready'
    rw [length, line, List.foldl_append, named]
    simpa only [Nat.add_assoc, fieldCalls, List.cons_append, List.nil_append] using ready'

/-- Any number of field lines. -/
theorem foldl_fieldLines {fields : List (Bytes × Bytes)} (h : ∀ field ∈ fields, Acceptable field)
    (ready : Ready e (between p .headerFieldStart n calls))
    (room : n + (fields.flatMap Serializer.fieldLine).length < httpMaxHeaderSize) :
    ∃ q, q.framing = p.framing ∧ q.contentLength = fields.foldl lengthAfter p.contentLength ∧
      Ready ((fields.flatMap Serializer.fieldLine).foldl step e)
        (between q .headerFieldStart (n + (fields.flatMap Serializer.fieldLine).length)
          (calls ++ fields.flatMap fieldCalls)) := by
  induction fields generalizing p n calls e with
  | nil =>
    refine ⟨p, rfl, rfl, ?_⟩
    rw [List.flatMap_nil, List.flatMap_nil, List.append_nil]
    exact ready
  | cons field fields ih =>
    rw [List.forall_mem_cons] at h
    rw [List.flatMap_cons, List.length_append] at room
    obtain ⟨q, framing, length, ready₁⟩ := foldl_fieldLine h.1 ready (by omega)
    obtain ⟨q', framing', length', ready₂⟩ := ih h.2 ready₁ (by omega)
    refine ⟨q', framing'.trans framing, ?_, ?_⟩
    · rw [length', length, List.foldl_cons]
    · rw [List.flatMap_cons, List.flatMap_cons, List.foldl_append, List.length_append,
        ← Nat.add_assoc, ← List.append_assoc]
      exact ready₂

end Line

/-! ## The end of the head -/

/-- The parser of a request that is framed by its content length, if by anything. -/
structure Simple (p : HttpParser) : Prop where
  trailing : p.flags.trailing = false
  chunked : p.flags.chunked = false
  skipBody : p.flags.skipBody = false
  upgrade : p.flags.upgrade = false
  method : p.method ≠ .connect

/-- Whether it is is a matter of what the framing depends on. -/
theorem Simple.of_framing {p q : HttpParser} (h : Simple p) (same : q.framing = p.framing) :
    Simple q where
  trailing := (congrArg (fun p => p.flags.trailing) same).trans h.trailing
  chunked := (congrArg (fun p => p.flags.chunked) same).trans h.chunked
  skipBody := (congrArg (fun p => p.flags.skipBody) same).trans h.skipBody
  upgrade := (congrArg (fun p => p.flags.upgrade) same).trans h.upgrade
  method := by
    have method : q.method = p.method := congrArg (fun p => p.method) same
    rw [method]
    exact h.method

section End

variable {p : HttpParser} {n : ℕ} {calls : List Callback} {e : Execution} {body : Bytes}

/-- The callback at the end of a head. -/
def headerCall (p : HttpParser) : Callback := .onHeadersComplete p.httpMajor p.httpMinor p.method

/-- Where a head ends: at the end of the message, or where its body begins. -/
def headEnd (p : HttpParser) (calls : List Callback) (k : ℕ) : Execution :=
  if p.contentLength = 0 ∨ p.contentLength = ullongMax then
    between { p with upgrade := false } (newMessage p) 0
      (calls ++ [headerCall p, .onMessageComplete]) k
  else between { p with upgrade := false } .bodyIdentity 0 (calls ++ [headerCall p]) k

/-- The line feed of the empty line is read again where the body begins. -/
theorem foldl_emptyLine (simple : Simple p) (ready : Ready e (between p .headerFieldStart n calls))
    (room : n + 2 ≤ httpMaxHeaderSize) : ∃ k, [cr, lf].foldl step e = headEnd p calls k := by
  have first : Leads (between p .headerFieldStart n calls)
      (between p .headersAlmostDone (n + 1) calls) [cr] :=
    leads_between rfl (by omega) fun _ => rfl
  have plain : cr ≠ ascii ' ' ∧ cr ≠ ascii '\t' := by decide
  obtain ⟨k, led⟩ := ready.leads first plain.1 plain.2
  refine ⟨k + 1, ?_⟩
  rw [List.foldl_cons, List.foldl_nil] at led
  rw [List.foldl_cons, List.foldl_cons, List.foldl_nil, led]
  have goes : dispatch (between p .headersAlmostDone (n + 2) calls k) lf = headEnd p calls k := by
    show headersAlmostDone _ lf = _
    simp only [headersAlmostDone, headersDone, between, simple.trailing, simple.chunked,
      simple.skipBody, simple.upgrade, simple.method, notify, completeMessage, updateState, ne_eq,
      not_true_eq_false, Bool.false_eq_true, Bool.false_and, Bool.false_or, decide_false,
      false_and, if_false]
    by_cases zero : p.contentLength = 0
    · simp only [headEnd, zero, true_or, if_true, List.append_assoc]
      rfl
    · by_cases eof : p.contentLength = ullongMax
      · simp only [headEnd, eof, or_true, if_true, if_false, not_true_eq_false, List.append_assoc]
        rfl
      · simp only [headEnd, zero, eof, or_self, if_false, not_false_eq_true, if_true]
        rfl
  have live : (headEnd p calls k).returned = false := by
    unfold headEnd
    split_ifs <;> rfl
  have stepped := step_head (e := between p .headersAlmostDone (n + 1) calls k) rfl rfl rfl
    (show n + 1 < _ by omega) goes live
  rw [stepped]
  unfold headEnd
  split_ifs <;> rfl

/-! ## The body -/

/-- The rest of a body, part of which has been read. -/
theorem foldl_bodyRest (calls : List Callback) {rest t : Bytes} (nonempty : rest ≠ [])
    (upgrade : p.upgrade = false) (k : ℕ) : ∃ k', rest.foldl step
      (within { p with contentLength := rest.length } .bodyIdentity 0 .body t calls k) =
        between { p with contentLength := 0 } (newMessage p) 0
          (calls ++ [.onBody (t ++ rest), .onMessageComplete]) k' := by
  induction rest generalizing t k with
  | nil => exact absurd rfl nonempty
  | cons c rest ih =>
    rw [List.foldl_cons]
    cases rest with
    | nil =>
      have last : (within { p with contentLength := 1 } .bodyIdentity 0 .body t calls k).consume c =
          between { p with contentLength := 0 } (newMessage p) 0
            (calls ++ [.onBody (t ++ [c]), .onMessageComplete]) k := by
        simp only [consume, dispatch, State.parsingHeader, bodyIdentity, within, mark,
          callbackDataThrough, callbackData, updateState, messageDone, completeMessage, notify,
          Option.map_some, upgrade, if_true, if_false,
          Bool.false_eq_true, List.append_assoc]
        rfl
      refine ⟨k + 1, ?_⟩
      rw [List.foldl_nil, step, List.length_singleton, last]
      rfl
    | cons d rest =>
      obtain ⟨k', read⟩ := ih (t := t ++ [c]) (by simp) (k + 1)
      refine ⟨k', ?_⟩
      rw [List.append_assoc, List.singleton_append] at read
      rw [← read]
      rfl

theorem foldl_body (calls : List Callback) (nonempty : body ≠ [])
    (length : p.contentLength = body.length) (upgrade : p.upgrade = false) (k : ℕ) :
    ∃ k', body.foldl step (between p .bodyIdentity 0 calls k) =
      between { p with contentLength := 0 } (newMessage p) 0
        (calls ++ [.onBody body, .onMessageComplete]) k' := by
  obtain ⟨k', read⟩ := foldl_bodyRest (p := p) (t := []) calls nonempty upgrade k
  refine ⟨k', ?_⟩
  rw [← length, List.nil_append] at read
  rw [← read]
  cases body with
  | nil => exact absurd rfl nonempty
  | cons c body => rfl

end End

/-! ## A whole head -/

/-- The first line of a head. -/
def requestLine (hm : HttpMethod) (target : Bytes) : Bytes :=
  httpMethodStr hm ++ bytes " " ++ target ++ bytes " HTTP/1.1" ++ Serializer.crlf

/-- The request line reports the target. -/
theorem foldl_requestLine {hm : HttpMethod} {target : Bytes} (spelled : hm ≠ .msearch)
    (other : hm ≠ .connect)
    (accepted : (target.foldl parseUrlChar .reqSpacesBeforeUrl).endsTarget = true)
    (room : (requestLine hm target).length ≤ httpMaxHeaderSize) :
    ∃ k, (requestLine hm target).foldl step { parser := httpParserInit } =
      between { methodRead hm with httpMajor := 1, httpMinor := 1 } .headerFieldStart
        (requestLine hm target).length [.onMessageBegin, .onUrl target] k := by
  have parts : requestLine hm target = (httpMethodStr hm ++ [ascii ' ']) ++
      (target ++ [ascii ' ']) ++ bytes "HTTP/1.1\r\n" := by
    simp only [requestLine, List.append_assoc]
    rfl
  have length : (requestLine hm target).length =
      (httpMethodStr hm).length + 1 + (target.length + 1) + 10 := by
    rw [parts]
    simp only [List.length_append, List.length_singleton]
    rfl
  rw [length] at room
  have url : Leads (between (methodRead hm) .reqSpacesBeforeUrl _ [.onMessageBegin]) _ _ :=
    leads_wholeTarget (n := (httpMethodStr hm).length + 1) other accepted (by omega)
  obtain ⟨k, led⟩ := (url.trans (leads_version (by omega))) ((httpMethodStr hm).length + 1)
  refine ⟨k, ?_⟩
  rw [length, parts, List.append_assoc, List.foldl_append, foldl_method spelled, led]
  rfl

/-- The head of a request: the request line, the fields and an empty line. -/
def requestHead (hm : HttpMethod) (target : Bytes) (fields : List (Bytes × Bytes)) : Bytes :=
  httpMethodStr hm ++ bytes " " ++ target ++ bytes " HTTP/1.1" ++ Serializer.crlf ++
    fields.flatMap Serializer.fieldLine ++ Serializer.crlf

/-- What is reported of a head before it ends. -/
def headCalls (target : Bytes) (fields : List (Bytes × Bytes)) : List Callback :=
  [.onMessageBegin, .onUrl target] ++ fields.flatMap fieldCalls

theorem foldl_requestHead {hm : HttpMethod} {target : Bytes} {fields : List (Bytes × Bytes)}
    (spelled : hm ≠ .msearch) (other : hm ≠ .connect)
    (accepted : (target.foldl parseUrlChar .reqSpacesBeforeUrl).endsTarget = true)
    (acceptable : ∀ field ∈ fields, Acceptable field)
    (room : (requestHead hm target fields).length ≤ httpMaxHeaderSize) :
    ∃ q k, (requestHead hm target fields).foldl step { parser := httpParserInit } =
        headEnd q (headCalls target fields) k ∧
      q.framing = { methodRead hm with httpMajor := 1, httpMinor := 1 }.framing ∧
      q.contentLength = fields.foldl lengthAfter ullongMax := by
  let line : Bytes := requestLine hm target
  let lines : Bytes := fields.flatMap Serializer.fieldLine
  have whole : requestHead hm target fields = line ++ lines ++ [cr, lf] := rfl
  rw [whole, List.length_append, List.length_append, List.length_cons, List.length_singleton]
    at room
  let p : HttpParser := { methodRead hm with httpMajor := 1, httpMinor := 1 }
  obtain ⟨k, started⟩ := foldl_requestLine spelled other accepted (show line.length ≤ _ by omega)
  have ready : Ready (line.foldl step { parser := httpParserInit })
      (between p .headerFieldStart line.length [.onMessageBegin, .onUrl target]) :=
    fun c _ _ => ⟨k, by rw [started]⟩
  obtain ⟨q, framing, value, ready'⟩ := foldl_fieldLines acceptable ready
    (show line.length + lines.length < _ by omega)
  have simple : Simple q := Simple.of_framing (p := p) ⟨rfl, rfl, rfl, rfl, other⟩ framing
  obtain ⟨k', ended⟩ := foldl_emptyLine simple ready' (by omega)
  refine ⟨q, k', ?_, framing, value⟩
  rw [whole, List.foldl_append, List.foldl_append, ended]
  rfl

end Viking.Http
