/-
# Two runs of the parser, side by side

`http_parser_execute` may be called on one buffer after the other, and a text that the end of a
buffer cuts is then handed over in pieces. Two runs are compared here, one that has all the bytes in
one buffer and one that is given them in several. `Beside` relates them outside of the inner loops,
and each case of the main loop takes both runs on, or ends both.

The runs differ in the count of the header's bytes, which no case looks at.
-/

import Viking.Http.KnownNames
import Viking.Lib.Pieces

namespace Viking.Http

open Texts

/-- The states a message ends in. -/
def State.isLast : State → Bool
  | .startReq | .dead => true
  | _ => false

theorem State.isLast_of_mark {s : State} {m : Mark} (h : s.mark = some m) : s.isLast = false := by
  cases s <;> first | rfl | cases h

theorem newMessage_isLast (parser : HttpParser) : (newMessage parser).isLast = true := by
  unfold newMessage
  split_ifs <;> rfl

/-- The parser is done: an error has been raised, or a message is over behind which another
protocol begins. -/
def HttpParser.halted (parser : HttpParser) : Bool :=
  parser.httpErrno != .ok || (parser.upgrade && parser.state.isLast)

/-- The parser with another count of the header's bytes. -/
def HttpParser.counted (parser : HttpParser) (nread : ℕ) : HttpParser :=
  { parser with nread := nread }

/-! ## Counting -/

namespace Execution

/-- The number of bytes that are still to be counted. -/
def charge (e : Execution) : ℕ := e.inner.elim 0 Inner.charge

/-- The header's bytes are counted, `v` more of them. -/
def charged (e : Execution) (v : ℕ) : Execution :=
  { e with parser := { e.parser with nread := e.parser.nread + v } }

/-- The execution as if the inner loop had ended after `v` bytes. -/
def settled (e : Execution) (v : ℕ) : Execution := { e.charged v with inner := none }

theorem countHeaderSize_eq (e : Execution) {v : ℕ} (next : Execution → Execution)
    (small : e.parser.nread + v < 2 ^ 32) :
    e.countHeaderSize v next =
      if e.parser.nread + v > httpMaxHeaderSize then (e.charged v).error .headerOverflow
      else next (e.charged v) := by
  simp only [countHeaderSize, Nat.mod_eq_of_lt small, charged]

/-! ## The count is not looked at -/

section Count

variable (p : HttpParser) (m : ℕ) (c : Byte)

theorem matchText_counted (text : Bytes) (mismatch whole : HeaderState) :
    matchText text mismatch whole (p.counted m) c =
      (matchText text mismatch whole p c).counted m := by
  simp only [matchText, show (p.counted m).index = p.index from rfl]
  split_ifs <;> rfl

theorem headerFieldByte_counted :
    headerFieldByte (p.counted m) c = (headerFieldByte p c).counted m := by
  unfold headerFieldByte
  rw [show (p.counted m).headerState = p.headerState from rfl]
  cases p.headerState with
  | matchingConnection | matchingProxyConnection | matchingContentLength
  | matchingTransferEncoding | matchingUpgrade => exact matchText_counted p m _ _ _ _
  | contentLength | transferEncoding | upgrade | connection =>
    dsimp only
    split_ifs <;> rfl
  | _ => rfl

theorem connectionFlag_counted : connectionFlag (p.counted m) = (connectionFlag p).counted m := by
  unfold connectionFlag
  rw [show (p.counted m).headerState = p.headerState from rfl]
  cases p.headerState <;> rfl

theorem lineFlag_counted : lineFlag (p.counted m) = (lineFlag p).counted m := by
  unfold lineFlag
  rw [show (p.counted m).headerState = p.headerState from rfl]
  cases p.headerState with
  | transferEncodingChunked => rfl
  | _ => exact connectionFlag_counted p m

theorem headerValueByte_counted :
    headerValueByte (p.counted m) c = (headerValueByte p c).map (·.counted m) := by
  unfold headerValueByte
  rw [show (p.counted m).headerState = p.headerState from rfl]
  cases p.headerState with
  | matchingTransferEncodingChunked | matchingConnectionKeepAlive | matchingConnectionClose
  | matchingConnectionUpgrade =>
    dsimp only
    rw [matchText_counted, Option.map_some]
  | connectionKeepAlive | connectionClose | connectionUpgrade =>
    dsimp only
    rw [connectionFlag_counted]
    split_ifs <;> rfl
  | contentLength =>
    dsimp only
    rw [show (p.counted m).contentLength = p.contentLength from rfl]
    split_ifs <;> rfl
  | transferEncodingChunked | matchingConnectionToken =>
    dsimp only
    split_ifs <;> rfl
  | _ => rfl

end Count

end Execution

/-! ## Two runs side by side -/

/-- What was handed over in parts, and with what text open: the last piece of the text that the
other run has open as a whole. -/
inductive Told (calls : List Callback) :
    Option (Mark × Bytes) → List Callback → Option (Mark × Bytes) → Prop
  | closed {parts : List Callback} : Pieces Mark.callback calls parts →
      Told calls none parts none
  | opened {parts : List Callback} {m : Mark} {pieces : List Bytes} {t : Bytes} :
      Pieces Mark.callback calls parts →
      Told calls (some (m, pieces.flatten ++ t)) (parts ++ pieces.map m.callback) (some (m, t))

/-- Outside of the inner loops: `f` is in a buffer behind others on which `past` was handed over
and `n` bytes were read, and `u` has read the bytes of them all. -/
structure Beside (b n : ℕ) (past : List Callback) (u f : Execution) : Prop where
  live : u.returned = false
  live' : f.returned = false
  outer : u.inner = none
  outer' : f.inner = none
  going : u.parser.halted = false
  parser : ∃ m ≤ b, u.parser.nread ≤ m ∧ f.parser = u.parser.counted m
  parsed : u.parsed = n + f.parsed
  told : Told u.callbacks u.marked (past ++ f.callbacks) f.marked

/-- Both runs have ended. After an error the last text may have been handed over in part. -/
structure Stopped (n : ℕ) (past : List Callback) (u f : Execution) : Prop where
  returned : u.returned = true
  returned' : f.returned = true
  halted : u.parser.halted = true
  parser : ∃ m, f.parser = u.parser.counted m
  parsed : u.parsed = n + f.parsed
  told : ∃ parts rest, past ++ f.callbacks = parts ++ rest ∧
    Pieces Mark.callback u.callbacks parts ∧
      (rest = [] ∨ u.parser.httpErrno ≠ .ok ∧ ∃ m, ∃ (pieces : List Bytes) (t : Bytes),
        rest = pieces.map m.callback ∧ u.marked = some (m, pieces.flatten ++ t))

/-- The runs go on or they end, both. -/
def Abreast (b n : ℕ) (past : List Callback) (u f : Execution) : Prop :=
  Beside b n past u f ∨ Stopped n past u f

namespace Beside

variable {b n : ℕ} {past : List Callback} {u f : Execution}

/-! ## The macros -/

theorem told_cases (h : Beside b n past u f) :
    (u.marked = none ∧ f.marked = none ∧ Pieces Mark.callback u.callbacks (past ++ f.callbacks)) ∨
      ∃ parts m, ∃ (pieces : List Bytes) (t : Bytes), Pieces Mark.callback u.callbacks parts ∧
        past ++ f.callbacks = parts ++ pieces.map m.callback ∧
          u.marked = some (m, pieces.flatten ++ t) ∧ f.marked = some (m, t) := by
  have told := h.told
  generalize u.marked = x, f.marked = y, past ++ f.callbacks = calls at told
  cases told with
  | closed pieces => exact .inl ⟨rfl, rfl, pieces⟩
  | opened pieces => exact .inr ⟨_, _, _, _, pieces, rfl, rfl, rfl⟩

theorem unmarked (h : Beside b n past u f) (none : u.marked = none) :
    f.marked = Option.none ∧ Pieces Mark.callback u.callbacks (past ++ f.callbacks) := by
  rcases h.told_cases with ⟨-, none', pieces⟩ | ⟨_, _, _, _, -, -, some, -⟩
  · exact ⟨none', pieces⟩
  · rw [none] at some
    cases some

/-- A new parser, which is neither in error nor at the end of a message. -/
theorem setParser (h : Beside b n past u f) {p : HttpParser} {m : ℕ} (bound : m ≤ b)
    (le : u.parser.nread ≤ m) (nread : p.nread = u.parser.nread) (going : p.halted = false) :
    Beside b n past { u with parser := p } { f with parser := p.counted m } :=
  ⟨h.live, h.live', h.outer, h.outer', going, ⟨m, bound, nread ▸ le, rfl⟩, h.parsed, h.told⟩

theorem errno (h : Beside b n past u f) : u.parser.httpErrno = .ok := by
  have going := h.going
  simp only [HttpParser.halted, Bool.or_eq_false_iff] at going
  simpa using going.1

/-- The parser goes to another state. -/
theorem goTo (h : Beside b n past u f) {p : HttpParser} {m : ℕ} (bound : m ≤ b)
    (le : u.parser.nread ≤ m) (other : p.state.isLast = false)
    (nread : p.nread = u.parser.nread) (errno : p.httpErrno = u.parser.httpErrno) :
    Beside b n past { u with parser := p } { f with parser := p.counted m } := by
  refine h.setParser bound le nread ?_
  rw [HttpParser.halted, errno, h.errno, other, Bool.and_false]
  rfl

/-- The parser stays in its state. -/
theorem stay (h : Beside b n past u f) {p : HttpParser} {m : ℕ} (bound : m ≤ b)
    (le : u.parser.nread ≤ m) (state : p.state = u.parser.state)
    (upgrade : p.upgrade = u.parser.upgrade) (nread : p.nread = u.parser.nread)
    (errno : p.httpErrno = u.parser.httpErrno) :
    Beside b n past { u with parser := p } { f with parser := p.counted m } := by
  refine h.setParser bound le nread ?_
  rw [HttpParser.halted, state, upgrade, errno]
  exact h.going

/-- Both counts begin again. -/
theorem reset (h : Beside b n past u f) :
    Beside b n past { u with parser := u.parser.counted 0 }
      { f with parser := f.parser.counted 0 } := by
  obtain ⟨m, -, -, parser⟩ := h.parser
  rw [parser]
  exact ⟨h.live, h.live', h.outer, h.outer', h.going, ⟨0, Nat.zero_le b, Nat.le_refl 0, rfl⟩,
    h.parsed, h.told⟩

theorem updateState (h : Beside b n past u f) {s : State} (other : s.isLast = false) :
    Beside b n past (u.updateState s) (f.updateState s) := by
  obtain ⟨m, bound, le, parser⟩ := h.parser
  rw [Execution.updateState, Execution.updateState, parser]
  exact h.goTo bound le other rfl rfl

theorem failWith (h : Beside b n past u f) {p : HttpParser} {m : ℕ} {err : HttpErrno}
    (failed : (err != .ok) = true) :
    Stopped n past ({ u with parser := p }.error err)
      ({ f with parser := p.counted m }.error err) where
  returned := rfl
  returned' := rfl
  halted := by
    show (err != .ok || _) = true
    rw [failed, Bool.true_or]
  parser := ⟨m, rfl⟩
  parsed := h.parsed
  told := by
    rcases h.told_cases with ⟨-, -, pieces⟩ | ⟨parts, m, pieces, t, pieced, calls, text, -⟩
    · exact ⟨_, [], (List.append_nil _).symm, pieces, .inl rfl⟩
    · exact ⟨parts, _, calls, pieced, .inr ⟨bne_iff_ne.mp failed, m, pieces, t, rfl, text⟩⟩

theorem fail (h : Beside b n past u f) {err : HttpErrno}
    (failed : (err != .ok) = true) :
    Stopped n past (u.error err) (f.error err) := by
  obtain ⟨m, -, -, parser⟩ := h.parser
  have stopped := h.failWith (p := u.parser) (m := m) failed
  rw [← parser] at stopped
  exact stopped

theorem notify (h : Beside b n past u f) (none : u.marked = none) (call : Callback) :
    Beside b n past (u.notify call) (f.notify call) := by
  obtain ⟨none', pieces⟩ := h.unmarked none
  refine ⟨h.live, h.live', h.outer, h.outer', h.going, h.parser, h.parsed, ?_⟩
  rw [Execution.notify_callbacks, Execution.notify_marked, Execution.notify_callbacks,
    Execution.notify_marked, none, none', ← List.append_assoc]
  exact .closed (pieces.append (.refl _))

theorem mark (h : Beside b n past u f) (m : Mark) :
    Beside b n past (u.mark m) (f.mark m) := by
  rcases h.told_cases with
    ⟨none, none', pieces⟩ | ⟨parts, m', pieces, t, pieced, calls, text, text'⟩
  · simp only [Execution.mark, none, none']
    refine ⟨h.live, h.live', h.outer, h.outer', h.going, h.parser, h.parsed, ?_⟩
    have opened : Told u.callbacks (some (m, ([] : List Bytes).flatten ++ []))
        (past ++ f.callbacks ++ [].map m.callback) (some (m, [])) := .opened pieces
    rwa [List.map_nil, List.append_nil, List.append_nil] at opened
  · simp only [Execution.mark, text, text']
    exact h

theorem callbackData (h : Beside b n past u f) (m : Mark) :
    Beside b n past (u.callbackData m) (f.callbackData m) := by
  rcases h.told_cases with
    ⟨none, none', pieces⟩ | ⟨parts, m', pieces, t, pieced, calls, text, text'⟩
  · simp only [Execution.callbackData, none, none']
    exact h
  · simp only [Execution.callbackData, text, text']
    split_ifs with same
    · refine ⟨h.live, h.live', h.outer, h.outer', h.going, h.parser, h.parsed, ?_⟩
      rw [Execution.notify_callbacks, Execution.notify_callbacks, ← List.append_assoc, calls,
        List.append_assoc, ← same]
      exact .closed (pieced.append (.text m' pieces t))
    · exact h

/-! ## Request line -/

section Line

variable (ch : Byte)

theorem startReq (h : Beside b n past u f) (closed : u.marked = none) :
    Abreast b n past (u.startReq ch) (f.startReq ch) := by
  obtain ⟨m, bound, le, parser⟩ := h.parser
  simp only [Execution.startReq, parser, HttpParser.counted]
  split_ifs
  · exact .inl h
  · exact .inr (h.failWith rfl)
  · cases Execution.methodOfLetter ch with
    | none => exact .inr (h.failWith rfl)
    | some method =>
      dsimp only
      refine .inl ((h.goTo bound le ?_ ?_ ?_).notify ?_ _)
      · rfl
      · rfl
      · rfl
      · exact closed

theorem reqMethod (h : Beside b n past u f) :
    Abreast b n past (u.reqMethod ch) (f.reqMethod ch) := by
  obtain ⟨m, bound, le, parser⟩ := h.parser
  simp only [Execution.reqMethod, parser, HttpParser.counted]
  split_ifs
  · exact .inr (h.fail rfl)
  · exact .inl (h.goTo bound le rfl rfl rfl)
  · exact .inl (h.stay bound le rfl rfl rfl rfl)
  · cases Execution.switchMethod u.parser.method u.parser.index ch with
    | none => exact .inr (h.fail rfl)
    | some method => exact .inl (h.stay bound le rfl rfl rfl rfl)

theorem urlChar (h : Beside b n past u f) : Abreast b n past (u.urlChar ch) (f.urlChar ch) := by
  obtain ⟨m, bound, le, parser⟩ := h.parser
  simp only [Execution.urlChar, Execution.updateState, parser, HttpParser.counted]
  split_ifs with dead
  · exact .inr (h.failWith rfl)
  · have alive := (Execution.parseUrlChar_mark dead).1
    exact .inl (h.goTo bound le (State.isLast_of_mark alive) rfl rfl)

theorem reqSpacesBeforeUrl (h : Beside b n past u f) :
    Abreast b n past (u.reqSpacesBeforeUrl ch) (f.reqSpacesBeforeUrl ch) := by
  have marked := h.mark .url
  obtain ⟨m, bound, le, parser⟩ := marked.parser
  simp only [Execution.reqSpacesBeforeUrl, parser, HttpParser.counted]
  split_ifs
  · exact .inl h
  · exact (marked.updateState rfl).urlChar ch
  · exact marked.urlChar ch

theorem reqSchema (h : Beside b n past u f) :
    Abreast b n past (u.reqSchema ch) (f.reqSchema ch) := by
  unfold Execution.reqSchema
  split_ifs
  · exact .inr (h.fail rfl)
  · exact h.urlChar ch

theorem reqUrl (h : Beside b n past u f) : Abreast b n past (u.reqUrl ch) (f.reqUrl ch) := by
  obtain ⟨m, bound, le, parser⟩ := h.parser
  simp only [Execution.reqUrl, Execution.updateState, parser, HttpParser.counted]
  split_ifs
  · refine .inl ((h.goTo bound le ?_ ?_ ?_).callbackData _) <;> rfl
  · refine .inl ((h.goTo bound le ?_ ?_ ?_).callbackData _) <;> rfl
  · refine .inl ((h.goTo bound le ?_ ?_ ?_).callbackData _) <;> rfl
  · exact h.urlChar ch

theorem reqHttpStart (h : Beside b n past u f) :
    Abreast b n past (u.reqHttpStart ch) (f.reqHttpStart ch) := by
  unfold Execution.reqHttpStart
  split_ifs
  · exact .inl (h.updateState rfl)
  · exact .inl h
  · exact .inr (h.fail rfl)

theorem expect (h : Beside b n past u f) (expected : Byte) {s : State}
    (other : s.isLast = false) :
    Abreast b n past (u.expect ch expected s) (f.expect ch expected s) := by
  unfold Execution.expect
  split_ifs
  · exact .inr (h.fail rfl)
  · exact .inl (h.updateState other)

theorem reqFirstHttpMajor (h : Beside b n past u f) :
    Abreast b n past (u.reqFirstHttpMajor ch) (f.reqFirstHttpMajor ch) := by
  obtain ⟨m, bound, le, parser⟩ := h.parser
  simp only [Execution.reqFirstHttpMajor, parser, HttpParser.counted]
  split_ifs
  · exact .inr (h.fail rfl)
  · exact .inl (h.goTo bound le rfl rfl rfl)

theorem reqHttpMajor (h : Beside b n past u f) :
    Abreast b n past (u.reqHttpMajor ch) (f.reqHttpMajor ch) := by
  obtain ⟨m, bound, le, parser⟩ := h.parser
  simp only [Execution.reqHttpMajor, parser, HttpParser.counted]
  split_ifs
  · exact .inl (h.updateState rfl)
  · exact .inr (h.fail rfl)
  · exact .inr (h.failWith rfl)
  · exact .inl (h.stay bound le rfl rfl rfl rfl)

theorem reqFirstHttpMinor (h : Beside b n past u f) :
    Abreast b n past (u.reqFirstHttpMinor ch) (f.reqFirstHttpMinor ch) := by
  obtain ⟨m, bound, le, parser⟩ := h.parser
  simp only [Execution.reqFirstHttpMinor, parser, HttpParser.counted]
  split_ifs
  · exact .inr (h.fail rfl)
  · exact .inl (h.goTo bound le rfl rfl rfl)

theorem reqHttpMinor (h : Beside b n past u f) :
    Abreast b n past (u.reqHttpMinor ch) (f.reqHttpMinor ch) := by
  obtain ⟨m, bound, le, parser⟩ := h.parser
  simp only [Execution.reqHttpMinor, parser, HttpParser.counted]
  split_ifs
  · exact .inl (h.updateState rfl)
  · exact .inl (h.updateState rfl)
  · exact .inr (h.fail rfl)
  · exact .inr (h.failWith rfl)
  · exact .inl (h.stay bound le rfl rfl rfl rfl)

theorem reqLineAlmostDone (h : Beside b n past u f) :
    Abreast b n past (u.reqLineAlmostDone ch) (f.reqLineAlmostDone ch) := by
  unfold Execution.reqLineAlmostDone
  split_ifs
  · exact .inr (h.fail rfl)
  · exact .inl (h.updateState rfl)

end Line

/-! ## End of a message -/

section Message

variable (ch : Byte)

/-- The message ends, and the connection is to go on with another one or not at all. -/
theorem completeMessage (h : Beside b n past u f) (none : u.marked = none)
    (plain : u.parser.upgrade = false) :
    Beside b n past u.completeMessage f.completeMessage := by
  obtain ⟨m, bound, le, parser⟩ := h.parser
  simp only [Execution.completeMessage, Execution.updateState, parser]
  refine (h.setParser bound le ?_ ?_).notify ?_ _
  · rfl
  · show (u.parser.httpErrno != .ok || u.parser.upgrade && _) = false
    rw [h.errno, plain]
    rfl
  · exact none

/-- Another protocol follows. -/
theorem exit (h : Beside b n past u f) (none : u.marked = none)
    (upgrade : u.parser.upgrade = true) :
    Stopped n past u.completeMessage.returnPast f.completeMessage.returnPast := by
  obtain ⟨m, bound, le, parser⟩ := h.parser
  obtain ⟨none', pieces⟩ := h.unmarked none
  refine ⟨rfl, rfl, ?_, ⟨m, ?_⟩, congrArg (· + 1) h.parsed, ?_⟩
  · show (u.parser.httpErrno != .ok || u.parser.upgrade && (newMessage u.parser).isLast) = true
    rw [upgrade, newMessage_isLast, Bool.and_true, Bool.or_true]
  · simp only [Execution.returnPast, Execution.completeMessage, Execution.notify,
      Execution.updateState, parser]
    rfl
  · refine ⟨past ++ f.callbacks ++ [.onMessageComplete], [], ?_, pieces.append (.refl _), .inl rfl⟩
    rw [List.append_nil, List.append_assoc]
    rfl

theorem messageDone (h : Beside b n past u f) (none : u.marked = none) :
    Abreast b n past u.messageDone f.messageDone := by
  obtain ⟨m, -, -, parser⟩ := h.parser
  have same : f.completeMessage.parser.upgrade = u.parser.upgrade := congrArg (·.upgrade) parser
  unfold Execution.messageDone
  dsimp only
  rw [same, show u.completeMessage.parser.upgrade = u.parser.upgrade from rfl]
  split_ifs with upgrade
  · exact .inr (h.exit none upgrade)
  · exact .inl (h.completeMessage none (by simpa using upgrade))

theorem headersDone (h : Beside b n past u f) (none : u.marked = none) :
    Abreast b n past (u.headersDone ch) (f.headersDone ch) := by
  have counted := h.reset
  obtain ⟨m, -, -, parser⟩ := h.parser
  simp only [Execution.headersDone, parser, HttpParser.counted] at counted ⊢
  split_ifs with strict exits skip chunked empty given
  · exact .inr (h.fail rfl)
  · exact .inr (counted.exit none exits.1)
  · refine .inl (counted.completeMessage none ?_)
    exact Bool.eq_false_iff.mpr fun upgrade => exits ⟨upgrade, .inr (.inl skip)⟩
  · exact .inl (counted.updateState rfl)
  · refine .inl (counted.completeMessage none ?_)
    -- no body follows, so an upgrade would have ended the run
    exact Bool.eq_false_iff.mpr fun upgrade =>
      exits ⟨upgrade, .inr (.inr (by simp [Execution.hasBody, chunked, empty]))⟩
  · exact .inl (counted.updateState rfl)
  · refine .inl (counted.completeMessage none ?_)
    exact Bool.eq_false_iff.mpr fun upgrade =>
      exits ⟨upgrade, .inr (.inr (by simp [Execution.hasBody, chunked, not_ne_iff.mp given]))⟩

theorem headersAlmostDone (h : Beside b n past u f) (none : u.marked = none) :
    Abreast b n past (u.headersAlmostDone ch) (f.headersAlmostDone ch) := by
  obtain ⟨m, bound, le, parser⟩ := h.parser
  simp only [Execution.headersAlmostDone, parser, HttpParser.counted]
  split_ifs
  · exact .inr (h.fail rfl)
  · have done := h.updateState (s := .messageDone) rfl
    exact (done.notify none _).messageDone none
  · refine headersDone ch ((h.goTo bound le ?_ ?_ ?_).notify ?_ _) ?_
    · rfl
    · rfl
    · rfl
    · exact none
    · exact none

end Message

/-! ## Header lines -/

section Header

variable (ch : Byte)

theorem headerFieldStart (h : Beside b n past u f) (none : u.marked = none) :
    Abreast b n past (u.headerFieldStart ch) (f.headerFieldStart ch) := by
  have marked := h.mark .headerField
  obtain ⟨m, bound, le, parser⟩ := marked.parser
  simp only [Execution.headerFieldStart, parser, HttpParser.counted]
  split_ifs
  · exact .inl (h.updateState rfl)
  · exact (h.updateState rfl).headersAlmostDone ch none
  · exact .inr (h.fail rfl)
  · exact .inl (marked.goTo bound le rfl rfl rfl)

theorem headerValueStart (h : Beside b n past u f) :
    Abreast b n past (u.headerValueStart ch) (f.headerValueStart ch) := by
  have marked := h.mark .headerValue
  obtain ⟨m, bound, le, parser⟩ := marked.parser
  simp only [Execution.headerValueStart, parser, HttpParser.counted]
  split
  · exact .inl (marked.goTo bound le rfl rfl rfl)
  · exact .inl (marked.goTo bound le rfl rfl rfl)
  · split_ifs
    · exact .inr (marked.failWith rfl)
    · exact .inl (marked.goTo bound le rfl rfl rfl)
  · exact .inl (marked.goTo bound le rfl rfl rfl)
  · exact .inl (marked.goTo bound le rfl rfl rfl)
  · exact .inl (marked.goTo bound le rfl rfl rfl)

theorem headerValueDiscardWs (h : Beside b n past u f) :
    Abreast b n past (u.headerValueDiscardWs ch) (f.headerValueDiscardWs ch) := by
  unfold Execution.headerValueDiscardWs
  split_ifs
  · exact .inl h
  · exact .inl (h.updateState rfl)
  · exact .inl (h.updateState rfl)
  · exact h.headerValueStart ch

theorem lineFlag_frame (p : HttpParser) :
    Execution.lineFlag p = { p with flags := (Execution.lineFlag p).flags } := by
  unfold Execution.lineFlag Execution.connectionFlag
  split
  · rfl
  · split <;> rfl

/-- The flags of a line are those of its header state. -/
theorem setLineFlag (h : Beside b n past u f) :
    Beside b n past { u with parser := Execution.lineFlag u.parser }
      { f with parser := Execution.lineFlag f.parser } := by
  obtain ⟨m, bound, le, parser⟩ := h.parser
  rw [parser, Execution.lineFlag_counted]
  rw [lineFlag_frame]
  exact h.stay bound le rfl rfl rfl rfl

theorem headerValueLws (h : Beside b n past u f) (none : u.marked = none) :
    Abreast b n past (u.headerValueLws ch) (f.headerValueLws ch) := by
  unfold Execution.headerValueLws
  split_ifs
  · exact (h.updateState rfl).headerValueStart ch
  · exact (h.setLineFlag.updateState rfl).headerFieldStart ch none

theorem headerValueDiscardLws (h : Beside b n past u f) (none : u.marked = none) :
    Abreast b n past (u.headerValueDiscardLws ch) (f.headerValueDiscardLws ch) := by
  unfold Execution.headerValueDiscardLws
  split_ifs
  · exact .inl (h.updateState rfl)
  · have marked := h.setLineFlag.mark .headerValue
    refine ((marked.updateState rfl).callbackData _).headerFieldStart ch ?_
    simp [Execution.callbackData, Execution.updateState, Execution.mark, none]

end Header

/-! ## Bodies -/

section Body

variable (ch : Byte)

theorem chunkSizeStart (h : Beside b n past u f) :
    Abreast b n past (u.chunkSizeStart ch) (f.chunkSizeStart ch) := by
  obtain ⟨m, bound, le, parser⟩ := h.parser
  simp only [Execution.chunkSizeStart, parser, HttpParser.counted]
  cases unhex ch with
  | none => exact .inr (h.fail rfl)
  | some v => exact .inl (h.goTo bound le rfl rfl rfl)

theorem chunkSize (h : Beside b n past u f) :
    Abreast b n past (u.chunkSize ch) (f.chunkSize ch) := by
  obtain ⟨m, bound, le, parser⟩ := h.parser
  simp only [Execution.chunkSize, parser, HttpParser.counted]
  split
  · exact .inl (h.updateState rfl)
  · cases unhex ch with
    | none =>
      dsimp only
      split_ifs
      · exact .inl (h.updateState rfl)
      · exact .inr (h.fail rfl)
    | some v =>
      dsimp only
      split_ifs
      · exact .inr (h.fail rfl)
      · exact .inl (h.stay bound le rfl rfl rfl rfl)

theorem chunkParameters (h : Beside b n past u f) :
    Abreast b n past (u.chunkParameters ch) (f.chunkParameters ch) := by
  unfold Execution.chunkParameters
  split_ifs
  · exact .inl (h.updateState rfl)
  · exact .inl h

theorem chunkSizeAlmostDone (h : Beside b n past u f) (none : u.marked = none) :
    Abreast b n past (u.chunkSizeAlmostDone ch) (f.chunkSizeAlmostDone ch) := by
  have counted := h.reset
  obtain ⟨m, -, -, parser⟩ := h.parser
  simp only [Execution.chunkSizeAlmostDone, parser, HttpParser.counted] at counted ⊢
  split_ifs
  · exact .inr (h.fail rfl)
  · refine .inl ((counted.goTo (Nat.zero_le b) (Nat.le_refl 0) ?_ ?_ ?_).notify ?_ _)
    · rfl
    · rfl
    · rfl
    · exact none
  · refine .inl ((counted.goTo (Nat.zero_le b) (Nat.le_refl 0) ?_ ?_ ?_).notify ?_ _)
    · rfl
    · rfl
    · rfl
    · exact none

theorem chunkData (h : Beside b n past u f) : Abreast b n past u.chunkData f.chunkData := by
  have marked := h.mark .body
  obtain ⟨m, bound, le, parser⟩ := marked.parser
  have taken := marked.stay bound le (p := { (u.mark .body).parser with
    contentLength := (u.mark .body).parser.contentLength - 1 }) rfl rfl rfl rfl
  unfold Execution.chunkData
  dsimp only
  rw [parser, show ((u.mark .body).parser.counted m).contentLength =
    (u.mark .body).parser.contentLength from rfl]
  split
  · exact .inl (taken.updateState rfl)
  · exact .inl taken

theorem chunkDataAlmostDone (h : Beside b n past u f) :
    Abreast b n past (u.chunkDataAlmostDone ch) (f.chunkDataAlmostDone ch) := by
  unfold Execution.chunkDataAlmostDone
  split_ifs
  · exact .inr (h.fail rfl)
  · exact .inl ((h.updateState rfl).callbackData _)

theorem chunkDataDone (h : Beside b n past u f) (none : u.marked = none) :
    Abreast b n past (u.chunkDataDone ch) (f.chunkDataDone ch) := by
  have counted := h.reset
  unfold Execution.chunkDataDone
  split_ifs
  · exact .inr (h.fail rfl)
  · exact .inl ((counted.updateState rfl).notify none _)

theorem advanceMark (h : Beside b n past u f) :
    Beside b n past { u with marked := u.marked.map fun (m, text) => (m, text ++ [ch]) }
      { f with marked := f.marked.map fun (m, text) => (m, text ++ [ch]) } := by
  refine ⟨h.live, h.live', h.outer, h.outer', h.going, h.parser, h.parsed, ?_⟩
  rcases h.told_cases with ⟨none, none', pieces⟩ | ⟨parts, m, pieces, t, pieced, calls, text, text'⟩
  · rw [none, none']
    exact .closed pieces
  · dsimp only
    rw [text, text', Option.map_some, Option.map_some, calls]
    dsimp only
    rw [List.append_assoc]
    exact .opened pieced

theorem callbackData_closed {x : Execution} {m : Mark}
    (only : ∀ m' t, x.marked = some (m', t) → m' = m) : (x.callbackData m).marked = none := by
  cases marked : x.marked with
  | none => simp only [Execution.callbackData, marked]
  | some text => simp only [Execution.callbackData, marked, if_pos (only _ _ marked)]

theorem mark_only {x : Execution} {m : Mark} (only : ∀ m' t, x.marked = some (m', t) → m' = m)
    {m' : Mark} {t : Bytes} (marked : (x.mark m).marked = some (m', t)) : m' = m := by
  unfold Execution.mark at marked
  split at marked
  · cases marked
    rfl
  · exact only m' t marked

theorem bodyIdentity (h : Beside b n past u f)
    (only : ∀ m t, u.marked = some (m, t) → m = .body) :
    Abreast b n past (u.bodyIdentity ch) (f.bodyIdentity ch) := by
  have marked := h.mark .body
  obtain ⟨m, bound, le, parser⟩ := marked.parser
  have taken := marked.stay bound le (p := { (u.mark .body).parser with
    contentLength := (u.mark .body).parser.contentLength - 1 }) rfl rfl rfl rfl
  unfold Execution.bodyIdentity
  dsimp only
  rw [parser, show ((u.mark .body).parser.counted m).contentLength =
    (u.mark .body).parser.contentLength from rfl]
  split
  · have ended := (taken.updateState (s := .messageDone) rfl).advanceMark ch
    refine (ended.callbackData .body).messageDone (callbackData_closed fun m' t text => ?_)
    obtain ⟨⟨m'', t'⟩, was, same⟩ := Option.map_eq_some_iff.mp text
    cases same
    exact mark_only only was
  · exact .inl taken

end Body

theorem mono {b' : ℕ} (h : Beside b n past u f) (le : b ≤ b') : Beside b' n past u f := by
  obtain ⟨m, bound, rest⟩ := h.parser
  exact ⟨h.live, h.live', h.outer, h.outer', h.going, ⟨m, bound.trans le, rest⟩, h.parsed, h.told⟩

end Beside

end Viking.Http
