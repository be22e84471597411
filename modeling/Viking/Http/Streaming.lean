/-
# Parsing what comes in parts

`feed` is a caller that hands over the buffers as they are received. `feed_pieces` says that its
calls give what one call on all the bytes gives, with some of the texts in pieces, and
`feed_independent` that it does not matter then how the bytes have been divided.

Only the limit on the size of a header can tell: a buffer that ends in a name or in a value of a
field has one byte counted twice, so the run in parts may find a header too large that the other
one lets pass. `Together` relates the two runs between any two bytes, also in the inner loops, and
`Doomed` are the runs in parts that come to such an end.
-/

import Viking.Http.SideBySide

namespace Viking.Http

open Texts

/-- What the calls on several buffers give together. -/
structure Fed where
  parser : HttpParser
  callbacks : List Callback := []
  parsed : ℕ := 0
  deriving DecidableEq, Repr

/-- A caller that hands over the buffers as they come, for as long as the parser goes on. -/
def feed (parser : HttpParser) : List Bytes → Fed
  | [] => { parser := parser }
  | data :: rest =>
    let e := httpParserExecute parser data
    if e.parser.halted then ⟨e.parser, e.callbacks, e.parsed⟩
    else
      let later := feed e.parser rest
      ⟨later.parser, e.callbacks ++ later.callbacks, e.parsed + later.parsed⟩

/-! ## The loops -/

/-- The count is the one of the parser: what is charged and how much is known. -/
theorem Beside.count {b n v v' : ℕ} {past : List Callback} {x y : Execution}
    (h : Beside b n past (x.charged v) (y.charged v')) (small : b < 2 ^ 32)
    (next next' : Execution → Execution) :
    (httpMaxHeaderSize < b + 1 ∧ (y.countHeaderSize v' next').returned = true ∧
        (y.countHeaderSize v' next').parser.httpErrno = .headerOverflow) ∨
      (x.countHeaderSize v next = next (x.charged v) ∧
        y.countHeaderSize v' next' = next' (y.charged v') ∧
          y.parser.nread + v' ≤ httpMaxHeaderSize) := by
  obtain ⟨m, bound, le, parser⟩ := h.parser
  have count : y.parser.nread + v' = m := congrArg (·.nread) parser
  have less : x.parser.nread + v ≤ m := le
  rw [Execution.countHeaderSize_eq y next' (by omega),
    Execution.countHeaderSize_eq x next (by omega)]
  by_cases above : y.parser.nread + v' > httpMaxHeaderSize
  · rw [if_pos above]
    exact .inl ⟨by omega, rfl, rfl⟩
  · rw [if_neg above, if_neg (by omega)]
    exact .inr ⟨rfl, rfl, Nat.le_of_not_lt above⟩

/-- The number of bytes that `memchr` has looked at. -/
def Inner.looked : Inner → ℕ
  | .search _ looked => looked
  | _ => 0

/-- The loops that the runs are in when they have counted `s` and `s'` bytes: the same one, or `f`
is at the start of a buffer and has not come back to it. -/
inductive Loops (s s' : ℕ) : Option Inner → Option Inner → Prop
  | outside : Loops s s' none none
  | field {read read' : ℕ} : 0 < s →
      Loops s s' (some (.headerField read)) (some (.headerField read'))
  | value {read read' : ℕ} : 0 < s →
      Loops s s' (some (.headerValue read)) (some (.headerValue read'))
  | search {read looked read' looked' : ℕ} : looked < s → looked' < s' →
      Loops s s' (some (.search read looked)) (some (.search read' looked'))
  | again {i : Inner} : i.looked < s → (∀ read, i ≠ .skip read) → s' ≤ httpMaxHeaderSize →
      Loops s s' (some i) none

/-- The runs between two bytes. -/
structure Together (b n : ℕ) (past : List Callback) (u f : Execution) : Prop where
  loops : Loops (u.parser.nread + u.charge) (f.parser.nread + f.charge) u.inner f.inner
  general : ∀ read looked, u.inner = some (.search read looked) →
    u.parser.headerState = .general
  beside : Beside (b + if f.inner.isSome then 1 else 0) n past (u.settled u.charge)
    (f.settled f.charge)

/-- The run in parts has found the header too large, or is in a loop that will find it so. -/
inductive Doomed (b : ℕ) (f : Execution) : Prop
  | overflowed : httpMaxHeaderSize < b + 1 → f.returned = true →
      f.parser.httpErrno = .headerOverflow → Doomed b f
  | searching {i : Inner} : f.returned = false → f.inner = some i → i.searches = true →
      httpMaxHeaderSize < f.parser.nread + Execution.Inner.charge i →
      f.parser.nread + Execution.Inner.charge i ≤ b + 1 → Doomed b f

/-- What becomes of the runs with a byte. -/
def Outcome (b n : ℕ) (past : List Callback) (u f : Execution) : Prop :=
  Doomed b f ∨ Stopped n past u f ∨ Together b n past u f

section Loops

variable {b n : ℕ} {past : List Callback} {u f x y : Execution} (ch : Byte)

theorem Execution.settled_zero (outer : x.inner = none) : x.settled 0 = x := by
  rw [settled, ← outer]
  rfl

theorem Beside.together (h : Beside b n past x y) : Together b n past x y := by
  have charge : x.charge = 0 := by rw [Execution.charge, h.outer]; rfl
  have charge' : y.charge = 0 := by rw [Execution.charge, h.outer']; rfl
  refine ⟨?_, ?_, ?_⟩
  · rw [h.outer, h.outer']
    exact .outside
  · rw [h.outer]
    exact fun _ _ impossible => nomatch impossible
  · rw [charge, charge', Execution.settled_zero h.outer, Execution.settled_zero h.outer', h.outer']
    exact h

theorem Abreast.outcome (h : Abreast b n past x y) : Outcome b n past x y := by
  rcases h with beside | stopped
  · exact .inr (.inr beside.together)
  · exact .inr (.inl stopped)

theorem Beside.same {v v' : ℕ} (h : Beside b n past (u.settled v) (f.settled v')) :
    f.parser = u.parser.counted f.parser.nread := by
  obtain ⟨m, -, -, parser⟩ := h.parser
  exact congrArg (·.counted f.parser.nread) parser

theorem Beside.failInside {v v' : ℕ} {err : HttpErrno}
    (h : Beside b n past (u.settled v) (f.settled v')) (failed : (err != .ok) = true) :
    Stopped n past (u.error err) (f.error err) := by
  have stopped := h.fail failed
  have parser : (f.error err).parser = (u.error err).parser.counted f.parser.nread :=
    congrArg (fun p : HttpParser => { p with httpErrno := err }) h.same
  exact ⟨rfl, rfl, stopped.halted, ⟨_, parser⟩, stopped.parsed, stopped.told⟩

/-- The runs go on in their loops, with one more byte to be counted. -/
theorem Beside.inLoop {i j : Inner} {v v' : ℕ} (h : Beside b n past (u.settled v) (f.settled v'))
    {p : HttpParser} (other : p.state.isLast = false) (nread : p.nread = u.parser.nread)
    (errno : p.httpErrno = u.parser.httpErrno) (charge : Execution.Inner.charge i = v + 1)
    (charge' : Execution.Inner.charge j = v' + 1)
    (loops : Loops (u.parser.nread + (v + 1)) (f.parser.nread + (v' + 1)) (some i) (some j))
    (general : ∀ read looked, i = .search read looked → p.headerState = .general) :
    Together b n past { u with parser := p, inner := some i }
      { f with parser := p.counted f.parser.nread, inner := some j } := by
  obtain ⟨m, bound, le, parser⟩ := h.parser
  have count : f.parser.nread + v' = m := congrArg (·.nread) parser
  have less : u.parser.nread + v ≤ m := le
  refine ⟨?_, fun read looked inner => general read looked (Option.some.inj inner), ?_⟩
  · show Loops (p.nread + Execution.Inner.charge i) (f.parser.nread + Execution.Inner.charge j)
      (some i) (some j)
    rw [charge, charge', nread]
    exact loops
  · show Beside (b + 1) n past
      { u with parser := p.counted (p.nread + Execution.Inner.charge i), inner := none }
      { f with parser := p.counted (f.parser.nread + Execution.Inner.charge j), inner := none }
    rw [charge, charge', nread]
    refine ⟨h.live, h.live', rfl, rfl, ?_, ⟨f.parser.nread + (v' + 1), ?_, ?_, rfl⟩, h.parsed,
      h.told⟩
    · show (p.httpErrno != .ok || p.upgrade && p.state.isLast) = false
      rw [errno, other, Bool.and_false]
      exact (Bool.or_false _).trans (bne_eq_false_iff_eq.mpr h.errno)
    · omega
    · show u.parser.nread + (v + 1) ≤ f.parser.nread + (v' + 1)
      omega

theorem headerFieldLoop_outcome {read read' : ℕ}
    (h : Beside b n past (u.settled read) (f.settled read')) (small : b < 2 ^ 32)
    (state : u.parser.state = .headerField) (counted : 0 < u.parser.nread + read) :
    Outcome b n past (u.headerFieldLoop ch read) (f.headerFieldLoop ch read') := by
  have outside : Beside b n past (({ u with inner := none } : Execution).charged read)
    (({ f with inner := none } : Execution).charged read') := h
  unfold Execution.headerFieldLoop
  split
  · rcases outside.count small _ _ with ⟨above, returned, errno⟩ | ⟨left, right, -⟩
    · exact .inl (.overflowed above returned errno)
    · rw [left, right]
      split
      · exact Abreast.outcome (.inl ((outside.updateState rfl).callbackData _))
      · exact Abreast.outcome (.inr (outside.fail rfl))
  · rw [h.same, Execution.headerFieldByte_counted]
    have frame := headerFieldByte_frame u.parser ch
    refine .inr (.inr (h.inLoop ?_ ?_ ?_ rfl rfl (.field (by omega)) ?_))
    · rw [frame]
      show u.parser.state.isLast = false
      rw [state]
      rfl
    · rw [frame]
    · rw [frame]
    · exact fun _ _ impossible => nomatch impossible

theorem Execution.callbackData_charged (e : Execution) (m : Mark) (v : ℕ) :
    (e.callbackData m).charged v = (e.charged v).callbackData m := by
  cases marked : e.marked with
  | none => simp only [callbackData, charged, marked]
  | some text =>
    simp only [callbackData, charged, marked]
    split_ifs
    · rfl
    · rw [← marked]

theorem Execution.parser_callbackData (e : Execution) (m : Mark) :
    (e.callbackData m).parser = e.parser := by
  unfold callbackData
  split
  · split_ifs <;> rfl
  · rfl

theorem headerValueEnd_outcome {read read' : ℕ}
    (h : Beside b n past (u.settled read) (f.settled read')) (small : b < 2 ^ 32) :
    Outcome b n past (u.headerValueEnd ch read) (f.headerValueEnd ch read') := by
  have ended := h.updateState (s := .headerAlmostDone) rfl
  unfold Execution.headerValueEnd
  dsimp only
  split
  · have told := ended.callbackData .headerValue
    rw [show ∀ e v, (Execution.settled e v).updateState .headerAlmostDone =
      (({ e with inner := none } : Execution).updateState .headerAlmostDone).charged v
        from fun _ _ => rfl, show ∀ e v, (Execution.settled e v).updateState .headerAlmostDone =
      (({ e with inner := none } : Execution).updateState .headerAlmostDone).charged v
        from fun _ _ => rfl, ← Execution.callbackData_charged,
      ← Execution.callbackData_charged] at told
    rcases told.count small id id with ⟨above, returned, errno⟩ | ⟨left, right, -⟩
    · exact .inl (.overflowed above returned errno)
    · rw [left, right]
      exact Abreast.outcome (.inl told)
  · rcases Beside.count (x := ({ u with inner := none } : Execution).updateState .headerAlmostDone)
      (y := ({ f with inner := none } : Execution).updateState .headerAlmostDone) ended small
      _ _ with ⟨above, returned, errno⟩ | ⟨left, right, -⟩
    · exact .inl (.overflowed above returned errno)
    · rw [left, right]
      exact Abreast.outcome ((ended.callbackData .headerValue).expect ch lf rfl)

theorem Execution.headerValueByte_keeps {p q : HttpParser}
    (h : headerValueByte p ch = some q) :
    q.httpErrno = p.httpErrno ∧ q.flags.trailing = p.flags.trailing := by
  unfold headerValueByte at h
  cases state : p.headerState
  all_goals simp only [state] at h
  all_goals try split_ifs at h
  all_goals
    simp only [Option.some.injEq] at h
    subst h
    try rw [matchText_frame]
  all_goals simp only [connectionFlag, state, and_self]

theorem Execution.headerValueByte_counts {p q : HttpParser}
    (h : headerValueByte p ch = some q) : q.nread = p.nread := by
  have same := headerValueByte_counted p p.nread ch
  rw [show p.counted p.nread = p from rfl, h, Option.map_some, Option.some.injEq] at same
  exact congrArg (·.nread) same

theorem headerValueLoop_outcome {read read' : ℕ}
    (h : Beside b n past (u.settled read) (f.settled read')) (small : b < 2 ^ 32)
    (state : u.parser.state = .headerValue) (counted : 0 < u.parser.nread + read)
    (counted' : 0 < f.parser.nread + read') :
    Outcome b n past (u.headerValueLoop ch read) (f.headerValueLoop ch read') := by
  have live : (u.parser.state).isLast = false := by rw [state]; rfl
  have same := h.same
  unfold Execution.headerValueLoop
  rw [show f.parser.headerState = u.parser.headerState from congrArg (·.headerState) same]
  split
  · exact headerValueEnd_outcome ch h small
  · split
    · rename_i general
      have looks := h.inLoop (i := .search (read + 1) 1) (j := .search (read' + 1) 1) live rfl rfl
        rfl rfl (.search (by omega) (by omega)) fun _ _ _ => general
      rw [← same] at looks
      exact .inr (.inr looks)
    · rw [same, Execution.headerValueByte_counted]
      cases byte : Execution.headerValueByte u.parser ch with
      | none =>
        exact .inr (.inl (h.failInside rfl))
      | some p =>
        refine .inr (.inr (h.inLoop ?_ (Execution.headerValueByte_counts ch byte)
          (Execution.headerValueByte_keeps ch byte).1 rfl rfl (.value (by omega)) ?_))
        · rw [Execution.headerValueByte_state state byte]
          rfl
        · exact fun _ _ impossible => nomatch impossible

/-- A value that is longer than `memchr` looks ends in a header that is too large. -/
theorem headerValueEnd_over {read : ℕ} (small : f.parser.nread + read < 2 ^ 32)
    (above : httpMaxHeaderSize < f.parser.nread + read) :
    (f.headerValueEnd ch read).returned = true ∧
      (f.headerValueEnd ch read).parser.httpErrno = .headerOverflow := by
  have overflow (x : Execution) (parser : x.parser = { f.parser with state := .headerAlmostDone })
      (next : Execution → Execution) : (x.countHeaderSize read next).returned = true ∧
        (x.countHeaderSize read next).parser.httpErrno = .headerOverflow := by
    have count : x.parser.nread = f.parser.nread := congrArg (·.nread) parser
    rw [Execution.countHeaderSize_eq x next (count ▸ small), if_pos (count ▸ above)]
    exact ⟨rfl, rfl⟩
  unfold Execution.headerValueEnd
  dsimp only
  split
  · exact overflow _ (Execution.parser_callbackData _ _) _
  · exact overflow _ rfl _

/-- `f` searches a value of which it has read more than a header may have. -/
theorem searchLoop_doomed {read looked : ℕ} (small : b + 1 < 2 ^ 32)
    (live : f.returned = false) (above : httpMaxHeaderSize < f.parser.nread + (read + 1))
    (enough : looked < httpMaxHeaderSize → httpMaxHeaderSize < f.parser.nread + read)
    (bound : f.parser.nread + read ≤ b) : Doomed b (f.searchLoop ch read looked) := by
  unfold Execution.searchLoop
  split_ifs with far line
  · exact .searching (i := .skip (read + 1)) live rfl rfl above
      (by simp only [Execution.Inner.charge]; omega)
  · obtain ⟨returned, errno⟩ :=
      headerValueEnd_over ch (by omega) (enough (by omega))
    exact .overflowed (by have := enough (by omega); omega) returned errno
  · exact .searching (i := .search (read + 1) (looked + 1)) live rfl rfl above
      (by simp only [Execution.Inner.charge]; omega)

theorem searchLoop_outcome {read looked read' looked' : ℕ}
    (h : Beside b n past (u.settled read) (f.settled read')) (small : b + 1 < 2 ^ 32)
    (state : u.parser.state = .headerValue) (general : u.parser.headerState = .general)
    (before : looked < u.parser.nread + read) (before' : looked' < f.parser.nread + read') :
    Outcome b n past (u.searchLoop ch read looked) (f.searchLoop ch read' looked') := by
  obtain ⟨m, bound, le, parser⟩ := h.parser
  have count : f.parser.nread + read' = m := congrArg (·.nread) parser
  have less : u.parser.nread + read ≤ m := le
  by_cases near : looked < httpMaxHeaderSize ∧ looked' < httpMaxHeaderSize
  · unfold Execution.searchLoop
    rw [if_neg (show ¬ looked ≥ httpMaxHeaderSize by omega),
      if_neg (show ¬ looked' ≥ httpMaxHeaderSize by omega)]
    split
    · exact headerValueEnd_outcome ch h (by omega)
    · have live : (u.parser.state).isLast = false := by rw [state]; rfl
      have looks := h.inLoop (i := .search (read + 1) (looked + 1))
        (j := .search (read' + 1) (looked' + 1)) live rfl rfl rfl rfl
        (.search (by omega) (by omega)) fun _ _ _ => general
      rw [← h.same] at looks
      exact .inr (.inr looks)
  · -- one of the runs has given the search up, and both have read enough for an overflow
    exact .inl (searchLoop_doomed ch small h.live' (by omega) (by omega) (by omega))

/-! ## The main loop -/

/-- Every case of the main loop. -/
theorem dispatch_outcome (h : Beside b n past u f) (fits : u.Fits) (small : b + 1 < 2 ^ 32)
    (counted : u.parser.state.parsingHeader = true → 0 < u.parser.nread) :
    Outcome b n past (u.dispatch ch) (f.dispatch ch) := by
  have settled : Beside b n past (u.settled 0) (f.settled 0) := by
    rw [Execution.settled_zero h.outer, Execution.settled_zero h.outer']
    exact h
  have less : u.parser.nread ≤ f.parser.nread := by
    obtain ⟨m, -, le, parser⟩ := h.parser
    rw [parser]
    exact le
  have closed {s : State} (here : u.parser.state = s) (unmarked : s.mark = none) :
      u.marked = none :=
    fits.unmarked (here ▸ unmarked)
  have same : f.parser.state = u.parser.state := by
    obtain ⟨m, -, -, parser⟩ := h.parser
    rw [parser]
    rfl
  unfold Execution.dispatch
  rw [same]
  cases state : u.parser.state
  case dead =>
    dsimp only
    split_ifs
    · exact Abreast.outcome (.inl h)
    · exact Abreast.outcome (.inr (h.fail rfl))
  case startReq => exact (h.startReq ch (closed state rfl)).outcome
  case reqMethod => exact (h.reqMethod ch).outcome
  case reqSpacesBeforeUrl => exact (h.reqSpacesBeforeUrl ch).outcome
  case reqSchema | reqSchemaSlash | reqSchemaSlashSlash | reqServerStart =>
    exact (h.reqSchema ch).outcome
  case reqServer | reqServerWithAt | reqPath | reqQueryStringStart | reqQueryString
      | reqFragmentStart | reqFragment =>
    exact (h.reqUrl ch).outcome
  case reqHttpStart => exact (h.reqHttpStart ch).outcome
  case reqHttpH | reqHttpHT | reqHttpHTT | reqHttpHTTP | headerValueDiscardWsAlmostDone
      | headerAlmostDone =>
    exact (h.expect ch _ rfl).outcome
  case reqFirstHttpMajor => exact (h.reqFirstHttpMajor ch).outcome
  case reqHttpMajor => exact (h.reqHttpMajor ch).outcome
  case reqFirstHttpMinor => exact (h.reqFirstHttpMinor ch).outcome
  case reqHttpMinor => exact (h.reqHttpMinor ch).outcome
  case reqLineAlmostDone => exact (h.reqLineAlmostDone ch).outcome
  case headerFieldStart => exact (h.headerFieldStart ch (closed state rfl)).outcome
  case headerField =>
    have some := counted (state ▸ rfl)
    exact headerFieldLoop_outcome ch settled (by omega) state some
  case headerValueDiscardWs => exact (h.headerValueDiscardWs ch).outcome
  case headerValueDiscardLws => exact (h.headerValueDiscardLws ch (closed state rfl)).outcome
  case headerValueStart => exact (h.headerValueStart ch).outcome
  case headerValue =>
    have some := counted (state ▸ rfl)
    exact headerValueLoop_outcome ch settled (by omega) state some (by omega)
  case headerValueLws => exact (h.headerValueLws ch (closed state rfl)).outcome
  case chunkSizeStart => exact (h.chunkSizeStart ch).outcome
  case chunkSize => exact (h.chunkSize ch).outcome
  case chunkParameters => exact (h.chunkParameters ch).outcome
  case chunkSizeAlmostDone => exact (h.chunkSizeAlmostDone ch (closed state rfl)).outcome
  case headersAlmostDone => exact (h.headersAlmostDone ch (closed state rfl)).outcome
  case headersDone => exact (h.headersDone ch (closed state rfl)).outcome
  case chunkData => exact h.chunkData.outcome
  case chunkDataAlmostDone => exact (h.chunkDataAlmostDone ch).outcome
  case chunkDataDone => exact (h.chunkDataDone ch (closed state rfl)).outcome
  case bodyIdentity =>
    refine (h.bodyIdentity ch fun m t marked => ?_).outcome
    have mark := fits.marked m t marked
    rw [state] at mark
    exact (Option.some.inj mark).symm
  case bodyIdentityEof => exact Abreast.outcome (.inl (h.mark .body))
  case messageDone => exact (h.messageDone (closed state rfl)).outcome

/-- One more byte is counted for `f`, as it comes to it at the start of a buffer. -/
theorem count_once {x : Execution} {v : ℕ} (h : Beside b n past x (f.settled v)) :
    Beside (b + 1) n past x (f.settled (v + 1)) := by
  obtain ⟨m, bound, le, parser⟩ := h.parser
  have count : f.parser.nread + v = m := congrArg (·.nread) parser
  refine ⟨h.live, h.live', h.outer, rfl, h.going, ⟨m + 1, by omega, by omega, ?_⟩, h.parsed, h.told⟩
  have more := congrArg (·.counted (m + 1)) parser
  rw [← count] at more ⊢
  exact more

theorem count_both {v v' : ℕ} (h : Beside b n past (u.settled v) (f.settled v')) :
    Beside (b + 1) n past (u.settled (v + 1)) (f.settled (v' + 1)) := by
  obtain ⟨m, bound, le, parser⟩ := (count_once h).parser
  obtain ⟨m', -, le', parser'⟩ := h.parser
  have count : f.parser.nread + (v' + 1) = m := congrArg (·.nread) parser
  have count' : f.parser.nread + v' = m' := congrArg (·.nread) parser'
  have less : u.parser.nread + v ≤ m' := le'
  exact ⟨h.live, h.live', rfl, rfl, h.going,
    ⟨m, bound, show u.parser.nread + (v + 1) ≤ m by omega, parser⟩, h.parsed, h.told⟩

/-- `f` begins its search at the start of a buffer. -/
theorem search_outcome {read looked : ℕ} (h : Beside b n past (u.settled read) (f.settled 0))
    (small : b + 1 < 2 ^ 32) (state : u.parser.state = .headerValue)
    (general : u.parser.headerState = .general) (before : looked < u.parser.nread + read)
    (counted : 0 < f.parser.nread) (room : f.parser.nread ≤ httpMaxHeaderSize) :
    Outcome b n past (u.searchLoop ch read looked) (f.headerValueLoop ch 0) := by
  obtain ⟨m, bound, le, parser⟩ := h.parser
  have count : f.parser.nread + 0 = m := congrArg (·.nread) parser
  have less : u.parser.nread + read ≤ m := le
  have live : (u.parser.state).isLast = false := by rw [state]; rfl
  unfold Execution.searchLoop Execution.headerValueLoop
  rw [if_neg (show ¬ looked ≥ httpMaxHeaderSize by omega),
    if_pos (show f.parser.headerState = .general from
      (congrArg (·.headerState) h.same).trans general)]
  split
  · exact headerValueEnd_outcome ch h (by omega)
  · have looks := h.inLoop (i := .search (read + 1) (looked + 1)) (j := .search (0 + 1) 1)
      live rfl rfl rfl rfl (.search (by omega) (by omega)) fun _ _ _ => general
    rw [← h.same] at looks
    exact .inr (.inr looks)

/-- `f` comes back to the loop that `u` is in. -/
theorem again_outcome {i : Inner}
    (beside : Beside b n past (u.settled (Execution.Inner.charge i)) f)
    (inner : u.inner = some i) (fits : u.Fits) (small : b + 2 < 2 ^ 32)
    (looked : i.looked < u.parser.nread + Execution.Inner.charge i)
    (active : ∀ read, i ≠ .skip read)
    (general : ∀ read looked, u.inner = some (.search read looked) →
      u.parser.headerState = .general) :
    Outcome (b + 1) n past (u.consume ch) (f.consume ch) := by
  have zero : f.settled 0 = f := Execution.settled_zero beside.outer'
  have one : f.settled 1 = f.charged 1 := by rw [Execution.settled, ← beside.outer']; rfl
  have more := count_once (v := 0) (zero.symm ▸ beside)
  have state := fits.inner i inner
  have head : f.parser.state = i.state := by
    obtain ⟨m, -, -, parser⟩ := beside.parser
    rw [parser]
    exact state
  have entered : f.consume ch = f.countHeaderSize 1 fun e => e.dispatch ch := by
    unfold Execution.consume
    rw [beside.outer']
    dsimp only
    rw [head]
    cases i <;> rfl
  rw [entered]
  rw [Nat.zero_add, one] at more
  rcases Beside.count (x := { u with inner := none }) more (by omega) id
    (fun e => e.dispatch ch) with ⟨above, returned, errno⟩ | ⟨-, goes, room⟩
  · exact .inl (.overflowed above returned errno)
  rw [goes]
  have field (is : i.state = .headerField) :
      (f.charged 1).dispatch ch = (f.charged 1).headerFieldLoop ch 0 := by
    unfold Execution.dispatch
    rw [show (f.charged 1).parser.state = .headerField from head.trans is]
  have value (is : i.state = .headerValue) :
      (f.charged 1).dispatch ch = (f.charged 1).headerValueLoop ch 0 := by
    unfold Execution.dispatch
    rw [show (f.charged 1).parser.state = .headerValue from head.trans is]
  have again : Beside (b + 1) n past (u.settled (Execution.Inner.charge i))
      ((f.charged 1).settled 0) := by
    rw [Execution.settled_zero (x := f.charged 1) beside.outer']
    exact more
  unfold Execution.consume
  rw [inner]
  cases i with
  | headerField read =>
    rw [field rfl]
    exact headerFieldLoop_outcome ch again (by omega) state looked
  | headerValue read =>
    rw [value rfl]
    exact headerValueLoop_outcome ch again (by omega) state looked (Nat.succ_pos _)
  | search read looked' =>
    rw [value rfl]
    exact search_outcome ch again (by omega) state (general read looked' inner) looked
      (Nat.succ_pos _) room
  | skip read => exact absurd rfl (active read)

theorem consume_outcome (h : Together b n past u f) (fits : u.Fits) (small : b + 2 < 2 ^ 32) :
    Outcome (b + 1) n past (u.consume ch) (f.consume ch) := by
  obtain ⟨loops, general, beside⟩ := h
  generalize inner : u.inner = i, inner' : f.inner = j at loops
  cases loops with
  | outside =>
    have charge : u.charge = 0 := by rw [Execution.charge, inner]; rfl
    have charge' : f.charge = 0 := by rw [Execution.charge, inner']; rfl
    rw [charge, charge', inner'] at beside
    replace beside : Beside b n past (u.settled 0) (f.settled 0) := beside
    have head : f.parser.state = u.parser.state := congrArg (·.state) beside.same
    have counted := count_both beside
    unfold Execution.consume
    rw [inner, inner']
    dsimp only
    rw [head]
    split
    · have charged {e : Execution} (outer : e.inner = none) : e.settled 1 = e.charged 1 := by
        rw [Execution.settled, ← outer]
        rfl
      rw [charged inner, charged inner'] at counted
      rcases counted.count (by omega) (fun e => e.dispatch ch) (fun e => e.dispatch ch) with
        ⟨above, returned, errno⟩ | ⟨left, right, -⟩
      · exact .inl (.overflowed above returned errno)
      · rw [left, right]
        refine dispatch_outcome ch counted ?_ (by omega) fun _ => Nat.succ_pos _
        exact ⟨fits.inner, fits.marked, fits.text, fits.named, fits.fieldFirst⟩
    · rename_i body
      rw [Execution.settled_zero inner, Execution.settled_zero inner'] at beside
      exact dispatch_outcome ch (beside.mono (Nat.le_succ b)) fits (by omega)
        fun head => absurd head body
  | field some =>
    unfold Execution.consume
    rw [Execution.charge, Execution.charge, inner, inner'] at beside
    rw [Execution.charge, inner] at some
    rw [inner, inner']
    exact headerFieldLoop_outcome ch beside (by omega) (fits.inner _ inner) some
  | value some =>
    unfold Execution.consume
    rw [Execution.charge, Execution.charge, inner, inner'] at beside
    rw [Execution.charge, inner] at some
    rw [inner, inner']
    obtain ⟨m, -, le, parser⟩ := beside.parser
    have count : f.parser.nread + _ = m := congrArg (·.nread) parser
    exact headerValueLoop_outcome ch beside (by omega) (fits.inner _ inner) some
      (count ▸ some.trans_le le)
  | search before before' =>
    unfold Execution.consume
    rw [Execution.charge, Execution.charge, inner, inner'] at beside
    rw [Execution.charge, inner] at before
    rw [Execution.charge, inner'] at before'
    rw [inner, inner']
    exact searchLoop_outcome ch beside (by omega) (fits.inner _ inner)
      (general _ _ inner) before before'
  | again looked active room =>
    have charge' : f.charge = 0 := by rw [Execution.charge, inner']; rfl
    rw [Execution.charge, inner] at looked beside
    rw [charge', Execution.settled_zero inner', inner'] at beside
    exact again_outcome ch beside inner fits small looked active general

theorem step_eq (live : x.returned = false) : x.step ch =
    if (x.consume ch).returned then x.consume ch else (x.consume ch).advance ch := by
  rw [Execution.step, if_neg (by simp [live])]

theorem Doomed.advance (h : Doomed b x) : Doomed b (x.advance ch) := by
  cases h with
  | overflowed above returned errno => exact .overflowed above returned errno
  | searching live inner searches above bound => exact .searching live inner searches above bound

theorem Together.advance (h : Together b n past x y) :
    Together b n past (x.advance ch) (y.advance ch) := by
  refine ⟨h.loops, h.general, ?_⟩
  have advanced := h.beside.advanceMark ch
  exact ⟨advanced.live, advanced.live', advanced.outer, advanced.outer', advanced.going,
    advanced.parser, congrArg (· + 1) advanced.parsed, advanced.told⟩

/-- One byte, read by both runs. -/
theorem step_outcome (h : Together b n past u f) (fits : u.Fits) (small : b + 2 < 2 ^ 32) :
    Outcome (b + 1) n past (u.step ch) (f.step ch) := by
  have live : u.returned = false := h.beside.live
  have live' : f.returned = false := h.beside.live'
  rw [step_eq ch live, step_eq ch live']
  rcases consume_outcome ch h fits small with doomed | stopped | together
  · refine .inl ?_
    split
    · exact doomed
    · exact doomed.advance ch
  · rw [if_pos stopped.returned, if_pos stopped.returned']
    exact .inr (.inl stopped)
  · have live : (u.consume ch).returned = false := together.beside.live
    have live' : (f.consume ch).returned = false := together.beside.live'
    rw [if_neg (by simp [live]), if_neg (by simp [live'])]
    exact .inr (.inr (together.advance ch))

theorem step_doomed (h : Doomed b f) (small : b + 2 < 2 ^ 32) : Doomed (b + 1) (f.step ch) := by
  cases h with
  | overflowed above returned errno =>
    rw [Execution.step, if_pos returned]
    exact .overflowed (by omega) returned errno
  | @searching i live inner searches above bound =>
    have doomed : Doomed (b + 1) (f.consume ch) := by
      unfold Execution.consume
      rw [inner]
      cases i with
      | headerField read | headerValue read => cases searches
      | search read looked =>
        simp only [Execution.Inner.charge] at above bound
        exact searchLoop_doomed ch (by omega) live (by omega) (fun _ => above) bound
      | skip read =>
        simp only [Execution.Inner.charge] at above bound
        exact .searching (i := .skip (read + 1)) live rfl rfl
          (by simp only [Execution.Inner.charge]; omega)
          (by simp only [Execution.Inner.charge]; omega)
    rw [step_eq ch live]
    split
    · exact doomed
    · exact doomed.advance ch

theorem foldl_step_doomed (h : Doomed b f) (c : Bytes) (small : b + c.length + 1 < 2 ^ 32) :
    Doomed (b + c.length) (c.foldl Execution.step f) := by
  induction c generalizing b f with
  | nil => exact h
  | cons ch c ih =>
    rw [List.length_cons] at small ⊢
    have next := ih (step_doomed ch h (by omega)) (by omega)
    rwa [Nat.add_assoc, Nat.add_comm 1] at next

/-- The bytes of a buffer, read by both runs. -/
theorem foldl_step_outcome (h : Outcome b n past u f) (sound : u.Sound) (c : Bytes)
    (small : b + c.length + 1 < 2 ^ 32) :
    Outcome (b + c.length) n past (c.foldl Execution.step u) (c.foldl Execution.step f) := by
  induction c generalizing b u f with
  | nil => exact h
  | cons ch c ih =>
    rcases h with doomed | stopped | together
    · exact .inl (foldl_step_doomed doomed (ch :: c) small)
    · rw [Execution.foldl_step_returned stopped.returned,
        Execution.foldl_step_returned stopped.returned']
      exact .inr (.inl stopped)
    · rw [List.length_cons] at small ⊢
      rw [List.foldl_cons, List.foldl_cons, Nat.add_comm c.length, ← Nat.add_assoc]
      have fits := sound.fits together.beside.live
      exact ih (step_outcome ch together fits (by omega)) (Execution.step_sound sound) (by omega)

end Loops

/-! ## The end of a buffer -/

/-- The text that is open is handed over. -/
def Execution.handOver (e : Execution) : Execution :=
  match e.marked with
  | some (m, text) =>
    { e with callbacks := e.callbacks ++ [m.callback text], marked := none, returned := true }
  | none => { e with returned := true }

section Ends

variable {b n : ℕ} {past : List Callback} {u f x : Execution}

theorem parser_handOver (e : Execution) : e.handOver.parser = e.parser := by
  unfold Execution.handOver
  split <;> rfl

theorem parsed_handOver (e : Execution) : e.handOver.parsed = e.parsed := by
  unfold Execution.handOver
  split <;> rfl

theorem finish_eq (live : x.returned = false) (small : x.parser.nread + x.charge < 2 ^ 32) :
    x.finish = if x.inner.isSome ∧ x.parser.nread + x.charge > httpMaxHeaderSize then
      (x.settled x.charge).error .headerOverflow else (x.settled x.charge).handOver := by
  have going : ¬ x.returned = true := by simp [live]
  rw [Execution.finish, if_neg going]
  cases inner : x.inner with
  | none =>
    have charge : x.charge = 0 := by rw [Execution.charge, inner]; rfl
    rw [if_neg (by simp), charge, Execution.settled_zero inner]
    dsimp only
    unfold Execution.handOver Execution.callbackData
    cases x.marked with
    | none => rfl
    | some text =>
      dsimp only
      rw [if_pos rfl]
      rfl
  | some i =>
    have charge : x.charge = Execution.Inner.charge i := by rw [Execution.charge, inner]; rfl
    rw [charge] at small ⊢
    have counted := Execution.countHeaderSize_eq { x with inner := none } Execution.handOver small
    simp only [Option.isSome_some, true_and]
    refine (congrArg (Execution.countHeaderSize _ _) (funext fun e => ?_)).trans counted
    unfold Execution.handOver Execution.callbackData
    cases e.marked with
    | none => rfl
    | some text =>
      dsimp only
      rw [if_pos rfl]
      rfl

/-- What the calls give is what one call gives, with some of the texts in pieces. After an error
the last text may have been handed over in part. -/
structure Agree (whole : Execution) (parts : Fed) : Prop where
  parser : parts.parser = whole.parser.counted parts.parser.nread
  parsed : whole.parsed = parts.parsed
  callbacks : ∃ ended rest, parts.callbacks = ended ++ rest ∧
    Pieces Mark.callback whole.callbacks ended ∧
      (rest = [] ∨ whole.parser.httpErrno ≠ .ok ∧ ∃ m, ∃ (pieces : List Bytes) (t : Bytes),
        rest = pieces.map m.callback ∧ whole.marked = some (m, pieces.flatten ++ t))

theorem finish_returned (returned : x.returned = true) : x.finish = x := by
  rw [Execution.finish, if_pos returned]

theorem Stopped.agree (h : Stopped n past u f) :
    Agree u.finish ⟨f.parser, past ++ f.callbacks, n + f.parsed⟩ := by
  obtain ⟨m, parser⟩ := h.parser
  rw [finish_returned h.returned]
  refine ⟨?_, h.parsed, h.told⟩
  show f.parser = u.parser.counted f.parser.nread
  rw [parser]
  rfl

/-- Both runs hand over what they have open. -/
theorem Beside.agree (h : Beside b n past u f) :
    Agree u.handOver ⟨f.handOver.parser, past ++ f.handOver.callbacks, n + f.handOver.parsed⟩ := by
  obtain ⟨m, -, -, parser⟩ := h.parser
  refine ⟨?_, ?_, ?_⟩
  · rw [parser_handOver, parser_handOver, parser]
    rfl
  · rw [parsed_handOver, parsed_handOver]
    exact h.parsed
  · rcases h.told_cases with
      ⟨none, none', pieces⟩ | ⟨parts, m, pieces, t, pieced, calls, text, text'⟩
    · simp only [Execution.handOver, none, none']
      exact ⟨_, [], (List.append_nil _).symm, pieces, .inl rfl⟩
    · simp only [Execution.handOver, text, text']
      refine ⟨past ++ (f.callbacks ++ [m.callback t]), [], (List.append_nil _).symm, ?_, .inl rfl⟩
      rw [← List.append_assoc, calls, List.append_assoc]
      exact pieced.append (.text m pieces t)

/-- The start of the next buffer. -/
def resume (parser : HttpParser) : Execution :=
  { parser := parser, marked := (initialMark parser.state).map fun m => (m, []) }

/-- `f` stands between two pieces of a body, of which it sets the mark with the next byte only. -/
structure Held (b n : ℕ) (past : List Callback) (u f : Execution) : Prop where
  live : u.returned = false
  outer : u.inner = none
  going : u.parser.halted = false
  state : u.parser.state.mark = some .body
  fresh : ∃ m ≤ b, u.parser.nread ≤ m ∧ f = { parser := u.parser.counted m }
  parsed : u.parsed = n
  told : ∃ parts pieces, pieces ≠ [] ∧ u.marked = some (.body, pieces.flatten) ∧
    past = parts ++ pieces.map Callback.onBody ∧ Pieces Mark.callback u.callbacks parts

theorem initialMark_of_mark {s : State} {m : Mark} (h : s.mark = some m) :
    initialMark s = if m = .body then none else some m := by
  cases s <;> cases h <;> rfl

theorem initialMark_of_none {s : State} (h : s.mark = none) : initialMark s = none := by
  cases s <;> first | rfl | cases h

theorem Loops.cut {s s' : ℕ} {i j : Option Inner} (h : Loops s s' i j)
    (room : j.isSome → s' ≤ httpMaxHeaderSize) : Loops s s' i none := by
  cases h with
  | outside => exact .outside
  | field some => exact .again some (fun _ => nofun) (room rfl)
  | value some => exact .again some (fun _ => nofun) (room rfl)
  | search before _ => exact .again before (fun _ => nofun) (room rfl)
  | again looked active small => exact .again looked active small

/-- Between two buffers. -/
theorem Together.cut (h : Together b n past u f) (fits : u.Fits)
    (room : f.inner.isSome → f.parser.nread + f.charge ≤ httpMaxHeaderSize) :
    let ended := (f.settled f.charge).handOver
    Together (b + 1) (n + ended.parsed) (past ++ ended.callbacks) u (resume ended.parser) ∨
      Held (b + 1) (n + ended.parsed) (past ++ ended.callbacks) u (resume ended.parser) := by
  have beside := h.beside
  obtain ⟨m, bound, le, parser⟩ := beside.parser
  have count : f.parser.nread + f.charge = m := congrArg (·.nread) parser
  have small : m ≤ b + 1 := by
    refine bound.trans ?_
    split <;> omega
  have loops := h.loops.cut room
  rw [count] at loops
  dsimp only
  rw [parser_handOver, parsed_handOver,
    show (f.settled f.charge).parser = u.parser.counted m from parser]
  -- the count of `f` starts with what its loop has read
  have goes {text : Option (Mark × Bytes)} {calls : List Callback}
      (marked : (initialMark u.parser.state).map (fun m => (m, [])) = text)
      (told : Told u.callbacks u.marked calls text) :
      Together (b + 1) (n + f.parsed) calls u (resume (u.parser.counted m)) := by
    refine ⟨loops, h.general, beside.live, rfl, rfl, rfl, beside.going,
      ⟨m, small, le, rfl⟩, beside.parsed, ?_⟩
    rw [← marked, ← List.append_nil calls] at told
    exact told
  rcases beside.told_cases with
    ⟨none, none', pieces⟩ | ⟨parts, k, pieces, t, pieced, calls, text, text'⟩
  · left
    have unmarked : initialMark u.parser.state = Option.none := by
      cases mark : u.parser.state.mark with
      | none => exact initialMark_of_none mark
      | some k =>
        by_cases body : k = .body
        · rw [initialMark_of_mark mark, if_pos body]
        · obtain ⟨t, text⟩ := fits.text k mark body
          cases text.symm.trans none
    refine goes (by rw [unmarked, Option.map_none]) ?_
    rw [show u.marked = Option.none from none]
    simp only [Execution.handOver, none']
    exact .closed pieces
  · have mark := fits.marked k _ text
    have handed : past ++ (f.settled f.charge).handOver.callbacks =
        parts ++ (pieces ++ [t]).map k.callback := by
      simp only [Execution.handOver, text']
      rw [← List.append_assoc, calls, List.map_append, List.append_assoc]
      rfl
    have whole : pieces.flatten ++ t = (pieces ++ [t]).flatten := by
      rw [List.flatten_append, List.flatten_singleton]
    rw [handed]
    by_cases body : k = .body
    · subst body
      right
      have outer : u.inner = Option.none := by
        cases inner : u.inner with
        | none => rfl
        | some i =>
          rw [fits.inner i inner] at mark
          cases i <;> cases mark
      have start : resume (u.parser.counted m) = { parser := u.parser.counted m } := by
        rw [resume, show (u.parser.counted m).state = u.parser.state from rfl,
          initialMark_of_mark mark, if_pos rfl]
        rfl
      exact ⟨beside.live, outer, beside.going, mark,
        ⟨m, small, (Nat.le_add_right _ _).trans le, start⟩, beside.parsed,
        ⟨parts, pieces ++ [t], by simp, whole ▸ text, rfl, pieced⟩⟩
    · left
      have start :
          (initialMark u.parser.state).map (fun m => (m, ([] : Bytes))) = some (k, []) := by
        rw [initialMark_of_mark mark, if_neg body]
        rfl
      refine goes start ?_
      rw [show u.marked = some (k, pieces.flatten ++ t) from text, whole,
        ← List.append_nil (pieces ++ [t]).flatten]
      exact .opened pieced

/-- The mark of a body that is already set stays. -/
theorem mark_mark (e : Execution) (m : Mark) : (e.mark m).mark m = e.mark m := by
  cases marked : e.marked with
  | none => simp only [Execution.mark, marked]
  | some text => simp only [Execution.mark, marked]

theorem Held.step (h : Held b n past u f) (small : b + 2 < 2 ^ 32) (fits : u.Fits) (ch : Byte) :
    Outcome (b + 1) n past (u.step ch) (f.step ch) := by
  obtain ⟨m, bound, le, fresh⟩ := h.fresh
  obtain ⟨parts, pieces, some, marked, calls, pieced⟩ := h.told
  have live : f.returned = false := by rw [fresh]
  have outer : f.inner = none := by rw [fresh]
  have unmarked : f.marked = none := by rw [fresh]
  have none : f.callbacks = [] := by rw [fresh]
  have state : f.parser.state = u.parser.state := by rw [fresh]; rfl
  have beside : Beside b n past u (f.mark .body) := by
    simp only [Execution.mark, unmarked]
    refine ⟨h.live, live, h.outer, outer, h.going, ⟨m, bound, le, by rw [fresh]⟩, ?_, ?_⟩
    · rw [h.parsed, fresh]
      rfl
    · rw [none, marked, List.append_nil, calls, ← List.append_nil pieces.flatten]
      exact .opened pieced
  -- the states that set the mark, and the one that does not
  have sets (same : ∀ e : Execution, e.inner = Option.none → e.parser.state = u.parser.state →
      e.consume ch = (e.mark .body).consume ch) :
      Outcome (b + 1) n past (u.step ch) (f.step ch) := by
    have again := step_outcome ch beside.together fits small
    rwa [step_eq ch beside.live', ← same f outer state, ← step_eq ch live] at again
  have mark := h.state
  cases here : u.parser.state with
  | bodyIdentity | chunkData | bodyIdentityEof =>
    refine sets fun e inside there => ?_
    rw [here] at there
    unfold Execution.consume
    rw [Execution.mark_frame e .body]
    simp only [inside, there, State.parsingHeader, Bool.false_eq_true, if_false, Execution.dispatch]
    rw [← inside, ← Execution.mark_frame e .body]
    simp only [Execution.bodyIdentity, Execution.chunkData, mark_mark]
  | chunkDataAlmostDone =>
    have consumes {e : Execution} (inside : e.inner = Option.none)
        (there : e.parser.state = .chunkDataAlmostDone) :
        e.consume ch = e.chunkDataAlmostDone ch := by
      simp only [Execution.consume, inside, there, State.parsingHeader, Bool.false_eq_true,
        if_false, Execution.dispatch]
    have parsed : u.parsed = n + f.parsed := by
      rw [h.parsed, fresh]
      rfl
    rw [step_eq ch h.live, step_eq ch live, consumes h.outer here,
      consumes outer (state.trans here)]
    unfold Execution.chunkDataAlmostDone
    split
    · refine .inr (.inl ⟨rfl, rfl, rfl, ⟨m, by rw [fresh]; rfl⟩, parsed, parts,
        pieces.map Callback.onBody, ?_, pieced,
        .inr ⟨(by decide : HttpErrno.strict ≠ .ok), .body, pieces, [], rfl, ?_⟩⟩)
      · rw [← calls]
        show past ++ f.callbacks = past
        rw [none, List.append_nil]
      · rw [List.append_nil]
        exact marked
    · -- all of the chunk is handed over, and `f` has nothing left to report
      have reports : (u.updateState .chunkDataDone).callbackData .body =
          { u.updateState .chunkDataDone with
            callbacks := u.callbacks ++ [.onBody pieces.flatten], marked := Option.none } := by
        simp only [Execution.callbackData, Execution.updateState_marked, marked, if_true]
        rfl
      have nothing : (f.updateState .chunkDataDone).callbackData .body =
          f.updateState .chunkDataDone := by
        simp only [Execution.callbackData, Execution.updateState_marked, unmarked]
      rw [reports, nothing, if_neg (by simp [h.live]), if_neg (by simp [live])]
      refine .inr (.inr (Beside.together ⟨h.live, live, h.outer, outer, ?_,
        ⟨m, by omega, le, by rw [fresh]; rfl⟩, congrArg (· + 1) parsed, ?_⟩))
      · show (u.parser.httpErrno != .ok || u.parser.upgrade && false) = false
        rw [beside.errno, Bool.and_false]
        rfl
      · show Told (u.callbacks ++ [.onBody pieces.flatten]) _ (past ++ f.callbacks) (f.marked.map _)
        rw [unmarked, none, List.append_nil, calls]
        exact .closed (pieced.append (.text_of_ne_nil Mark.body some))
  | _ =>
    rw [here] at mark
    cases mark

/-! ## One buffer after the other -/

theorem feed_cons {p : HttpParser} {data : Bytes} {rest : List Bytes} (ok : p.httpErrno = .ok)
    (nonempty : data ≠ []) : feed p (data :: rest) =
      let e := (data.foldl Execution.step (resume p)).finish
      if e.parser.halted then ⟨e.parser, e.callbacks, e.parsed⟩
      else
        let later := feed e.parser rest
        ⟨later.parser, e.callbacks ++ later.callbacks, e.parsed + later.parsed⟩ := by
  have executed : httpParserExecute p data = (data.foldl Execution.step (resume p)).finish := by
    rw [httpParserExecute, if_neg (by simp [ok]), if_neg nonempty]
    rfl
  rw [feed, executed]

/-- `f` is at the start of a buffer. -/
def Resumed (b n : ℕ) (past : List Callback) (u f : Execution) : Prop :=
  Together b n past u f ∨ Held b n past u f

theorem Resumed.errno (h : Resumed b n past u f) : f.parser.httpErrno = .ok := by
  rcases h with together | held
  · obtain ⟨m, -, -, parser⟩ := together.beside.parser
    have same : f.parser.httpErrno = u.parser.httpErrno := congrArg (·.httpErrno) parser
    exact same.trans together.beside.errno
  · obtain ⟨m, -, -, fresh⟩ := held.fresh
    rw [fresh]
    have going := held.going
    rw [HttpParser.halted, Bool.or_eq_false_iff] at going
    exact bne_eq_false_iff_eq.mp going.1

theorem Resumed.foldl_step (h : Resumed b n past u f) (sound : u.Sound) {data : Bytes}
    (nonempty : data ≠ []) (small : b + data.length + 2 < 2 ^ 32) :
    Outcome (b + data.length) n past (data.foldl Execution.step u)
      (data.foldl Execution.step f) := by
  rcases h with together | held
  · exact foldl_step_outcome (.inr (.inr together)) sound data (by omega)
  · cases data with
    | nil => exact absurd rfl nonempty
    | cons ch data =>
      rw [List.length_cons] at small ⊢
      rw [Nat.add_comm data.length, ← Nat.add_assoc]
      have first := held.step (by omega) (sound.fits held.live) ch
      exact foldl_step_outcome first (Execution.step_sound sound) data (by omega)

/-- What the end of a buffer makes of the runs. -/
theorem Outcome.ends (h : Outcome b n past u f) (sound : u.Sound) (small : b + 2 < 2 ^ 32) :
    (f.finish.parser.httpErrno = .headerOverflow ∧ httpMaxHeaderSize ≤ b) ∨
      Agree u.finish ⟨f.finish.parser, past ++ f.finish.callbacks, n + f.finish.parsed⟩ ∧
        (f.finish.parser.halted = true ∧ u.returned = true ∨
          f.finish.parser.halted = false ∧
            Resumed (b + 1) (n + f.finish.parsed) (past ++ f.finish.callbacks) u
              (resume f.finish.parser)) := by
  rcases h with doomed | stopped | together
  · left
    cases doomed with
    | overflowed above returned errno =>
      rw [finish_returned returned]
      exact ⟨errno, by omega⟩
    | @searching i live inner searches above bound =>
      have charge : f.charge = Execution.Inner.charge i := by rw [Execution.charge, inner]; rfl
      rw [finish_eq live (by omega), if_pos ⟨by rw [inner]; rfl, by omega⟩]
      exact ⟨rfl, by omega⟩
  · right
    rw [finish_returned stopped.returned']
    refine ⟨stopped.agree, .inl ⟨?_, stopped.returned⟩⟩
    obtain ⟨m, parser⟩ := stopped.parser
    rw [parser]
    exact stopped.halted
  · have beside := together.beside
    have live : u.returned = false := beside.live
    have live' : f.returned = false := beside.live'
    obtain ⟨m, bound, le, parser⟩ := beside.parser
    have count : f.parser.nread + f.charge = m := congrArg (·.nread) parser
    have less : u.parser.nread + u.charge ≤ m := le
    have bit : m ≤ b + 1 := by
      refine bound.trans ?_
      split <;> omega
    rw [finish_eq live' (by omega)]
    by_cases above : f.inner.isSome ∧ f.parser.nread + f.charge > httpMaxHeaderSize
    · rw [if_pos above]
      exact .inl ⟨rfl, by omega⟩
    · rw [if_neg above]
      right
      have room (inside : f.inner.isSome) : f.parser.nread + f.charge ≤ httpMaxHeaderSize :=
        Nat.le_of_not_lt fun more => above ⟨inside, more⟩
      have fits : ¬ (u.inner.isSome ∧ u.parser.nread + u.charge > httpMaxHeaderSize) := by
        rintro ⟨inside, more⟩
        have loops := together.loops.cut room
        generalize u.inner = i at loops inside
        cases loops with
        | outside => cases inside
        | again _ _ small => omega
      refine ⟨?_, .inr ⟨?_, together.cut (sound.fits live) room⟩⟩
      · rw [finish_eq live (by omega), if_neg fits]
        exact beside.agree
      · rw [parser_handOver, parser]
        exact beside.going

/-- What the calls on the buffers give, where `u` has read all that comes before them. -/
theorem feed_agree {p : HttpParser} (data : Bytes) (rest : List Bytes)
    (h : Resumed b n past u (resume p)) (sound : u.Sound)
    (nonempty : ∀ d ∈ data :: rest, d ≠ [])
    (small : b + (data :: rest).flatten.length + rest.length + 2 < 2 ^ 32) :
    let fed := feed p (data :: rest)
    (fed.parser.httpErrno = .headerOverflow ∧
        httpMaxHeaderSize ≤ b + (data :: rest).flatten.length + rest.length) ∨
      Agree ((data :: rest).flatten.foldl Execution.step u).finish
        ⟨fed.parser, past ++ fed.callbacks, n + fed.parsed⟩ := by
  induction rest generalizing data p u past n b with
  | nil =>
    rw [List.forall_mem_singleton] at nonempty
    rw [List.flatten_singleton, List.length_nil] at small ⊢
    have outcome := h.foldl_step sound nonempty (by omega)
    have sound' := Execution.foldl_step_sound sound data
    rw [feed_cons (p := p) h.errno nonempty]
    dsimp only
    rcases outcome.ends sound' (by omega) with ⟨errno, large⟩ | ⟨agree, ends⟩
    · left
      have halted : (data.foldl Execution.step (resume p)).finish.parser.halted = true := by
        rw [HttpParser.halted, errno]
        rfl
      rw [if_pos halted]
      exact ⟨errno, large⟩
    · right
      split
      · exact agree
      · rw [feed, List.append_nil, Nat.add_zero]
        exact agree
  | cons data' rest ih =>
    rw [List.forall_mem_cons] at nonempty
    rw [List.flatten_cons, List.length_append, List.length_cons] at small ⊢
    have outcome := h.foldl_step sound nonempty.1 (by omega)
    have sound' := Execution.foldl_step_sound sound data
    rw [feed_cons (p := p) h.errno nonempty.1, List.foldl_append]
    dsimp only
    rcases outcome.ends sound' (by omega) with
      ⟨errno, large⟩ | ⟨agree, ⟨halted, returned⟩ | ⟨going, resumed⟩⟩
    · left
      have halted : (data.foldl Execution.step (resume p)).finish.parser.halted = true := by
        rw [HttpParser.halted, errno]
        rfl
      rw [if_pos halted]
      exact ⟨errno, by omega⟩
    · right
      rw [if_pos halted, Execution.foldl_step_returned returned]
      exact agree
    · rw [if_neg (by simp [going])]
      have later := ih data' resumed sound' nonempty.2 (by omega)
      dsimp only at later ⊢
      rw [List.append_assoc, Nat.add_assoc n] at later
      rcases later with ⟨errno, large⟩ | agree
      · exact .inl ⟨errno, by omega⟩
      · exact .inr agree

end Ends

theorem feed_init (parts : List Bytes) (nonempty : ∀ d ∈ parts, d ≠ [])
    (short : parts.flatten.length + parts.length + 1 < 2 ^ 32) :
    ((feed httpParserInit parts).parser.httpErrno = .headerOverflow ∧
        httpMaxHeaderSize < parts.flatten.length + parts.length) ∨
      Agree (httpParserExecute httpParserInit parts.flatten) (feed httpParserInit parts) := by
  rw [httpParserExecute_init]
  cases parts with
  | nil => exact .inr ⟨rfl, rfl, [], [], rfl, .nil, .inl rfl⟩
  | cons data rest =>
    have start : Beside 0 0 [] { parser := httpParserInit } (resume httpParserInit) :=
      ⟨rfl, rfl, rfl, rfl, rfl, ⟨0, Nat.le_refl 0, Nat.le_refl 0, rfl⟩, rfl, .closed .nil⟩
    have sound : Execution.Sound { parser := httpParserInit } := scan_sound []
    rw [List.length_cons] at short ⊢
    rcases feed_agree data rest (.inl start.together) sound nonempty (by omega) with
      ⟨errno, large⟩ | agree
    · exact .inl ⟨errno, by omega⟩
    · rw [List.nil_append, Nat.zero_add] at agree
      exact .inr agree

/-- The calls on the parts of a buffer give what one call on all of it gives, unless the counting
of bytes at the cuts makes the header too large. -/
theorem feed_pieces (parts : List Bytes) (nonempty : ∀ d ∈ parts, d ≠ [])
    (short : parts.flatten.length + parts.length + 1 < 2 ^ 32)
    (fits : (feed httpParserInit parts).parser.httpErrno ≠ .headerOverflow) :
    Agree (httpParserExecute httpParserInit parts.flatten) (feed httpParserInit parts) :=
  (feed_init parts nonempty short).resolve_left fun ⟨overflow, _⟩ => fits overflow

/-- A request that comes in three parts, with cuts in the target and in the name of a field. -/
def partsOfRequest : List Bytes :=
  [bytes "GET /in", bytes "dex HTTP/1.1\r\nHo", bytes "st: here\r\n\r\n"]

theorem feed_pieces_request :
    Agree (httpParserExecute httpParserInit partsOfRequest.flatten)
      (feed httpParserInit partsOfRequest) :=
  feed_pieces partsOfRequest (by decide) (by decide) (by decide +kernel)

/-- However the bytes are divided into buffers, the parser gets to the same place, and a consumer
for which two pieces are as good as the text they make up gets to the same state. -/
theorem feed_independent {σ : Type*} {f : σ → Callback → σ}
    (joins : ∀ s (m : Mark) t u, f (f s (m.callback t)) (m.callback u) = f s (m.callback (t ++ u)))
    {parts parts' : List Bytes} (same : parts'.flatten = parts.flatten)
    (nonempty : ∀ d ∈ parts, d ≠ []) (nonempty' : ∀ d ∈ parts', d ≠ [])
    (room : parts.flatten.length + parts.length ≤ httpMaxHeaderSize)
    (room' : parts'.flatten.length + parts'.length ≤ httpMaxHeaderSize) :
    let fed := feed httpParserInit parts
    let fed' := feed httpParserInit parts'
    fed'.parser.counted 0 = fed.parser.counted 0 ∧ fed'.parsed = fed.parsed ∧
      (fed.parser.httpErrno = .ok → ∀ s, fed'.callbacks.foldl f s = fed.callbacks.foldl f s) := by
  have agrees {parts : List Bytes} (nonempty : ∀ d ∈ parts, d ≠ [])
      (room : parts.flatten.length + parts.length ≤ httpMaxHeaderSize) :
      Agree (httpParserExecute httpParserInit parts.flatten) (feed httpParserInit parts) := by
    have small : httpMaxHeaderSize + 1 < 2 ^ 32 := by decide
    exact (feed_init parts nonempty (by omega)).resolve_left fun ⟨_, large⟩ => by omega
  have consumed {whole : Execution} {fed : Fed} (agree : Agree whole fed)
      (ok : whole.parser.httpErrno = .ok) (s : σ) :
      fed.callbacks.foldl f s = whole.callbacks.foldl f s := by
    obtain ⟨ended, rest, calls, pieces, rfl | ⟨failed, -⟩⟩ := agree.callbacks
    · rw [calls, List.append_nil, pieces.foldl joins]
    · exact absurd ok failed
  have agree := agrees nonempty room
  have agree' := agrees nonempty' room'
  rw [same] at agree'
  dsimp only
  refine ⟨?_, agree'.parsed.symm.trans agree.parsed, fun ok s => ?_⟩
  · rw [agree'.parser, agree.parser]
    rfl
  · have whole : (httpParserExecute httpParserInit parts.flatten).parser.httpErrno = .ok :=
      (congrArg (·.httpErrno) agree.parser).symm.trans ok
    rw [consumed agree' whole, consumed agree whole]

/-- The target, read by one who puts its pieces together. -/
def readUrl (url : Bytes) : Callback → Bytes
  | .onUrl text => url ++ text
  | _ => url

theorem feed_independent_request :
    let fed := feed httpParserInit [partsOfRequest.flatten]
    let fed' := feed httpParserInit partsOfRequest
    fed'.parser.counted 0 = fed.parser.counted 0 ∧ fed'.parsed = fed.parsed ∧
      (fed.parser.httpErrno = .ok →
        ∀ s, fed'.callbacks.foldl readUrl s = fed.callbacks.foldl readUrl s) :=
  feed_independent (fun s m t u => by cases m <;> simp [readUrl, Mark.callback]) rfl (by decide)
    (by decide) (by decide) (by decide)

end Viking.Http
