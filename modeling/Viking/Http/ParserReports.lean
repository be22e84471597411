/-
# What the parser reports

An execution reports by its callbacks, and what it reports on a buffer is tied
to what it reports on every longer one. `scan` is the main loop over the bytes
alone, without the end of the buffer; the callbacks of `scan b` are a prefix of
those of `scan (b ++ c)`, and a piece of text that is still open at the end of
`b` is reported there as far as it goes, and on the longer buffer from its start
again. Every header value comes after some header field.

`Fits` is the invariant of the loop between two bytes. `Goes e next` is what one
byte may do to an execution, and each case of the main loop is shown to do only
that.
-/

import Viking.Http.Parser

namespace Viking.Http

/-! ## Marks and states -/

/-- The mark that may be set in a state. -/
def State.mark : State → Option Mark
  | .reqSchema | .reqSchemaSlash | .reqSchemaSlashSlash | .reqServerStart | .reqServer
  | .reqServerWithAt | .reqPath | .reqQueryStringStart | .reqQueryString | .reqFragmentStart
  | .reqFragment => some .url
  | .headerField => some .headerField
  | .headerValue => some .headerValue
  | .bodyIdentity | .chunkData | .chunkDataAlmostDone | .bodyIdentityEof => some .body
  | _ => none

/-- The states between the name of a header and the end of its value. -/
def State.named : State → Bool
  | .headerValueDiscardWs | .headerValueDiscardWsAlmostDone | .headerValueDiscardLws
  | .headerValueStart | .headerValue | .headerValueLws | .headerAlmostDone => true
  | _ => false

/-- The state whose loop an inner loop is. -/
def Inner.state : Inner → State
  | .headerField _ => .headerField
  | .headerValue _ | .search _ _ | .skip _ => .headerValue

/-- The inner loops that look for the end of a line only. -/
def Inner.searches : Inner → Bool
  | .search _ _ | .skip _ => true
  | _ => false

/-- `s'` keeps the mark of `s` or opens a body, and comes after a header name only
if `s` does. -/
def State.Follows (s s' : State) : Prop :=
  (s'.mark = s.mark ∨ s.mark = none ∧ s'.mark = some .body) ∧
    (s'.named = true → s.named = true)

instance (s s' : State) : Decidable (s.Follows s') :=
  inferInstanceAs (Decidable (_ ∧ _))

@[simp] theorem State.follows_refl (s : State) : s.Follows s := ⟨.inl rfl, id⟩

/-- Nothing is open in the state, unless it is a body, and no name waits for its value. -/
def State.Idle (s : State) : Prop := (s.mark = none ∨ s.mark = some .body) ∧ s.named = false

instance (s : State) : Decidable s.Idle := inferInstanceAs (Decidable (_ ∧ _))

/-! ## Fields before values -/

def Callback.isField : Callback → Bool
  | .onHeaderField _ => true
  | _ => false

def Callback.isValue : Callback → Bool
  | .onHeaderValue _ => true
  | _ => false

/-- No value is reported before some field. -/
def FieldFirst : List Callback → Prop
  | [] => True
  | c :: cs => c.isField = true ∨ (c.isValue = false ∧ FieldFirst cs)

theorem fieldFirst_append {cs ds : List Callback} :
    FieldFirst (cs ++ ds) ↔ FieldFirst cs ∧ (cs.any Callback.isField = true ∨ FieldFirst ds) := by
  induction cs with
  | nil => simp [FieldFirst]
  | cons c cs ih =>
    simp only [List.cons_append, FieldFirst, ih, List.any_cons, Bool.or_eq_true]
    tauto

@[simp] theorem fieldFirst_singleton {c : Callback} :
    FieldFirst [c] ↔ c.isField = true ∨ c.isValue = false := by
  simp [FieldFirst]

namespace Execution

/-! ## Projections of the macros -/

section

variable (e : Execution) (s : State) (err : HttpErrno) (c : Callback) (ch : Byte)

@[simp] theorem updateState_callbacks : (e.updateState s).callbacks = e.callbacks := rfl

@[simp] theorem updateState_marked : (e.updateState s).marked = e.marked := rfl

@[simp] theorem updateState_inner : (e.updateState s).inner = e.inner := rfl

@[simp] theorem updateState_returned : (e.updateState s).returned = e.returned := rfl

@[simp] theorem updateState_state : (e.updateState s).parser.state = s := rfl

@[simp] theorem error_callbacks : (e.error err).callbacks = e.callbacks := rfl

@[simp] theorem error_returned : (e.error err).returned = true := rfl

@[simp] theorem error_errno : (e.error err).parser.httpErrno = err := rfl

@[simp] theorem notify_callbacks : (e.notify c).callbacks = e.callbacks ++ [c] := rfl

@[simp] theorem notify_marked : (e.notify c).marked = e.marked := rfl

@[simp] theorem notify_inner : (e.notify c).inner = e.inner := rfl

@[simp] theorem notify_returned : (e.notify c).returned = e.returned := rfl

@[simp] theorem parser_notify : (e.notify c).parser = e.parser := rfl

@[simp] theorem advance_callbacks : (e.advance ch).callbacks = e.callbacks := rfl

@[simp] theorem advance_inner : (e.advance ch).inner = e.inner := rfl

@[simp] theorem parser_advance : (e.advance ch).parser = e.parser := rfl

@[simp] theorem advance_returned : (e.advance ch).returned = e.returned := rfl

@[simp] theorem advance_marked :
    (e.advance ch).marked = e.marked.map fun (m, text) => (m, text ++ [ch]) := rfl

end

/-! ## What one byte may do -/

/-- The invariant of the main loop. Only a body can be read without its mark: the
states of a body are entered one byte before its first byte. -/
structure Fits (e : Execution) : Prop where
  inner : ∀ i, e.inner = some i → e.parser.state = i.state
  marked : ∀ m t, e.marked = some (m, t) → e.parser.state.mark = some m
  text : ∀ m, e.parser.state.mark = some m → m ≠ .body → ∃ t, e.marked = some (m, t)
  named : e.parser.state.named = true → e.callbacks.any Callback.isField = true
  fieldFirst : FieldFirst e.callbacks

/-- The text that is open in `e` when the byte `ch` is read stays open, is lost to
an error, or is reported, with `ch` at most. -/
def Keeps (e : Execution) (ch : Byte) (next : Execution) : Prop :=
  ∀ m t, e.marked = some (m, t) →
    (next.callbacks = e.callbacks ∧
      (next.returned = false ∧ next.marked = some (m, t) ∨
        next.returned = true ∧ next.parser.httpErrno ≠ .ok)) ∨
    ∃ u rest, u <+: [ch] ∧ next.callbacks = e.callbacks ++ m.callback (t ++ u) :: rest

/-- What the byte `ch` may do to an execution, before `p++`. -/
structure Goes (e : Execution) (ch : Byte) (next : Execution) : Prop where
  fits : next.returned = false → next.Fits
  fieldFirst : FieldFirst next.callbacks
  callbacks : e.callbacks <+: next.callbacks
  keeps : e.Keeps ch next

/-- What a step adds to an execution that has no text open, before it is known
which state it ends in. -/
structure Tells (e next : Execution) : Prop where
  unmarked : e.marked = none
  closed : next.marked = none
  callbacks : e.callbacks <+: next.callbacks
  fieldFirst : FieldFirst next.callbacks
  inner : next.inner = none

variable {e : Execution} {ch : Byte}

theorem Fits.unmarked (fits : e.Fits) (h : e.parser.state.mark = none) : e.marked = none := by
  cases hm : e.marked with
  | none => rfl
  | some mt => simp [fits.marked mt.1 mt.2 hm] at h

theorem Fits.leave (fits : e.Fits) : Fits { e with inner := none } :=
  ⟨by simp, fits.marked, fits.text, fits.named, fits.fieldFirst⟩

theorem Fits.tells (fits : e.Fits) (h : e.parser.state.mark = none) (outer : e.inner = none) :
    Tells e e :=
  ⟨fits.unmarked h, fits.unmarked h, List.prefix_rfl, fits.fieldFirst, outer⟩

theorem Tells.error {x : Execution} {err : HttpErrno} (tells : Tells e x) :
    Goes e ch (x.error err) where
  fits := by simp
  fieldFirst := tells.fieldFirst
  callbacks := tells.callbacks
  keeps := fun m t h => by simp [tells.unmarked] at h

theorem Tells.notify {x : Execution} {c : Callback} (tells : Tells e x)
    (plain : c.isValue = false) : Tells e (x.notify c) where
  unmarked := tells.unmarked
  closed := tells.closed
  callbacks := tells.callbacks.trans (List.prefix_append ..)
  fieldFirst := by simp [fieldFirst_append, tells.fieldFirst, plain]
  inner := tells.inner

theorem Tells.setParser {x : Execution} (tells : Tells e x) (parser : HttpParser) :
    Tells e { x with parser := parser } :=
  ⟨tells.unmarked, tells.closed, tells.callbacks, tells.fieldFirst, tells.inner⟩

theorem Tells.updateState {x : Execution} (tells : Tells e x) (s : State) :
    Tells e (x.updateState s) :=
  tells.setParser _

theorem Tells.returnPast {x : Execution} (tells : Tells e x) : Tells e x.returnPast :=
  ⟨tells.unmarked, tells.closed, tells.callbacks, tells.fieldFirst, tells.inner⟩

theorem Fits.idle {x : Execution} {s : State} (state : x.parser.state = s) (idle : s.Idle)
    (closed : x.marked = none) (inner : x.inner = none) (fieldFirst : FieldFirst x.callbacks) :
    x.Fits where
  inner := by simp [inner]
  marked := by simp [closed]
  text := fun m h other => by
    rcases idle.1 with none | body
    · simp [state, none] at h
    · simp only [state, body, Option.some.injEq] at h
      exact absurd h.symm other
  named := by simp [state, idle.2]
  fieldFirst := fieldFirst

/-- The end of a step that reports only: no text is open in the state it reaches,
unless it is a body. -/
theorem Tells.goes {x : Execution} (tells : Tells e x) (s : State) (state : x.parser.state = s)
    (idle : s.Idle) : Goes e ch x where
  fits := fun _ => Fits.idle state idle tells.closed tells.inner tells.fieldFirst
  fieldFirst := tells.fieldFirst
  callbacks := tells.callbacks
  keeps := fun m t h => by simp [tells.unmarked] at h

theorem Goes.error {x : Execution} {err : HttpErrno} (fits : e.Fits)
    (callbacks : x.callbacks = e.callbacks) (failed : err ≠ .ok) : Goes e ch (x.error err) where
  fits := by simp
  fieldFirst := by simpa [callbacks] using fits.fieldFirst
  callbacks := by simp [callbacks]
  keeps := fun m t _ => .inl (by simp [callbacks, failed])

/-- A step that reports nothing and leaves the mark. -/
theorem Goes.quiet {next : Execution} (fits : e.Fits) (live : e.returned = false)
    (follows : e.parser.state.Follows next.parser.state)
    (callbacks : next.callbacks = e.callbacks) (marked : next.marked = e.marked)
    (returned : next.returned = e.returned)
    (inner : ∀ i, next.inner = some i → next.parser.state = i.state) : Goes e ch next where
  fits := fun _ => {
    inner := inner
    marked := fun m t h => by
      have was := fits.marked m t (marked ▸ h)
      -- Entering a body is no exception: no mark was set in the state before it.
      rcases follows.1 with same | ⟨none, -⟩
      · exact same.trans was
      · simp [none] at was
    text := fun m h other => by
      rcases follows.1 with same | ⟨-, body⟩
      · rw [marked]
        exact fits.text m (same ▸ h) other
      · simp only [body, Option.some.injEq] at h
        exact absurd h.symm other
    named := fun h => by rw [callbacks]; exact fits.named (follows.2 h)
    fieldFirst := by rw [callbacks]; exact fits.fieldFirst }
  fieldFirst := by rw [callbacks]; exact fits.fieldFirst
  callbacks := callbacks ▸ List.prefix_rfl
  keeps := fun m t h => .inl ⟨callbacks, .inl ⟨returned.trans live, marked.trans h⟩⟩

/-- A step that sets a mark. -/
theorem Goes.opened {next : Execution} (m : Mark) (fits : e.Fits) (unmarked : e.marked = none)
    (marked : next.marked = some (m, [])) (state : next.parser.state.mark = some m)
    (named : next.parser.state.named = true → e.parser.state.named = true)
    (callbacks : next.callbacks = e.callbacks)
    (inner : next.inner = none) : Goes e ch next where
  fits := fun _ => {
    inner := by simp [inner]
    marked := fun m' t h => by simp_all
    text := fun m' h _ => ⟨[], by simp_all⟩
    named := fun h => by rw [callbacks]; exact fits.named (named h)
    fieldFirst := by rw [callbacks]; exact fits.fieldFirst }
  fieldFirst := by rw [callbacks]; exact fits.fieldFirst
  callbacks := callbacks ▸ List.prefix_rfl
  keeps := fun m' t h => by simp [unmarked] at h

/-- A step that reports the text that is open, with the byte it reads or without. -/
theorem Goes.closed {next : Execution} {m : Mark} {t : Bytes} (u : Bytes) (rest : List Callback)
    (marked : e.marked = some (m, t)) (part : u <+: [ch])
    (callbacks : next.callbacks = e.callbacks ++ m.callback (t ++ u) :: rest)
    (fits : next.returned = false → next.Fits) (fieldFirst : FieldFirst next.callbacks) :
    Goes e ch next where
  fits := fits
  fieldFirst := fieldFirst
  callbacks := by rw [callbacks]; exact List.prefix_append ..
  keeps := fun m' t' h => .inr ⟨u, rest, part, by simp_all⟩

/-- An execution that goes on, in the state `s`, outside the inner loops. -/
structure Stands (e : Execution) (s : State) : Prop where
  fits : e.Fits
  live : e.returned = false
  outer : e.inner = none
  state : e.parser.state = s

namespace Stands

variable {s : State}

/-- A byte that only moves the parser on, to a state that fits the mark. -/
theorem quiet {next : Execution} (h : e.Stands s) (s' : State) (follows : s.Follows s')
    (state : next.parser.state = s') (frame : next = { e with parser := next.parser }) :
    Goes e ch next := by
  rw [frame]
  refine Goes.quiet h.fits h.live ?_ rfl rfl rfl ?_
  · rw [h.state]
    exact state ▸ follows
  · intro i inside
    rw [h.outer] at inside
    cases inside

/-- A byte that leaves the state as it is. -/
theorem stay {next : Execution} (h : e.Stands s) (state : next.parser.state = s)
    (frame : next = { e with parser := next.parser }) : Goes e ch next :=
  h.quiet s (State.follows_refl s) state frame

theorem error {x : Execution} {err : HttpErrno} (h : e.Stands s)
    (callbacks : x.callbacks = e.callbacks) (failed : err ≠ .ok) : Goes e ch (x.error err) :=
  Goes.error h.fits callbacks failed

theorem frame (h : e.Stands s) (parser : HttpParser) :
    { e with parser := parser } = { e with parser := parser, inner := none } := by
  rw [← h.outer]

theorem unmarked (h : e.Stands s) (none : s.mark = none) : e.marked = Option.none :=
  h.fits.unmarked (h.state ▸ none)

theorem tells (h : e.Stands s) (none : s.mark = none) : Tells e e :=
  h.fits.tells (h.state ▸ none) h.outer

end Stands

/-- `countHeaderSize` only touches a counter before it goes on. -/
theorem countHeaderSize_goes {x : Execution} {v : Nat} {next : Execution → Execution}
    (fits : e.Fits) (callbacks : x.callbacks = e.callbacks)
    (goes : ∀ nread, Goes e ch (next { x with parser := { x.parser with nread := nread } })) :
    Goes e ch (x.countHeaderSize v next) := by
  simp only [countHeaderSize]
  split_ifs
  · exact Goes.error fits callbacks (by decide)
  · exact goes _

/-- An error after a step. -/
theorem Goes.failed {next : Execution} {err : HttpErrno} (goes : Goes e ch next)
    (failed : err ≠ .ok) : Goes e ch (next.error err) where
  fits := by simp
  fieldFirst := goes.fieldFirst
  callbacks := goes.callbacks
  keeps := fun m t h => by
    rcases goes.keeps m t h with ⟨same, -⟩ | reported
    · exact .inl ⟨same, .inr ⟨rfl, failed⟩⟩
    · exact .inr reported

/-- A step that goes on after its text is closed. -/
theorem Goes.andThen {x next : Execution} (first : Goes e ch x) (live : x.returned = false)
    (closed : x.marked = none) (second : Goes x ch next) : Goes e ch next where
  fits := second.fits
  fieldFirst := second.fieldFirst
  callbacks := first.callbacks.trans second.callbacks
  keeps := fun m t h => by
    rcases first.keeps m t h with ⟨-, ⟨-, open_⟩ | ⟨returned, -⟩⟩ | ⟨u, rest, part, reported⟩
    -- The first step has closed the text without an error, so it has reported it.
    · simp [closed] at open_
    · simp [live] at returned
    · obtain ⟨more, extended⟩ := second.callbacks
      exact .inr ⟨u, rest ++ more, part, by simp [← extended, reported]⟩

/-- The counter of header bytes is not read between two bytes. -/
theorem Goes.setNread {next : Execution} (goes : Goes e ch next) (nread : Nat) :
    Goes e ch { next with parser := { next.parser with nread := nread } } where
  fits := fun live =>
    let fits := goes.fits live
    ⟨fits.inner, fits.marked, fits.text, fits.named, fits.fieldFirst⟩
  fieldFirst := goes.fieldFirst
  callbacks := goes.callbacks
  keeps := goes.keeps

theorem callbackData_updateState (x : Execution) (m : Mark) (s : State) :
    (x.callbackData m).updateState s = (x.updateState s).callbackData m := by
  simp only [callbackData, updateState]
  split
  · split_ifs <;> rfl
  · rfl

/-! ## The request line -/

theorem startReq_goes (h : e.Stands .startReq) : Goes e ch (e.startReq ch) := by
  simp only [startReq]
  split_ifs
  · exact h.stay h.state rfl
  · exact h.error rfl (by decide)
  · split
    · exact h.error rfl (by decide)
    · exact (((h.tells rfl).setParser _).notify rfl).goes .reqMethod rfl (by decide)

theorem reqMethod_goes (h : e.Stands .reqMethod) : Goes e ch (e.reqMethod ch) := by
  simp only [reqMethod]
  split_ifs
  · exact h.error rfl (by decide)
  · exact h.quiet .reqSpacesBeforeUrl (by decide) rfl rfl
  · exact h.stay h.state rfl
  · split
    · exact h.error rfl (by decide)
    · exact h.stay h.state rfl

/-- A byte of a URL that does not end the parse leaves it in a state of the URL. -/
theorem parseUrlChar_mark {s : State} {ch : Byte} (alive : parseUrlChar s ch ≠ .dead) :
    (parseUrlChar s ch).mark = some .url ∧ (parseUrlChar s ch).named = false := by
  revert alive
  -- Every branch of the URL parser ends in a literal state.
  simp only [parseUrlChar]
  repeat' split
  all_goals simp [State.mark, State.named]

theorem urlChar_goes {s : State} (h : e.Stands s) (url : s.mark = some .url) :
    Goes e ch (e.urlChar ch) := by
  simp only [urlChar]
  split_ifs with dead
  · exact h.error rfl (by decide)
  · obtain ⟨mark, unnamed⟩ := parseUrlChar_mark dead
    exact h.quiet _ ⟨.inl (mark.trans url.symm), by simp [unnamed]⟩ rfl rfl

theorem reqSpacesBeforeUrl_goes (h : e.Stands .reqSpacesBeforeUrl) :
    Goes e ch (e.reqSpacesBeforeUrl ch) := by
  have unmarked := h.unmarked rfl
  simp only [reqSpacesBeforeUrl]
  split_ifs
  · exact h.stay h.state rfl
  all_goals
    simp only [urlChar, mark, unmarked]
    split_ifs with dead
    · exact h.error rfl (by decide)
    · obtain ⟨mark, unnamed⟩ := parseUrlChar_mark dead
      exact Goes.opened .url h.fits unmarked rfl mark
        (fun named => absurd (unnamed.symm.trans named) (by decide)) rfl h.outer

theorem reqSchema_goes {s : State} (h : e.Stands s) (url : s.mark = some .url) :
    Goes e ch (e.reqSchema ch) := by
  simp only [reqSchema]
  split_ifs
  · exact h.error rfl (by decide)
  · exact urlChar_goes h url

/-- A step that reports the text that is open and goes on in a state without a mark. -/
theorem callbackData_goes {x : Execution} {m : Mark} {s s' : State} (h : e.Stands s)
    (here : s.mark = some m) (other : m ≠ .body)
    (frame : x = { e with parser := x.parser, inner := none }) (state : x.parser.state = s')
    (after : s'.mark = none) (named : s'.named = true → m = .headerField ∨ s.named = true)
    (value : m = .headerValue → s.named = true) : Goes e ch (x.callbackData m) := by
  have callbacks : x.callbacks = e.callbacks := by rw [frame]
  have marked : x.marked = e.marked := by rw [frame]
  have inner : x.inner = none := by rw [frame]
  obtain ⟨t, text⟩ := h.fits.text m (h.state ▸ here) other
  have fieldFirst : FieldFirst (e.callbacks ++ [m.callback t]) := by
    rw [fieldFirst_append]
    -- Only a value can break the order, and its name has been reported.
    refine ⟨h.fits.fieldFirst, ?_⟩
    cases m with
    | headerValue => exact .inl (h.fits.named (h.state ▸ value rfl))
    | _ => exact .inr (by simp [Mark.callback, Callback.isField, Callback.isValue])
  have fits : Fits { x.notify (m.callback t) with marked := none } := {
    inner := by simp [inner]
    marked := by simp
    text := by simp [state, after]
    named := fun h' => by
      simp only [notify_callbacks, callbacks, List.any_append, Bool.or_eq_true]
      simp only [parser_notify, state] at h'
      -- A name is waiting for its value: it is the one reported here or an earlier one.
      rcases named h' with field | was
      · exact .inr (by simp [field, Mark.callback, Callback.isField])
      · exact .inl (h.fits.named (h.state ▸ was))
    fieldFirst := by simpa [callbacks] }
  simp only [callbackData, marked, text, if_pos]
  exact Goes.closed [] [] text List.nil_prefix (by simp [callbacks])
    (fun _ => fits) (by simpa [callbacks])

theorem reqUrl_goes {s : State} (h : e.Stands s) (url : s.mark = some .url) :
    Goes e ch (e.reqUrl ch) := by
  simp only [reqUrl]
  split_ifs
  · exact callbackData_goes h url (by decide) (h.frame _) rfl rfl (by simp [State.named]) (by simp)
  · exact callbackData_goes h url (by decide) (h.frame _) rfl rfl (by simp [State.named]) (by simp)
  · exact callbackData_goes h url (by decide) (h.frame _) rfl rfl (by simp [State.named]) (by simp)
  · exact urlChar_goes h url

theorem reqHttpStart_goes (h : e.Stands .reqHttpStart) : Goes e ch (e.reqHttpStart ch) := by
  simp only [reqHttpStart]
  split_ifs
  · exact h.quiet .reqHttpH (by decide) rfl rfl
  · exact h.stay h.state rfl
  · exact h.error rfl (by decide)

theorem expect_goes {s s' : State} {c : Byte} (h : e.Stands s) (follows : s.Follows s') :
    Goes e ch (e.expect ch c s') := by
  simp only [expect]
  split_ifs
  · exact h.error rfl (by decide)
  · exact h.quiet s' follows rfl rfl

theorem reqFirstHttpMajor_goes (h : e.Stands .reqFirstHttpMajor) :
    Goes e ch (e.reqFirstHttpMajor ch) := by
  simp only [reqFirstHttpMajor]
  split_ifs
  · exact h.error rfl (by decide)
  · exact h.quiet .reqHttpMajor (by decide) rfl rfl

theorem reqHttpMajor_goes (h : e.Stands .reqHttpMajor) : Goes e ch (e.reqHttpMajor ch) := by
  simp only [reqHttpMajor]
  split_ifs
  · exact h.quiet .reqFirstHttpMinor (by decide) rfl rfl
  · exact h.error rfl (by decide)
  · exact h.error rfl (by decide)
  · exact h.stay h.state rfl

theorem reqFirstHttpMinor_goes (h : e.Stands .reqFirstHttpMinor) :
    Goes e ch (e.reqFirstHttpMinor ch) := by
  simp only [reqFirstHttpMinor]
  split_ifs
  · exact h.error rfl (by decide)
  · exact h.quiet .reqHttpMinor (by decide) rfl rfl

theorem reqHttpMinor_goes (h : e.Stands .reqHttpMinor) : Goes e ch (e.reqHttpMinor ch) := by
  simp only [reqHttpMinor]
  split_ifs
  · exact h.quiet .reqLineAlmostDone (by decide) rfl rfl
  · exact h.quiet .headerFieldStart (by decide) rfl rfl
  · exact h.error rfl (by decide)
  · exact h.error rfl (by decide)
  · exact h.stay h.state rfl

theorem reqLineAlmostDone_goes (h : e.Stands .reqLineAlmostDone) :
    Goes e ch (e.reqLineAlmostDone ch) := by
  simp only [reqLineAlmostDone]
  split_ifs
  · exact h.error rfl (by decide)
  · exact h.quiet .headerFieldStart (by decide) rfl rfl

/-! ## The end of a message -/

theorem newMessage_idle (parser : HttpParser) : (newMessage parser).Idle := by
  simp only [newMessage]
  split_ifs <;> decide

theorem Tells.completeMessage {x : Execution} (tells : Tells e x) :
    Tells e x.completeMessage :=
  (tells.updateState _).notify rfl

theorem completeMessage_goes {x : Execution} (tells : Tells e x) :
    Goes e ch x.completeMessage :=
  tells.completeMessage.goes _ rfl (newMessage_idle _)

/-- The message ends, and with an upgrade the execution too. -/
theorem messageDone_goes {x : Execution} (tells : Tells e x) : Goes e ch x.messageDone := by
  simp only [messageDone]
  split_ifs
  · exact tells.completeMessage.returnPast.goes _ rfl (newMessage_idle _)
  · exact completeMessage_goes tells

theorem headersDone_goes {x : Execution} (tells : Tells e x) : Goes e ch (x.headersDone ch) := by
  have counted := tells.setParser { x.parser with nread := 0 }
  simp only [headersDone]
  split_ifs
  · exact tells.error
  · exact counted.completeMessage.returnPast.goes _ rfl (newMessage_idle _)
  · exact completeMessage_goes counted
  · exact (counted.updateState _).goes .chunkSizeStart rfl (by decide)
  · exact completeMessage_goes counted
  · exact (counted.updateState _).goes .bodyIdentity rfl (by decide)
  · exact completeMessage_goes counted

theorem headersAlmostDone_goes {x : Execution} (tells : Tells e x) :
    Goes e ch (x.headersAlmostDone ch) := by
  simp only [headersAlmostDone]
  split_ifs
  · exact tells.error
  · exact messageDone_goes ((tells.updateState _).notify rfl)
  · exact headersDone_goes ((tells.setParser _).notify rfl)

/-! ## Header lines -/

theorem headerFieldStart_goes {x : Execution} (tells : Tells e x) :
    Goes e ch (x.headerFieldStart ch) := by
  simp only [headerFieldStart]
  split_ifs
  · exact (tells.updateState _).goes .headersAlmostDone rfl (by decide)
  · exact headersAlmostDone_goes (tells.updateState _)
  · exact tells.error
  · simp only [mark, tells.closed]
    exact {
      fits := fun _ => {
        inner := by simp [tells.inner]
        marked := by simp [State.mark]
        text := by simp [State.mark]
        named := by simp [State.named]
        fieldFirst := tells.fieldFirst }
      fieldFirst := tells.fieldFirst
      callbacks := tells.callbacks
      keeps := fun m t h => by simp [tells.unmarked] at h }

theorem matchText_state {text : Bytes} {mismatch whole : HeaderState} {parser : HttpParser}
    {c : Byte} : (matchText text mismatch whole parser c).state = parser.state := by
  simp only [matchText]
  split_ifs <;> rfl

theorem headerFieldByte_state {parser : HttpParser} :
    (headerFieldByte parser ch).state = parser.state := by
  unfold headerFieldByte
  cases parser.headerState
  all_goals simp only [matchText_state]
  all_goals split_ifs <;> rfl

/-- What a step does to an execution does not depend on the inner loop it is in. -/
theorem Goes.inside {next : Execution} (goes : Goes { e with inner := none } ch next) :
    Goes e ch next :=
  ⟨goes.fits, goes.fieldFirst, goes.callbacks, goes.keeps⟩

/-- A byte of an inner loop that stays in the loop. -/
theorem Goes.loops {s : State} {next : Execution} {i : Inner}
    (h : Stands { e with inner := none } s) (state : next.parser.state = s) (loop : i.state = s)
    (frame : next = { e with parser := next.parser, inner := some i }) : Goes e ch next := by
  apply Goes.inside
  rw [frame]
  refine Goes.quiet h.fits h.live ?_ rfl rfl rfl ?_
  · rw [h.state]
    exact state ▸ State.follows_refl _
  · intro j inside
    rw [← Option.some.inj inside, loop]
    exact state

theorem headerFieldLoop_goes {read : Nat} (h : Stands { e with inner := none } .headerField) :
    Goes e ch (e.headerFieldLoop ch read) := by
  simp only [headerFieldLoop]
  split_ifs with ended colon
  · refine Goes.inside (countHeaderSize_goes h.fits rfl fun nread => ?_)
    -- The colon reports the name and leaves a state in which it waits for a value.
    exact callbackData_goes h rfl (by decide) rfl rfl rfl (by simp) (by simp)
  · exact Goes.inside (countHeaderSize_goes h.fits rfl fun _ => h.error rfl (by decide))
  · exact Goes.loops h (headerFieldByte_state.trans h.state) rfl rfl

theorem headerValueStart_goes {x : Execution} {s : State} (h : e.Stands s) (none : s.mark = none)
    (named : s.named = true) (frame : x = { e with parser := x.parser }) :
    Goes e ch (x.headerValueStart ch) := by
  have callbacks : x.callbacks = e.callbacks := by rw [frame]
  have marked : x.marked = e.marked := by rw [frame]
  have inner : x.inner = e.inner := by rw [frame]
  have unmarked := h.unmarked none
  simp only [headerValueStart, mark, marked, unmarked]
  split
  all_goals try split_ifs
  -- A content length must start with a digit; all other values just open their text.
  all_goals first
    | exact h.error callbacks (by decide)
    | exact Goes.opened .headerValue h.fits unmarked rfl rfl (fun _ => h.state ▸ named)
        callbacks (inner.trans h.outer)

theorem headerValueDiscardWs_goes (h : e.Stands .headerValueDiscardWs) :
    Goes e ch (e.headerValueDiscardWs ch) := by
  simp only [headerValueDiscardWs]
  split_ifs
  · exact h.stay h.state rfl
  · exact h.quiet .headerValueDiscardWsAlmostDone (by decide) rfl rfl
  · exact h.quiet .headerValueDiscardLws (by decide) rfl rfl
  · exact headerValueStart_goes h rfl rfl rfl

theorem headerValueByte_state {parser next : HttpParser}
    (here : parser.state = .headerValue) (h : headerValueByte parser ch = some next) :
    next.state = .headerValue := by
  unfold headerValueByte at h
  -- No branch of the switch leaves `s_header_value`, so the text of the value stays open.
  cases hs : parser.headerState
  all_goals simp only [hs] at h
  all_goals try split_ifs at h
  all_goals
    simp only [Option.some.injEq] at h
    subst h
    simp only [matchText_state, connectionFlag, hs, here]

theorem headerValue_reported {x : Execution} {s : State}
    (h : Stands { e with inner := none } .headerValue)
    (frame : x = { e with parser := x.parser, inner := none }) (state : x.parser.state = s)
    (after : s.mark = none) : Goes { e with inner := none } ch (x.callbackData .headerValue) :=
  (callbackData_goes h rfl (by decide) frame state after
    (fun _ => .inr rfl) (fun _ => rfl))

/-- The end of a header line reports the value, unless the line is too long. -/
theorem headerValueEnd_goes {read : Nat} (h : Stands { e with inner := none } .headerValue) :
    Goes e ch (e.headerValueEnd ch read) := by
  simp only [headerValueEnd]
  split_ifs
  -- On a carriage return the value is reported before the count can fail.
  · have reported : Goes e ch
        (({ e with inner := none }.updateState .headerAlmostDone).callbackData .headerValue) :=
      Goes.inside (headerValue_reported h rfl rfl rfl)
    simp only [countHeaderSize, id]
    split_ifs
    · exact (reported.setNread _).failed (by decide)
    · exact reported.setNread _
  · refine Goes.inside (countHeaderSize_goes h.fits rfl fun nread => ?_)
    -- On a line feed the count comes first, and the byte is then read again.
    simp only [expect]
    split_ifs
    · exact Goes.failed (headerValue_reported h rfl rfl rfl) (by decide)
    · rw [callbackData_updateState]
      exact headerValue_reported h rfl rfl rfl

theorem headerValueLoop_goes {read : Nat} (h : Stands { e with inner := none } .headerValue) :
    Goes e ch (e.headerValueLoop ch read) := by
  simp only [headerValueLoop]
  split_ifs
  · exact headerValueEnd_goes h
  · exact Goes.loops h h.state rfl rfl
  · split
    · exact Goes.inside (h.error rfl (by decide))
    · exact Goes.loops h (headerValueByte_state h.state ‹_›) rfl rfl

theorem searchLoop_goes {read looked : Nat} (h : Stands { e with inner := none } .headerValue) :
    Goes e ch (e.searchLoop ch read looked) := by
  simp only [searchLoop]
  split_ifs
  · exact Goes.loops h h.state rfl rfl
  · exact headerValueEnd_goes h
  · exact Goes.loops h h.state rfl rfl

theorem headerValueLws_goes (h : e.Stands .headerValueLws) : Goes e ch (e.headerValueLws ch) := by
  simp only [headerValueLws]
  split_ifs
  · exact headerValueStart_goes h rfl rfl rfl
  · exact headerFieldStart_goes (((h.tells rfl).setParser _).updateState _)

/-- An empty value is reported as soon as the next line begins. -/
theorem headerValueDiscardLws_goes (h : e.Stands .headerValueDiscardLws) :
    Goes e ch (e.headerValueDiscardLws ch) := by
  simp only [headerValueDiscardLws]
  split_ifs
  · exact h.quiet .headerValueDiscardWs (by decide) rfl rfl
  · have unmarked := h.unmarked rfl
    -- The name of this value has been reported, as the state says.
    have named := h.fits.named (by rw [h.state]; rfl)
    refine headerFieldStart_goes ?_
    simp only [mark, unmarked, callbackData, updateState, if_pos, Mark.callback]
    exact ⟨unmarked, rfl, List.prefix_append .., by
      simp [fieldFirst_append, h.fits.fieldFirst, named], h.outer⟩

/-! ## Bodies -/

/-- A byte of a body that does not end it. -/
theorem body_goes {next : Execution} {s : State} (s' : State) (h : e.Stands s)
    (body : s.mark = some .body) (state : next.parser.state = s') (same : s'.mark = some .body)
    (named : s'.named = false)
    (frame : next = { e with parser := next.parser, marked := (e.mark .body).marked }) :
    Goes e ch next := by
  cases hm : e.marked with
  | none =>
    -- The first byte of a piece of body sets the mark.
    rw [frame]
    refine Goes.opened .body h.fits hm ?_ ?_ ?_ rfl h.outer
    · simp [mark, hm]
    · exact state ▸ same
    · intro is_named
      exact absurd (state ▸ is_named) (by simp [named])
  | some mt =>
    -- Later bytes find it set.
    apply h.quiet s' ⟨.inl (same.trans body.symm), by simp [named]⟩ state
    rw [frame]
    simp [mark, hm]

theorem mark_frame (x : Execution) (m : Mark) :
    x.mark m = { x with marked := (x.mark m).marked } := by
  unfold mark
  cases x.marked <;> rfl

/-- The end of a piece of body, with the byte `ch` or without. -/
theorem bodyEnd_goes {x : Execution} {s : State} (s' : State) (h : e.Stands s)
    (body : s.mark = some .body) (callbacks : x.callbacks = e.callbacks)
    (only : ∀ m t, x.marked = some (m, t) → m = .body)
    (text : ∀ t, e.marked = some (.body, t) → ∃ u, u <+: [ch] ∧ x.marked = some (.body, t ++ u))
    (inner : x.inner = none) (state : x.parser.state = s') (after : s'.Idle) :
    Goes e ch (x.callbackData .body) ∧ (x.callbackData .body).marked = none := by
  -- The state allows no other mark than that of the body.
  have own : ∀ m t, e.marked = some (m, t) → m = .body := fun m t hm => by
    have here := h.fits.marked m t hm
    simp only [h.state, body, Option.some.injEq] at here
    exact here.symm
  cases hx : x.marked with
  | none =>
    have unmarked : e.marked = none := by
      cases hm : e.marked with
      | none => rfl
      -- An open body is still open in `x`.
      | some mt =>
        obtain ⟨u, -, open_⟩ := text mt.2 (by rw [hm, ← own mt.1 mt.2 hm])
        simp [hx] at open_
    simp only [callbackData, hx]
    exact ⟨Tells.goes ⟨unmarked, hx, callbacks ▸ List.prefix_rfl, callbacks ▸ h.fits.fieldFirst,
      inner⟩ _ state after, trivial⟩
  | some mt =>
    obtain ⟨m, t⟩ := mt
    obtain rfl := only m t hx
    have fieldFirst : FieldFirst (e.callbacks ++ [.onBody t]) := by
      simp [fieldFirst_append, h.fits.fieldFirst, Callback.isValue]
    have fits : Fits { x.notify (.onBody t) with marked := none } :=
      Fits.idle state after rfl inner (by simpa [callbacks] using fieldFirst)
    simp only [callbackData, hx, if_pos, Mark.callback, and_true]
    cases hm : e.marked with
    | none =>
      -- The piece began with this very byte.
      exact ⟨fun _ => fits, by simpa [callbacks] using fieldFirst, by simp [callbacks],
        fun m t h => by simp [hm] at h⟩
    | some mt =>
      obtain ⟨m, t'⟩ := mt
      obtain rfl := own m t' hm
      obtain ⟨u, part, longer⟩ := text t' hm
      simp only [hx, Option.some.injEq, Prod.mk.injEq, true_and] at longer
      exact Goes.closed u [] hm part (by simp [callbacks, longer, Mark.callback])
        (fun _ => fits) (by simpa [callbacks] using fieldFirst)

theorem callbackData_returned (x : Execution) (m : Mark) :
    (x.callbackData m).returned = x.returned := by
  unfold callbackData
  split
  · split_ifs <;> rfl
  · rfl

theorem callbackData_inner (x : Execution) (m : Mark) : (x.callbackData m).inner = x.inner := by
  unfold callbackData
  split
  · split_ifs <;> rfl
  · rfl

/-- The last piece of an identity body, and with it the end of the message. -/
theorem lastBody_goes {x : Execution} (h : e.Stands .bodyIdentity)
    (callbacks : x.callbacks = e.callbacks) (only : ∀ m t, x.marked = some (m, t) → m = .body)
    (text : ∀ t, e.marked = some (.body, t) → ∃ u, u <+: [ch] ∧ x.marked = some (.body, t ++ u))
    (returned : x.returned = e.returned) (inner : x.inner = none)
    (state : x.parser.state = .messageDone) : Goes e ch (x.callbackData .body).messageDone := by
  obtain ⟨reported, closed⟩ :=
    bodyEnd_goes .messageDone h rfl callbacks only text inner state (by decide)
  have tells : Tells (x.callbackData .body) (x.callbackData .body) :=
    ⟨closed, closed, List.prefix_rfl, reported.fieldFirst, by rw [callbackData_inner, inner]⟩
  exact reported.andThen (by rw [callbackData_returned, returned, h.live]) closed
    (messageDone_goes tells)

theorem bodyIdentity_goes (h : e.Stands .bodyIdentity) : Goes e ch (e.bodyIdentity ch) := by
  simp only [bodyIdentity]
  rw [mark_frame]
  split_ifs
  · refine lastBody_goes h rfl (fun m t hm => ?_) (fun t hm => ⟨[ch], List.prefix_rfl, ?_⟩) rfl
      h.outer rfl
    · cases he : e.marked with
      | none => simp_all [updateState, mark]
      | some mt =>
        have own := h.fits.marked mt.1 mt.2 he
        simp_all [h.state, State.mark, updateState, mark]
    · simp [updateState, mark, hm]
  · exact body_goes _ h rfl h.state rfl rfl rfl

theorem chunkSizeStart_goes (h : e.Stands .chunkSizeStart) : Goes e ch (e.chunkSizeStart ch) := by
  simp only [chunkSizeStart]
  split
  · exact h.error rfl (by decide)
  · exact h.quiet .chunkSize (by decide) rfl rfl

theorem chunkSize_goes (h : e.Stands .chunkSize) : Goes e ch (e.chunkSize ch) := by
  unfold chunkSize
  split
  · exact h.quiet .chunkSizeAlmostDone (by decide) rfl rfl
  · cases unhex ch with
    | none =>
      dsimp only
      split
      · exact h.quiet .chunkParameters (by decide) rfl rfl
      · exact h.error rfl (by decide)
    | some v =>
      dsimp only
      split
      · exact h.error rfl (by decide)
      · exact h.stay h.state rfl

theorem chunkParameters_goes (h : e.Stands .chunkParameters) :
    Goes e ch (e.chunkParameters ch) := by
  simp only [chunkParameters]
  split_ifs
  · exact h.quiet .chunkSizeAlmostDone (by decide) rfl rfl
  · exact h.stay h.state rfl

theorem chunkSizeAlmostDone_goes (h : e.Stands .chunkSizeAlmostDone) :
    Goes e ch (e.chunkSizeAlmostDone ch) := by
  simp only [chunkSizeAlmostDone]
  split_ifs
  · exact h.error rfl (by decide)
  · exact (((h.tells rfl).setParser _).notify rfl).goes .headerFieldStart rfl (by decide)
  · exact (((h.tells rfl).setParser _).notify rfl).goes .chunkData rfl (by decide)

theorem chunkData_goes (h : e.Stands .chunkData) : Goes e ch e.chunkData := by
  simp only [chunkData]
  rw [mark_frame]
  split_ifs
  · exact body_goes .chunkDataAlmostDone h rfl rfl rfl rfl rfl
  · exact body_goes _ h rfl h.state rfl rfl rfl

theorem chunkDataAlmostDone_goes (h : e.Stands .chunkDataAlmostDone) :
    Goes e ch (e.chunkDataAlmostDone ch) := by
  simp only [chunkDataAlmostDone]
  split_ifs
  · exact h.error rfl (by decide)
  · refine (bodyEnd_goes (x := e.updateState .chunkDataDone) .chunkDataDone h rfl rfl
      (fun m t hm => ?_) (fun t hm => ⟨[], List.nil_prefix, by simpa using hm⟩) h.outer rfl
      (by decide)).1
    simpa [h.state, State.mark] using (h.fits.marked m t hm).symm

theorem chunkDataDone_goes (h : e.Stands .chunkDataDone) : Goes e ch (e.chunkDataDone ch) := by
  simp only [chunkDataDone]
  split_ifs
  · exact h.error rfl (by decide)
  · exact (((h.tells rfl).setParser _).notify rfl).goes .chunkSizeStart rfl (by decide)

/-! ## The main loop -/

/-- Every case of the main loop. -/
theorem dispatch_goes {s : State} (h : e.Stands s) : Goes e ch (e.dispatch ch) := by
  have state := h.state
  unfold dispatch
  cases s
  all_goals simp only [state]
  case dead =>
    split
    · exact h.stay h.state rfl
    · exact h.error rfl (by decide)
  case startReq => exact startReq_goes h
  case reqMethod => exact reqMethod_goes h
  case reqSpacesBeforeUrl => exact reqSpacesBeforeUrl_goes h
  case reqSchema | reqSchemaSlash | reqSchemaSlashSlash | reqServerStart =>
    exact reqSchema_goes h rfl
  case reqServer | reqServerWithAt | reqPath | reqQueryStringStart | reqQueryString
      | reqFragmentStart | reqFragment =>
    exact reqUrl_goes h rfl
  case reqHttpStart => exact reqHttpStart_goes h
  case reqHttpH | reqHttpHT | reqHttpHTT | reqHttpHTTP | headerValueDiscardWsAlmostDone
      | headerAlmostDone =>
    exact expect_goes h (by decide)
  case reqFirstHttpMajor => exact reqFirstHttpMajor_goes h
  case reqHttpMajor => exact reqHttpMajor_goes h
  case reqFirstHttpMinor => exact reqFirstHttpMinor_goes h
  case reqHttpMinor => exact reqHttpMinor_goes h
  case reqLineAlmostDone => exact reqLineAlmostDone_goes h
  case headerFieldStart => exact headerFieldStart_goes (h.tells rfl)
  case headerField => exact headerFieldLoop_goes ⟨h.fits.leave, h.live, rfl, h.state⟩
  case headerValueDiscardWs => exact headerValueDiscardWs_goes h
  case headerValueDiscardLws => exact headerValueDiscardLws_goes h
  case headerValueStart => exact headerValueStart_goes h rfl rfl rfl
  case headerValue => exact headerValueLoop_goes ⟨h.fits.leave, h.live, rfl, h.state⟩
  case headerValueLws => exact headerValueLws_goes h
  case chunkSizeStart => exact chunkSizeStart_goes h
  case chunkSize => exact chunkSize_goes h
  case chunkParameters => exact chunkParameters_goes h
  case chunkSizeAlmostDone => exact chunkSizeAlmostDone_goes h
  case headersAlmostDone => exact headersAlmostDone_goes (h.tells rfl)
  case headersDone => exact headersDone_goes (h.tells rfl)
  case chunkData => exact chunkData_goes h
  case chunkDataAlmostDone => exact chunkDataAlmostDone_goes h
  case chunkDataDone => exact chunkDataDone_goes h
  case bodyIdentity => exact bodyIdentity_goes h
  case bodyIdentityEof =>
    rw [mark_frame]
    exact body_goes _ h rfl h.state rfl rfl rfl
  case messageDone => exact messageDone_goes (h.tells rfl)

theorem consume_goes (fits : e.Fits) (live : e.returned = false) :
    Goes e ch (e.consume ch) := by
  have inside : ∀ i, e.inner = some i → Stands { e with inner := none } i.state :=
    fun i hi => ⟨fits.leave, live, rfl, fits.inner i hi⟩
  unfold consume
  cases hi : e.inner with
  | some i =>
    cases i with
    | headerField read => exact headerFieldLoop_goes (inside _ hi)
    | headerValue read => exact headerValueLoop_goes (inside _ hi)
    | search read looked => exact searchLoop_goes (inside _ hi)
    | skip read =>
      exact Goes.loops (i := .skip (read + 1)) (inside _ hi) (inside _ hi).state rfl rfl
  | none =>
    -- The invariant does not read the counter, so the byte may be charged first.
    have stands : ∀ nread, Stands { e with parser := { e.parser with nread := nread } }
        e.parser.state := fun nread =>
      ⟨⟨fits.inner, fits.marked, fits.text, fits.named, fits.fieldFirst⟩, live, hi, rfl⟩
    dsimp only
    split
    · refine countHeaderSize_goes fits rfl fun nread => ?_
      obtain ⟨fits', fieldFirst, callbacks, keeps⟩ := show Goes _ ch _ from
        dispatch_goes (stands nread)
      exact ⟨fits', fieldFirst, callbacks, keeps⟩
    · exact dispatch_goes ⟨fits, live, hi, rfl⟩

theorem Fits.advance (fits : e.Fits) (ch : Byte) : (e.advance ch).Fits where
  inner := fits.inner
  marked := fun m t h => by
    simp only [advance_marked, Option.map_eq_some_iff, Prod.mk.injEq] at h
    obtain ⟨⟨m', t'⟩, was, rfl, -⟩ := h
    exact fits.marked m' t' was
  text := fun m h other => by
    obtain ⟨t, text⟩ := fits.text m h other
    exact ⟨t ++ [ch], by simp [text]⟩
  named := fits.named
  fieldFirst := fits.fieldFirst

/-- The invariant of a whole run, which may have returned. -/
structure Sound (e : Execution) : Prop where
  fits : e.returned = false → e.Fits
  fieldFirst : FieldFirst e.callbacks

theorem step_sound (sound : e.Sound) : (e.step ch).Sound := by
  unfold step
  split_ifs with returned
  · exact sound
  · have live : e.returned = false := by simpa using returned
    have goes : Goes e ch (e.consume ch) := consume_goes (sound.fits live) live
    dsimp only
    split_ifs with stopped
    · exact ⟨goes.fits, goes.fieldFirst⟩
    · have fits := goes.fits (by simpa using stopped)
      exact ⟨fun _ => fits.advance ch, goes.fieldFirst⟩

theorem step_callbacks (sound : e.Sound) : e.callbacks <+: (e.step ch).callbacks := by
  unfold step
  split_ifs with returned
  · exact List.prefix_rfl
  · have live : e.returned = false := by simpa using returned
    have goes : Goes e ch (e.consume ch) := consume_goes (sound.fits live) live
    dsimp only
    split_ifs
    · exact goes.callbacks
    · exact goes.callbacks

/-- What has become of the open text `t` of mark `m` when the bytes `c` have been
read: it is open still, lost to an error, or reported up to some byte of `c`. -/
def Continues (e : Execution) (m : Mark) (t c : Bytes) (next : Execution) : Prop :=
  (next.callbacks = e.callbacks ∧
    (next.returned = false ∧ next.marked = some (m, t ++ c) ∨
      next.returned = true ∧ next.parser.httpErrno ≠ .ok)) ∨
  ∃ u rest, u <+: c ∧ next.callbacks = e.callbacks ++ m.callback (t ++ u) :: rest

theorem step_continues {m : Mark} {t : Bytes} (sound : e.Sound) (live : e.returned = false)
    (text : e.marked = some (m, t)) : e.Continues m t [ch] (e.step ch) := by
  have goes : Goes e ch (e.consume ch) := consume_goes (sound.fits live) live
  simp only [step, live, Bool.false_eq_true, if_false]
  rcases goes.keeps m t text with ⟨same, ⟨going, marked⟩ | ⟨returned, failed⟩⟩ | reported
  -- `p++` takes the byte into the text that is still open.
  · simp only [going, Bool.false_eq_true, if_false]
    exact .inl ⟨same, .inl ⟨going, by simp [marked]⟩⟩
  · simp only [returned, if_true]
    exact .inl ⟨same, .inr ⟨returned, failed⟩⟩
  · split_ifs
    · exact .inr reported
    · exact .inr reported

theorem foldl_step_returned (returned : e.returned = true) (c : Bytes) :
    c.foldl step e = e := by
  induction c with
  | nil => rfl
  | cons ch c ih => rw [List.foldl_cons, show e.step ch = e by simp [step, returned], ih]

theorem foldl_step_sound (sound : e.Sound) (c : Bytes) : (c.foldl step e).Sound := by
  induction c generalizing e with
  | nil => exact sound
  | cons ch c ih => exact ih (step_sound sound)

theorem foldl_step_callbacks (sound : e.Sound) (c : Bytes) :
    e.callbacks <+: (c.foldl step e).callbacks := by
  induction c generalizing e with
  | nil => exact List.prefix_rfl
  | cons ch c ih => exact (step_callbacks sound).trans (ih (step_sound sound))

theorem foldl_step_continues {m : Mark} {t : Bytes} (sound : e.Sound)
    (live : e.returned = false) (text : e.marked = some (m, t)) (c : Bytes) :
    e.Continues m t c (c.foldl step e) := by
  induction c generalizing e t with
  | nil => exact .inl ⟨rfl, .inl ⟨live, by simpa using text⟩⟩
  | cons ch c ih =>
    have next : (e.step ch).Sound := step_sound sound
    rw [List.foldl_cons]
    have first : e.Continues m t [ch] (e.step ch) := step_continues sound live text
    rcases first with
      ⟨same, ⟨going, marked⟩ | ⟨returned, failed⟩⟩ | ⟨u, rest, part, reported⟩
    -- The first byte leaves the text open, now with `ch`: the rest of the bytes decides.
    · rcases ih next going marked with ⟨same', ⟨going', marked'⟩ | stopped⟩ | ⟨u, rest, part, r⟩
      · exact .inl ⟨same'.trans same, .inl ⟨going', by simpa using marked'⟩⟩
      · exact .inl ⟨same'.trans same, .inr stopped⟩
      · exact .inr ⟨ch :: u, rest, by simpa using part, by simpa [same] using r⟩
    · rw [foldl_step_returned returned]
      exact .inl ⟨same, .inr ⟨returned, failed⟩⟩
    · obtain ⟨more, extended⟩ := foldl_step_callbacks next c
      -- What is reported stays reported.
      exact .inr ⟨u, rest ++ more, part.trans ⟨c, rfl⟩, by simp [← extended, reported]⟩

end Execution

/-! ## What is reported on a buffer -/

/-- The main loop over a buffer, without the end of the buffer. -/
def scan (data : Bytes) : Execution :=
  data.foldl Execution.step { parser := httpParserInit }

/-- The callbacks that `http_parser_execute` makes on a fresh parser. -/
def report (data : Bytes) : List Callback := (httpParserExecute httpParserInit data).callbacks

theorem scan_append (b c : Bytes) : scan (b ++ c) = c.foldl Execution.step (scan b) :=
  List.foldl_append

theorem scan_sound (b : Bytes) : (scan b).Sound := by
  have start : Execution.Fits { parser := httpParserInit } :=
    Execution.Fits.idle (s := .startReq) rfl (by decide) rfl rfl trivial
  exact Execution.foldl_step_sound ⟨fun _ => start, trivial⟩ b

theorem scan_callbacks (b c : Bytes) : (scan b).callbacks <+: (scan (b ++ c)).callbacks := by
  rw [scan_append]
  exact Execution.foldl_step_callbacks (scan_sound b) c

/-- The end of the buffer reports the text that is open, or nothing. -/
theorem finish_callbacks (e : Execution) :
    (e.finish.callbacks = e.callbacks ∧
      (e.returned = true ∨ e.marked = none ∨ e.finish.parser.httpErrno ≠ .ok)) ∨
    ∃ m t, e.returned = false ∧ e.marked = some (m, t) ∧
      e.finish.callbacks = e.callbacks ++ [m.callback t] := by
  by_cases returned : e.returned = true
  · exact .inl ⟨by simp [Execution.finish, returned], .inl returned⟩
  · simp only [Bool.not_eq_true] at returned
    cases hm : e.marked with
    | none =>
      refine .inl ⟨?_, .inr (.inl rfl)⟩
      cases hi : e.inner <;>
        simp only [Execution.finish, returned, hi, hm, Execution.countHeaderSize] <;>
        split_ifs <;> rfl
    | some mt =>
      cases hi : e.inner with
      | none =>
        exact .inr ⟨mt.1, mt.2, returned, rfl, by
          simp [Execution.finish, returned, hi, hm, Execution.callbackData]⟩
      | some i =>
        -- The inner loop is charged first; an overflow loses the text.
        simp only [Execution.finish, returned, hi, hm, Execution.countHeaderSize,
          Bool.false_eq_true, if_false]
        split_ifs
        · exact .inl ⟨rfl, .inr (.inr (by simp))⟩
        · exact .inr ⟨mt.1, mt.2, trivial, rfl, by simp [Execution.callbackData]⟩

theorem httpParserExecute_init (b : Bytes) :
    httpParserExecute httpParserInit b = (scan b).finish := by
  cases b with
  | nil => rfl
  | cons ch b => simp [httpParserExecute, httpParserInit, scan, initialMark]

theorem report_eq (b : Bytes) : report b = (scan b).finish.callbacks := by
  rw [report, httpParserExecute_init]

theorem report_fieldFirst (b : Bytes) : FieldFirst (report b) := by
  have sound := scan_sound b
  rw [report_eq]
  rcases finish_callbacks (scan b) with ⟨same, -⟩ | ⟨m, t, live, marked, reported⟩
  · exact same ▸ sound.fieldFirst
  · rw [reported, fieldFirst_append]
    refine ⟨sound.fieldFirst, ?_⟩
    cases m with
    | headerValue =>
      have fits := sound.fits live
      -- An open value stands in a state that waits for it.
      refine .inl (fits.named ?_)
      have state := fits.marked _ _ marked
      revert state
      cases (scan b).parser.state <;> simp [State.mark, State.named]
    | _ => exact .inr (by simp [Mark.callback, Callback.isField, Callback.isValue])

theorem scan_prefix_report (b c : Bytes) : (scan b).callbacks <+: report (b ++ c) := by
  refine (scan_callbacks b c).trans ?_
  rw [report_eq]
  rcases finish_callbacks (scan (b ++ c)) with ⟨same, -⟩ | ⟨m, t, -, -, reported⟩
  · exact same ▸ List.prefix_rfl
  · rw [reported]
    exact List.prefix_append ..

/-- What a buffer makes the parser report, a longer one makes it report too, except
for a last piece of text that the shorter buffer cuts: that one is reported in full,
or lost to an error that the bytes in between raise. -/
theorem report_append (b c : Bytes) :
    report b <+: report (b ++ c) ∨
      ∃ (calls : List Callback) (m : Mark) (t : Bytes), report b = calls ++ [m.callback t] ∧
        ((∃ u rest, u <+: c ∧ report (b ++ c) = calls ++ m.callback (t ++ u) :: rest) ∨
          (report (b ++ c) = calls ∧
            (httpParserExecute httpParserInit (b ++ c)).parser.httpErrno ≠ .ok)) := by
  rcases finish_callbacks (scan b) with ⟨same, -⟩ | ⟨m, t, live, marked, reported⟩
  · rw [report_eq b, same]
    exact .inl (scan_prefix_report b c)
  · refine .inr ⟨(scan b).callbacks, m, t, by rw [report_eq b, reported], ?_⟩
    -- `b` leaves a piece of text open; follow that piece through `c`.
    have later := Execution.foldl_step_continues (scan_sound b) live marked c
    rw [← scan_append] at later
    rw [httpParserExecute_init, report_eq (b ++ c)]
    rcases later with ⟨same, ⟨going, open_⟩ | ⟨returned, failed⟩⟩ | ⟨u, rest, part, reported'⟩
    · rcases finish_callbacks (scan (b ++ c)) with ⟨same', why⟩ | ⟨m', t', -, marked', reported'⟩
      · refine .inr ⟨same'.trans same, ?_⟩
        rcases why with returned | none | failed
        · simp [going] at returned
        · simp [open_] at none
        · exact failed
      · simp only [open_, Option.some.injEq, Prod.mk.injEq] at marked'
        obtain ⟨rfl, rfl⟩ := marked'
        -- The end of the longer buffer reports it with all of `c`.
        exact .inl ⟨c, [], List.prefix_rfl, by rw [reported', same]⟩
    · refine .inr ?_
      simp [Execution.finish, returned, same, failed]
    · obtain ⟨more, extended⟩ := scan_prefix_report (b ++ c) []
      rw [List.append_nil, report_eq] at extended
      exact .inl ⟨u, rest ++ more, part, by simp [← extended, reported']⟩

/-- Whether a callback hands over no text. -/
def Callback.isNotification : Callback → Bool
  | .onUrl _ | .onHeaderField _ | .onHeaderValue _ | .onBody _ => false
  | _ => true

theorem mem_scan_of_mem_report {b : Bytes} {call : Callback} (notification : call.isNotification)
    (h : call ∈ report b) : call ∈ (scan b).callbacks := by
  rw [report_eq] at h
  rcases finish_callbacks (scan b) with ⟨same, -⟩ | ⟨m, t, -, -, reported⟩
  · exact same ▸ h
  · rw [reported, List.mem_append, List.mem_singleton] at h
    rcases h with old | rfl
    · exact old
    · cases m <;> simp [Mark.callback, Callback.isNotification] at notification

/-- A notification is reported on every longer buffer as well. -/
theorem mem_report_append {b : Bytes} {call : Callback} (notification : call.isNotification)
    (h : call ∈ report b) (c : Bytes) : call ∈ report (b ++ c) :=
  (scan_prefix_report b c).subset (mem_scan_of_mem_report notification h)

end Viking.Http
