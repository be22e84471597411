/-
# The order of the callbacks

A reader of the callbacks goes from phase to phase; `Phase.next` says which callback may come in
which phase, and `Phase.run` what several of them lead to. `feed_ordered` says that the parser keeps
to this order, over any number of calls and however the bytes are divided, and that it is between
two messages exactly when the reader is.

`State.phases` are the phases a reader can be in when the parser is in a state, where the text that
is open counts as handed over. Each case of the main loop is shown to go from phases of its state
to phases of the next one.
-/

import Viking.Http.Streaming

namespace Viking.Http

open Texts

/-! ## The order -/

/-- Where a reader of the callbacks is. The fields of a message and those behind its last chunk,
its trailers, are told apart. -/
inductive Phase
  | idle
  | begun
  | lined
  | named (trailer : Bool)
  | valued (trailer : Bool)
  | headed
  | bodied
  | chunk
  | chunkBody
  | chunkEnd
  | trailed
  deriving DecidableEq, Repr

/-- The callbacks that may come in a phase. A text may come in several pieces. -/
def Phase.next : Phase → Callback → Option Phase
  | .idle, .onMessageBegin => some .begun
  | .begun, .onUrl _ | .lined, .onUrl _ => some .lined
  | .lined, .onHeaderField _ => some (.named false)
  | .chunk, .onHeaderField _ => some (.named true)
  | .named t, .onHeaderField _ | .valued t, .onHeaderField _ => some (.named t)
  | .named t, .onHeaderValue _ | .valued t, .onHeaderValue _ => some (.valued t)
  | .lined, .onHeadersComplete _ _ _ | .valued false, .onHeadersComplete _ _ _ => some .headed
  | .headed, .onBody _ | .bodied, .onBody _ => some .bodied
  | .headed, .onChunkHeader | .chunkEnd, .onChunkHeader => some .chunk
  | .chunk, .onBody _ | .chunkBody, .onBody _ => some .chunkBody
  | .chunkBody, .onChunkComplete => some .chunkEnd
  | .chunk, .onChunkComplete | .valued true, .onChunkComplete => some .trailed
  | .headed, .onMessageComplete | .bodied, .onMessageComplete
  | .trailed, .onMessageComplete => some .idle
  | _, _ => none

/-- The phase that the callbacks lead to. -/
def Phase.run (calls : List Callback) (phase : Phase) : Option Phase :=
  calls.foldlM Phase.next phase

/-- The phases in which a reader can be when the parser is in the state, with the text that is open
handed over. -/
def State.phases : State → Bool → List Phase
  | .dead, _ | .startReq, _ => [.idle]
  | .reqMethod, false | .reqSpacesBeforeUrl, false => [.begun]
  | .headerFieldStart, false | .headersAlmostDone, false => [.lined, .valued false]
  | .headerFieldStart, true | .headersAlmostDone, true => [.chunk, .valued true]
  | .headerField, t | .headerValueDiscardWs, t | .headerValueDiscardWsAlmostDone, t
  | .headerValueDiscardLws, t => [.named t]
  | .headerValueStart, t => [.named t, .valued t]
  | .headerValue, t | .headerValueLws, t | .headerAlmostDone, t => [.valued t]
  | .headersDone, _ => [.headed]
  | .chunkSizeStart, _ | .chunkSize, _ | .chunkParameters, _ | .chunkSizeAlmostDone, _ =>
    [.headed, .chunkEnd]
  | .chunkData, _ => [.chunk, .chunkBody]
  | .chunkDataAlmostDone, _ | .chunkDataDone, _ => [.chunkBody]
  | .bodyIdentity, _ => [.headed, .bodied]
  | .messageDone, _ => [.headed, .bodied, .trailed]
  -- a request has no body that goes on until the end of file
  | .bodyIdentityEof, _ => []
  | _, false => [.lined]
  -- the flag does not outlast its message
  | _, true => []

/-- From every phase of `s`, the callbacks lead to a phase of `s'`. -/
def State.leads (s : State) (t : Bool) (s' : State) (t' : Bool) (calls : List Callback) : Bool :=
  (s.phases t).all fun phase => (phase.run calls).any fun phase' => (s'.phases t').contains phase'

section Phases

variable {s s' : State} {t t' : Bool} {calls calls' : List Callback} {phase phase' : Phase}

theorem Phase.run_nil (phase : Phase) : phase.run [] = some phase := rfl

theorem Phase.run_append :
    phase.run (calls ++ calls') = (phase.run calls).bind (Phase.run calls') := by
  rw [run, List.foldlM_append]
  rfl

theorem Phase.run_singleton (call : Callback) : phase.run [call] = phase.next call := by
  rw [run, List.foldlM_cons]
  cases phase.next call <;> rfl

theorem Phase.run_concat {call : Callback} (h : phase.run calls = some phase') :
    phase.run (calls ++ [call]) = phase'.next call := by
  rw [run_append, h, Option.bind_some, run_singleton]

theorem Phase.run_of_append {last : Phase} (h : phase.run (calls ++ calls') = some last) :
    ∃ middle, phase.run calls = some middle ∧ middle.run calls' = some last := by
  rw [run_append] at h
  exact Option.bind_eq_some_iff.mp h

/-- What a text says does not matter. -/
theorem Phase.next_text (phase : Phase) (m : Mark) (text text' : Bytes) :
    phase.next (m.callback text) = phase.next (m.callback text') := by
  cases m <;> cases phase <;> rfl

/-- Where a piece of text has come, another one may come. -/
theorem Phase.next_again {m : Mark} {text text' : Bytes}
    (h : phase.next (m.callback text) = some phase') :
    phase'.next (m.callback text') = some phase' := by
  cases m <;> cases phase <;> cases h <;> rfl

theorem State.exists_of_leads (leads : s.leads t s' t' calls = true) (here : phase ∈ s.phases t) :
    ∃ phase', phase.run calls = some phase' ∧ phase' ∈ s'.phases t' := by
  have one := List.all_eq_true.mp leads phase here
  obtain ⟨phase', run, there⟩ := (Option.any_eq_true _ _).mp one
  exact ⟨phase', run, List.contains_iff_mem.mp there⟩

/-- The check for a step that leaves the flag as it is. -/
theorem State.leads_both (fields : s.leads false s' false calls = true)
    (trailers : s.leads true s' true calls = true) (t : Bool) :
    s.leads t s' t calls = true := by
  cases t with
  | false => exact fields
  | true => exact trailers

theorem State.leads_self (s : State) (t : Bool) : s.leads t s t [] = true := by
  refine List.all_eq_true.mpr fun phase here => ?_
  rw [Phase.run_nil, Option.any_some]
  exact List.contains_iff_mem.mpr here

theorem State.phases_url (url : s.mark = some .url) :
    s.phases t = if t then [] else [.lined] := by
  cases t <;> cases s <;> first | rfl | cases url

end Phases

/-! ## The executions -/

namespace Execution

/-- The callbacks, with one for the text that is open. -/
def told (e : Execution) : List Callback :=
  e.callbacks ++ (e.marked.map fun (m, text) => m.callback text).toList

/-- A reader whom `next` tells what comes in `calls` after what `e` tells. -/
def Adds (e next : Execution) (calls : List Callback) : Prop :=
  ∀ start phase phase', Phase.run e.told start = some phase → phase.run calls = some phase' →
    Phase.run next.told start = some phase'

variable {e x y : Execution} {calls calls' : List Callback}

theorem told_of_unmarked (unmarked : e.marked = none) : e.told = e.callbacks := by
  rw [told, unmarked]
  exact List.append_nil _

theorem told_of_marked {m : Mark} {text : Bytes} (marked : e.marked = some (m, text)) :
    e.told = e.callbacks ++ [m.callback text] := by
  rw [told, marked]
  rfl

theorem told_callbackData (m : Mark) : (e.callbackData m).told = e.told := by
  unfold callbackData
  cases marked : e.marked with
  | none => rfl
  | some text =>
    dsimp only
    split_ifs with same
    · rw [told_of_marked marked, told_of_unmarked rfl, ← same]
      rfl
    · rfl

theorem Adds.of_told (same : x.told = e.told) : Adds e x [] := by
  intro start phase phase' run step
  rw [same, run]
  exact step

theorem Adds.trans (first : Adds e x calls) (second : Adds x y calls') :
    Adds e y (calls ++ calls') := by
  intro start phase phase' run steps
  obtain ⟨middle, step, step'⟩ := Phase.run_of_append steps
  exact second start middle phase' (first start phase middle run step) step'

theorem Adds.notify (unmarked : e.marked = none) (call : Callback) :
    Adds e (e.notify call) [call] := by
  intro start phase phase' run step
  rw [told_of_unmarked unmarked] at run
  rw [told_of_unmarked (e := e.notify call) unmarked, notify_callbacks, Phase.run_concat run,
    ← Phase.run_singleton, step]

theorem Adds.mark (m : Mark) (only : ∀ m' text, e.marked = some (m', text) → m' = m) :
    Adds e (e.mark m) [m.callback []] := by
  intro start phase phase' run step
  rw [Phase.run_singleton] at step
  cases marked : e.marked with
  | none =>
    have opened : (e.mark m).marked = some (m, []) := by rw [Execution.mark, marked]
    have calls : (e.mark m).callbacks = e.callbacks := by rw [Execution.mark, marked]
    rw [told_of_unmarked marked] at run
    rw [told_of_marked opened, calls, Phase.run_concat run, step]
  | some text =>
    obtain ⟨m', text⟩ := text
    have same : e.mark m = e := by rw [Execution.mark, marked]
    obtain rfl := only m' text marked
    rw [same, run]
    rw [told_of_marked marked] at run
    obtain ⟨before, -, last⟩ := Phase.run_of_append run
    rw [Phase.run_singleton] at last
    rw [← step, Phase.next_again last]

/-- The byte that is read belongs to the text that is open. -/
theorem Adds.extend (ch : Byte) :
    Adds e { e with marked := e.marked.map fun (m, text) => (m, text ++ [ch]) } [] := by
  intro start phase phase' run step
  rw [Phase.run_nil, Option.some_inj] at step
  subst step
  cases marked : e.marked with
  | none =>
    rw [told_of_unmarked marked] at run
    rw [told_of_unmarked rfl]
    exact run
  | some text =>
    obtain ⟨m, text⟩ := text
    rw [told_of_marked marked] at run
    obtain ⟨before, run, last⟩ := Phase.run_of_append run
    rw [told_of_marked rfl, Phase.run_concat run, Phase.next_text before m _ text,
      ← Phase.run_singleton, last]

end Execution

/-! ## Executions that keep to the order -/

/-- The execution goes on, and `start` is where the reader was when it began. -/
structure Ordered (start : Phase) (e : Execution) : Prop where
  live : e.returned = false
  errno : e.parser.httpErrno = .ok
  inner : ∀ i, e.inner = some i → e.parser.state = i.state
  marked : ∀ m text, e.marked = some (m, text) → e.parser.state.mark = some m
  phase : ∃ phase, start.run e.told = some phase ∧
    phase ∈ e.parser.state.phases e.parser.flags.trailing

/-- The execution has ended. -/
structure Closed (start : Phase) (e : Execution) : Prop where
  returned : e.returned = true
  phase : ∃ phase, start.run e.callbacks = some phase ∧
    (e.parser.httpErrno = .ok → phase ∈ e.parser.state.phases e.parser.flags.trailing)

/-- The execution keeps to the order. -/
def Orderly (start : Phase) (e : Execution) : Prop := Ordered start e ∨ Closed start e

/-- The execution stands in a state, outside of the inner loops. -/
structure Rests (start : Phase) (s : State) (e : Execution) : Prop where
  ordered : Ordered start e
  outer : e.inner = none
  state : e.parser.state = s

section Steps

variable {start : Phase} {s z : State} {e x next : Execution} {calls : List Callback} (ch : Byte)

open Execution

theorem Ordered.callbacks (h : Ordered start e) : ∃ phase, start.run e.callbacks = some phase := by
  obtain ⟨phase, run, -⟩ := h.phase
  obtain ⟨middle, run, -⟩ := Phase.run_of_append run
  exact ⟨middle, run⟩

theorem Ordered.error {err : HttpErrno} (h : Ordered start e) (calls : x.callbacks = e.callbacks)
    (failed : (err != .ok) = true) : Orderly start (x.error err) := by
  obtain ⟨phase, run⟩ := h.callbacks
  refine .inr ⟨rfl, phase, ?_, fun ok => ?_⟩
  · rw [error_callbacks, calls]
    exact run
  · exact absurd ok (bne_iff_ne.mp failed)

theorem Ordered.leads (h : Ordered start e) (adds : Adds e next calls)
    (check : e.parser.state.leads e.parser.flags.trailing next.parser.state
      next.parser.flags.trailing calls = true) :
    ∃ phase, start.run next.told = some phase ∧
      phase ∈ next.parser.state.phases next.parser.flags.trailing := by
  obtain ⟨phase, run, here⟩ := h.phase
  obtain ⟨phase', steps, there⟩ := State.exists_of_leads check here
  exact ⟨phase', adds start phase phase' run steps, there⟩

namespace Rests

theorem error {err : HttpErrno} (h : Rests start s e) (calls : x.callbacks = e.callbacks)
    (failed : (err != .ok) = true) : Orderly start (x.error err) :=
  h.ordered.error calls failed

theorem unmarked (h : Rests start s e) (none : s.mark = none) : e.marked = Option.none := by
  cases marked : e.marked with
  | none => rfl
  | some text =>
    have mark := h.ordered.marked text.1 text.2 marked
    rw [h.state, none] at mark
    cases mark

theorem only (h : Rests start s e) {m : Mark} (mark : s.mark = none ∨ s.mark = some m) (m' : Mark)
    (text : Bytes) (marked : e.marked = some (m', text)) : m' = m := by
  have own := h.ordered.marked m' text marked
  rw [h.state] at own
  rcases mark with none | some
  · rw [none] at own
    cases own
  · rw [some] at own
    exact (Option.some_inj.mp own).symm

/-- A step to another state, with `calls`. -/
theorem goes (h : Rests start s e) (adds : Adds e next calls) (live : next.returned = false)
    (outer : next.inner = none) (errno : next.parser.httpErrno = .ok)
    (state : next.parser.state = z)
    (marked : ∀ m text, next.marked = some (m, text) → z.mark = some m)
    (check : s.leads e.parser.flags.trailing z next.parser.flags.trailing calls = true) :
    Rests start z next where
  ordered := {
    live := live
    errno := errno
    inner := fun i inside => by
      rw [outer] at inside
      cases inside
    marked := by
      rw [state]
      exact marked
    phase := by
      refine h.ordered.leads adds ?_
      rw [h.state, state]
      exact check }
  outer := outer
  state := state

/-- A new parser, in a state with the same mark. -/
theorem setParser {p : HttpParser} (h : Rests start s e) (state : p.state = z)
    (errno : p.httpErrno = e.parser.httpErrno) (mark : s.mark = none ∨ z.mark = s.mark)
    (check : s.leads e.parser.flags.trailing z p.flags.trailing [] = true) :
    Rests start z { e with parser := p } := by
  refine h.goes (.of_told rfl) h.ordered.live h.outer (errno.trans h.ordered.errno) state ?_ check
  intro m text marked
  rcases mark with none | same
  · rw [h.unmarked none] at marked
    cases marked
  · rw [same, ← h.state]
    exact h.ordered.marked m text marked

/-- The parser stays in its state. -/
theorem stay {p : HttpParser} (h : Rests start s e) (state : p.state = e.parser.state)
    (errno : p.httpErrno = e.parser.httpErrno)
    (flag : p.flags.trailing = e.parser.flags.trailing) :
    Rests start s { e with parser := p } where
  ordered := {
    live := h.ordered.live
    errno := errno.trans h.ordered.errno
    inner := fun i inside => state.trans (h.ordered.inner i inside)
    marked := by
      rw [state]
      exact h.ordered.marked
    phase := by
      have phase := h.ordered.phase
      rw [← state, ← flag] at phase
      exact phase }
  outer := h.outer
  state := state.trans h.state

theorem leave (h : Rests start s e) (outer : e.inner = none) :
    Rests start s { e with inner := none } := by
  rw [← outer]
  exact h

theorem orderly (h : Rests start s e) : Orderly start e := .inl h.ordered

theorem updateState (h : Rests start s e) (mark : s.mark = none ∨ z.mark = s.mark)
    (check : ∀ t, s.leads t z t [] = true) : Rests start z (e.updateState z) :=
  h.setParser rfl rfl mark (check _)

/-- What is open is handed over, in a step to a state without a mark. -/
theorem handsOver {m : Mark} {p : HttpParser} (h : Rests start s e)
    (mark : s.mark = none ∨ s.mark = some m) (state : p.state = z)
    (errno : p.httpErrno = e.parser.httpErrno)
    (check : s.leads e.parser.flags.trailing z p.flags.trailing [] = true) :
    Rests start z (({ e with parser := p } : Execution).callbackData m) := by
  have closed : (({ e with parser := p } : Execution).callbackData m).marked = none := by
    unfold Execution.callbackData
    cases marked : e.marked with
    | none => rfl
    | some text =>
      dsimp only
      rw [if_pos (h.only mark text.1 text.2 marked)]
  have parser := parser_callbackData ({ e with parser := p } : Execution) m
  refine h.goes (.of_told (told_callbackData m)) ?_ ?_ ?_ ?_ ?_ ?_
  · rw [callbackData_returned]
    exact h.ordered.live
  · rw [callbackData_inner]
    exact h.outer
  · rw [parser]
    exact errno.trans h.ordered.errno
  · rw [parser]
    exact state
  · rw [closed]
    intro m text none
    cases none
  · rw [parser]
    exact check

/-- A text is opened, in a step to a state that has its mark. -/
theorem opens {m : Mark} {p : HttpParser} (h : Rests start s e)
    (mark : s.mark = none ∨ s.mark = some m) (state : p.state = z) (there : z.mark = some m)
    (errno : p.httpErrno = e.parser.httpErrno)
    (check : s.leads e.parser.flags.trailing z p.flags.trailing [m.callback []] = true) :
    Rests start z { e with parser := p, marked := (e.mark m).marked } := by
  have adds : Adds e { e with parser := p, marked := (e.mark m).marked } [m.callback []] := by
    have marks := Adds.mark m (h.only mark)
    rw [mark_frame] at marks
    exact marks
  refine h.goes adds h.ordered.live h.outer (errno.trans h.ordered.errno) state ?_ check
  intro m' text marked
  have same : m' = m := by
    dsimp only at marked
    unfold Execution.mark at marked
    cases own : e.marked with
    | none =>
      rw [own] at marked
      cases marked
      rfl
    | some text' =>
      rw [own] at marked
      exact h.only mark m' text (own.trans (own ▸ marked))
  rw [same, there]

/-! ## The request line -/

theorem startReq (h : Rests start .startReq e) : Orderly start (e.startReq ch) := by
  simp only [Execution.startReq]
  split_ifs
  · exact h.orderly
  · exact h.error rfl rfl
  · cases methodOfLetter ch with
    | none => exact h.error rfl rfl
    | some method =>
      have unmarked := h.unmarked rfl
      dsimp only
      refine Rests.orderly (h.goes (z := .reqMethod) (.notify unmarked .onMessageBegin)
        h.ordered.live h.outer h.ordered.errno rfl ?_ ?_)
      · intro m text marked
        rw [notify_marked, unmarked] at marked
        cases marked
      · cases e.parser.flags.trailing <;> rfl

theorem reqMethod (h : Rests start .reqMethod e) : Orderly start (e.reqMethod ch) := by
  simp only [Execution.reqMethod]
  split_ifs
  · exact h.error rfl rfl
  · exact orderly (h.setParser rfl rfl (.inl rfl) (State.leads_both rfl rfl _))
  · exact orderly (h.stay rfl rfl rfl)
  · cases switchMethod e.parser.method e.parser.index ch with
    | none => exact h.error rfl rfl
    | some method => exact orderly (h.stay rfl rfl rfl)

theorem urlChar (h : Rests start s e) (url : s.mark = some .url) :
    Orderly start (e.urlChar ch) := by
  simp only [Execution.urlChar]
  split_ifs with dead
  · exact h.error rfl rfl
  · have mark := (parseUrlChar_mark dead).1
    refine orderly (h.updateState (.inr (mark.trans url.symm)) fun t => ?_)
    rw [State.leads, State.phases_url url, State.phases_url mark]
    cases t <;> rfl

theorem reqSpacesBeforeUrl (h : Rests start .reqSpacesBeforeUrl e) :
    Orderly start (e.reqSpacesBeforeUrl ch) := by
  simp only [Execution.reqSpacesBeforeUrl]
  rw [mark_frame]
  split_ifs
  · exact h.orderly
  · refine urlChar ch (s := .reqServerStart) (h.opens (.inl rfl) rfl rfl rfl ?_) rfl
    exact State.leads_both rfl rfl _
  · simp only [Execution.urlChar]
    split_ifs with dead
    · exact h.error rfl rfl
    · have mark := (parseUrlChar_mark dead).1
      refine orderly (h.opens (.inl rfl) rfl mark rfl ?_)
      rw [State.leads, State.phases_url mark]
      cases e.parser.flags.trailing <;> rfl

theorem reqSchema (h : Rests start s e) (url : s.mark = some .url) :
    Orderly start (e.reqSchema ch) := by
  unfold Execution.reqSchema
  split_ifs
  · exact h.error rfl rfl
  · exact h.urlChar ch url

theorem reqUrl (h : Rests start s e) (url : s.mark = some .url) :
    Orderly start (e.reqUrl ch) := by
  have check {z : State} {t : Bool} (there : (z.phases false).contains .lined = true) :
      s.leads t z t [] = true := by
    rw [State.leads, State.phases_url url]
    cases t with
    | false =>
      rw [if_neg Bool.false_ne_true, List.all_cons, Phase.run_nil, Option.any_some, there]
      rfl
    | true => rfl
  simp only [Execution.reqUrl]
  split_ifs
  · exact orderly (h.handsOver (.inr url) rfl rfl (check rfl))
  · exact orderly (h.handsOver (.inr url) rfl rfl (check rfl))
  · exact orderly (h.handsOver (.inr url) rfl rfl (check rfl))
  · exact h.urlChar ch url

theorem reqHttpStart (h : Rests start .reqHttpStart e) : Orderly start (e.reqHttpStart ch) := by
  unfold Execution.reqHttpStart
  split_ifs
  · exact orderly (h.updateState (.inl rfl) (State.leads_both rfl rfl))
  · exact orderly h
  · exact h.error rfl rfl

theorem expect (h : Rests start s e) (expected : Byte) (mark : s.mark = none)
    (check : ∀ t, s.leads t z t [] = true) : Orderly start (e.expect ch expected z) := by
  unfold Execution.expect
  split_ifs
  · exact h.error rfl rfl
  · exact orderly (h.updateState (.inl mark) check)

theorem reqFirstHttpMajor (h : Rests start .reqFirstHttpMajor e) :
    Orderly start (e.reqFirstHttpMajor ch) := by
  simp only [Execution.reqFirstHttpMajor]
  split_ifs
  · exact h.error rfl rfl
  · exact orderly (h.setParser rfl rfl (.inl rfl) (State.leads_both rfl rfl _))

theorem reqHttpMajor (h : Rests start .reqHttpMajor e) : Orderly start (e.reqHttpMajor ch) := by
  simp only [Execution.reqHttpMajor]
  split_ifs
  · exact orderly (h.updateState (.inl rfl) (State.leads_both rfl rfl))
  · exact h.error rfl rfl
  · exact h.error rfl rfl
  · exact orderly (h.stay rfl rfl rfl)

theorem reqFirstHttpMinor (h : Rests start .reqFirstHttpMinor e) :
    Orderly start (e.reqFirstHttpMinor ch) := by
  simp only [Execution.reqFirstHttpMinor]
  split_ifs
  · exact h.error rfl rfl
  · exact orderly (h.setParser rfl rfl (.inl rfl) (State.leads_both rfl rfl _))

theorem reqHttpMinor (h : Rests start .reqHttpMinor e) : Orderly start (e.reqHttpMinor ch) := by
  simp only [Execution.reqHttpMinor]
  split_ifs
  · exact orderly (h.updateState (.inl rfl) (State.leads_both rfl rfl))
  · exact orderly (h.updateState (.inl rfl) (State.leads_both rfl rfl))
  · exact h.error rfl rfl
  · exact h.error rfl rfl
  · exact orderly (h.stay rfl rfl rfl)

theorem reqLineAlmostDone (h : Rests start .reqLineAlmostDone e) :
    Orderly start (e.reqLineAlmostDone ch) := by
  unfold Execution.reqLineAlmostDone
  split_ifs
  · exact h.error rfl rfl
  · exact orderly (h.updateState (.inl rfl) (State.leads_both rfl rfl))

/-! ## The end of a message -/

/-- A callback that comes with a step between states without a mark. -/
theorem notifies {p : HttpParser} (h : Rests start s e) (call : Callback)
    (none : s.mark = none) (state : p.state = z) (errno : p.httpErrno = e.parser.httpErrno)
    (check : s.leads e.parser.flags.trailing z p.flags.trailing [call] = true) :
    Rests start z (({ e with parser := p } : Execution).notify call) := by
  have unmarked := h.unmarked none
  refine h.goes (.notify unmarked call) h.ordered.live h.outer (errno.trans h.ordered.errno) state
    ?_ check
  intro m text marked
  rw [notify_marked, unmarked] at marked
  cases marked

/-- The message is over, and the execution goes on or leaves the rest to the caller. -/
theorem completeMessage (h : Rests start s e) (none : s.mark = none)
    (check : ∀ t, s.leads t .startReq t [.onMessageComplete] = true) :
    Rests start (newMessage e.parser) e.completeMessage := by
  refine h.notifies .onMessageComplete none rfl rfl ?_
  unfold newMessage
  split_ifs
  · exact check _
  · exact check _

theorem returns (h : Rests start s e) (none : s.mark = none) : Closed start e.returnPast where
  returned := rfl
  phase := by
    obtain ⟨phase, run, here⟩ := h.ordered.phase
    rw [told_of_unmarked (h.unmarked none)] at run
    exact ⟨phase, run, fun _ => here⟩

theorem newMessage_mark (p : HttpParser) : (newMessage p).mark = none := by
  unfold newMessage
  split_ifs <;> rfl

theorem messageDone (h : Rests start s e) (none : s.mark = none)
    (check : ∀ t, s.leads t .startReq t [.onMessageComplete] = true) :
    Orderly start e.messageDone := by
  have done := h.completeMessage none check
  simp only [Execution.messageDone]
  split_ifs
  · exact .inr (done.returns (newMessage_mark _))
  · exact orderly done

theorem headersDone (h : Rests start .headersDone e) : Orderly start (e.headersDone ch) := by
  have fresh : Rests start .headersDone { e with parser := { e.parser with nread := 0 } } :=
    h.stay rfl rfl rfl
  have done := fresh.completeMessage rfl (State.leads_both rfl rfl)
  simp only [Execution.headersDone]
  split_ifs
  · exact h.error rfl rfl
  · exact .inr (done.returns (newMessage_mark _))
  · exact orderly done
  · exact orderly (fresh.updateState (.inl rfl) (State.leads_both rfl rfl))
  · exact orderly done
  · exact orderly (fresh.updateState (.inl rfl) (State.leads_both rfl rfl))
  · exact orderly done

theorem headersAlmostDone (h : Rests start .headersAlmostDone e) :
    Orderly start (e.headersAlmostDone ch) := by
  simp only [Execution.headersAlmostDone]
  split_ifs with _ trailing
  · exact h.error rfl rfl
  · refine messageDone (s := .messageDone) (h.notifies .onChunkComplete rfl rfl rfl ?_) rfl
      (State.leads_both rfl rfl)
    show State.leads _ e.parser.flags.trailing _ e.parser.flags.trailing _ = true
    rw [trailing]
    rfl
  · refine headersDone ch (h.notifies _ rfl rfl rfl ?_)
    show State.leads _ e.parser.flags.trailing _ e.parser.flags.trailing _ = true
    rw [Bool.not_eq_true] at trailing
    rw [trailing]
    rfl

/-! ## Header lines -/

theorem headerFieldStart (h : Rests start .headerFieldStart e) :
    Orderly start (e.headerFieldStart ch) := by
  have ends : Rests start .headersAlmostDone (e.updateState .headersAlmostDone) :=
    h.updateState (.inl rfl) (State.leads_both rfl rfl)
  simp only [Execution.headerFieldStart]
  rw [mark_frame]
  split_ifs
  · exact orderly ends
  · exact ends.headersAlmostDone ch
  · exact h.error rfl rfl
  · exact orderly (h.opens (.inl rfl) rfl rfl rfl (State.leads_both rfl rfl _))

theorem headerValueStart (h : Rests start s e) (none : s.mark = none)
    (check : ∀ t, s.leads t .headerValue t [.onHeaderValue []] = true) :
    Orderly start (e.headerValueStart ch) := by
  unfold Execution.headerValueStart
  rw [mark_frame]
  dsimp only
  cases e.parser.headerState with
  | contentLength =>
    dsimp only
    split_ifs
    · exact h.error rfl rfl
    · exact orderly (h.opens (.inl none) rfl rfl rfl (check _))
  | _ => exact orderly (h.opens (.inl none) rfl rfl rfl (check _))

theorem headerValueDiscardWs (h : Rests start .headerValueDiscardWs e) :
    Orderly start (e.headerValueDiscardWs ch) := by
  unfold Execution.headerValueDiscardWs
  split_ifs
  · exact orderly h
  · exact orderly (h.updateState (.inl rfl) (State.leads_both rfl rfl))
  · exact orderly (h.updateState (.inl rfl) (State.leads_both rfl rfl))
  · exact h.headerValueStart ch rfl (State.leads_both rfl rfl)

theorem lineFlag_trailing (p : HttpParser) :
    (lineFlag p).flags.trailing = p.flags.trailing := by
  unfold lineFlag connectionFlag
  cases p.headerState <;> rfl

theorem headerValueLws (h : Rests start .headerValueLws e) :
    Orderly start (e.headerValueLws ch) := by
  unfold Execution.headerValueLws
  split_ifs
  · refine headerValueStart ch (s := .headerValueStart) ?_ rfl (State.leads_both rfl rfl)
    exact h.updateState (.inl rfl) (State.leads_both rfl rfl)
  · refine headerFieldStart ch (h.setParser rfl ?_ (.inl rfl) ?_)
    · exact congrArg (·.httpErrno) (Beside.lineFlag_frame e.parser)
    · rw [show _ = e.parser.flags.trailing from lineFlag_trailing e.parser]
      exact State.leads_both rfl rfl _

theorem headerValueDiscardLws (h : Rests start .headerValueDiscardLws e) :
    Orderly start (e.headerValueDiscardLws ch) := by
  unfold Execution.headerValueDiscardLws
  split_ifs
  · exact orderly (h.updateState (.inl rfl) (State.leads_both rfl rfl))
  · have errno : (lineFlag e.parser).httpErrno = e.parser.httpErrno :=
      congrArg (·.httpErrno) (Beside.lineFlag_frame e.parser)
    have lined : Rests start .headerValueDiscardLws { e with parser := lineFlag e.parser } :=
      h.stay (congrArg (·.state) (Beside.lineFlag_frame e.parser)) errno (lineFlag_trailing _)
    rw [mark_frame]
    -- an empty value: the mark is set and cleared in one step
    have opened : Rests start .headerValue { e with
        parser := { lineFlag e.parser with state := .headerValue }
        marked := (({ e with parser := lineFlag e.parser } : Execution).mark
          .headerValue).marked } :=
      lined.opens (.inl rfl) rfl rfl rfl (State.leads_both rfl rfl _)
    exact headerFieldStart ch (opened.handsOver (p := { lineFlag e.parser with
      state := .headerFieldStart }) (.inr rfl) rfl rfl (State.leads_both rfl rfl _))

/-! ## The loops over names and values -/

/-- The bytes of a header are counted. -/
theorem counts (h : Rests start s e) (calls : x.callbacks = e.callbacks) (v : ℕ)
    {next : Execution → Execution}
    (goes : ∀ n, Orderly start (next { x with parser := { x.parser with nread := n } })) :
    Orderly start (x.countHeaderSize v next) := by
  simp only [countHeaderSize]
  split_ifs
  · exact h.error calls rfl
  · exact goes _

/-- The execution stays in an inner loop, or comes into it. -/
theorem loops {p : HttpParser} (i : Inner) (h : Rests start s { e with inner := none })
    (inside : i.state = s) (state : p.state = s) (errno : p.httpErrno = e.parser.httpErrno)
    (flag : p.flags.trailing = e.parser.flags.trailing) :
    Orderly start { e with parser := p, inner := some i } := by
  have stays : Rests start s { e with parser := p, inner := none } :=
    h.stay (state.trans h.state.symm) errno flag
  refine .inl ⟨stays.ordered.live, stays.ordered.errno, ?_, stays.ordered.marked,
    stays.ordered.phase⟩
  rintro j same
  cases same
  rw [inside]
  exact state

theorem headerFieldLoop (read : ℕ) (h : Rests start .headerField { e with inner := none }) :
    Orderly start (e.headerFieldLoop ch read) := by
  have frame := headerFieldByte_frame e.parser ch
  unfold Execution.headerFieldLoop
  split_ifs
  · refine h.counts rfl read fun n => ?_
    exact orderly (h.handsOver (.inr rfl) rfl rfl (State.leads_both rfl rfl _))
  · exact h.counts rfl read fun n => h.error rfl rfl
  · refine h.loops (.headerField (read + 1)) rfl ((congrArg (·.state) frame).trans h.state) ?_ ?_
    · exact congrArg (·.httpErrno) frame
    · exact congrArg (·.flags.trailing) frame

theorem headerValueEnd (read : ℕ) (h : Rests start .headerValue { e with inner := none }) :
    Orderly start (e.headerValueEnd ch read) := by
  have ends (n : ℕ) : Rests start .headerAlmostDone
      (Execution.callbackData { e with
        inner := none
        parser := { e.parser with state := .headerAlmostDone, nread := n } } .headerValue) :=
    h.handsOver (.inr rfl) rfl rfl (State.leads_both rfl rfl _)
  unfold Execution.headerValueEnd
  dsimp only
  split_ifs
  · have ended := ends e.parser.nread
    exact ended.counts rfl read fun n => orderly (ended.stay rfl rfl rfl)
  · refine h.counts ?_ read fun n => ?_
    · rfl
    · exact (ends n).expect ch lf rfl (State.leads_both rfl rfl)

theorem headerValueLoop (read : ℕ) (h : Rests start .headerValue { e with inner := none }) :
    Orderly start (e.headerValueLoop ch read) := by
  have here : e.parser.state = .headerValue := h.state
  unfold Execution.headerValueLoop
  split_ifs
  · exact h.headerValueEnd ch read
  · exact h.loops (.search (read + 1) 1) rfl here rfl rfl
  · cases byte : headerValueByte e.parser ch with
    | none => exact h.error rfl rfl
    | some p =>
      obtain ⟨errno, flag⟩ := headerValueByte_keeps ch byte
      exact h.loops (.headerValue (read + 1)) rfl (headerValueByte_state here byte) errno flag

theorem searchLoop (read looked : ℕ) (h : Rests start .headerValue { e with inner := none }) :
    Orderly start (e.searchLoop ch read looked) := by
  unfold Execution.searchLoop
  split_ifs
  · exact h.loops (.skip (read + 1)) rfl h.state rfl rfl
  · exact h.headerValueEnd ch read
  · exact h.loops (.search (read + 1) (looked + 1)) rfl h.state rfl rfl

/-! ## Bodies -/

/-- The text that is open has one byte more. -/
theorem extended (h : Rests start s e) :
    Rests start s { e with marked := e.marked.map fun (m, text) => (m, text ++ [ch]) } := by
  refine h.goes (.extend ch) h.ordered.live h.outer h.ordered.errno h.state ?_ ?_
  · intro m text marked
    obtain ⟨⟨m', text'⟩, own, same⟩ := Option.map_eq_some_iff.mp marked
    rw [← h.state]
    cases same
    exact h.ordered.marked m text' own
  · exact State.leads_self s _

theorem bodyIdentity (h : Rests start .bodyIdentity e) : Orderly start (e.bodyIdentity ch) := by
  simp only [Execution.bodyIdentity]
  rw [mark_frame]
  split_ifs
  · have opened : Rests start .bodyIdentity { e with
        parser := { e.parser with contentLength := e.parser.contentLength - 1 }
        marked := (e.mark .body).marked } :=
      h.opens (.inr rfl) h.state rfl rfl (State.leads_both rfl rfl _)
    refine messageDone (s := .messageDone) ?_ rfl (State.leads_both rfl rfl)
    exact (opened.extended ch).handsOver (.inr rfl) rfl rfl (State.leads_both rfl rfl _)
  · exact orderly (h.opens (.inr rfl) h.state rfl rfl (State.leads_both rfl rfl _))

theorem chunkSizeStart (h : Rests start .chunkSizeStart e) :
    Orderly start (e.chunkSizeStart ch) := by
  unfold Execution.chunkSizeStart
  cases unhex ch with
  | none => exact h.error rfl rfl
  | some v => exact orderly (h.setParser rfl rfl (.inl rfl) (State.leads_both rfl rfl _))

theorem chunkSize (h : Rests start .chunkSize e) : Orderly start (e.chunkSize ch) := by
  unfold Execution.chunkSize
  by_cases ended : ch = cr
  · rw [if_pos ended]
    exact orderly (h.updateState (.inl rfl) (State.leads_both rfl rfl))
  · rw [if_neg ended]
    cases unhex ch with
    | none =>
      dsimp only
      split_ifs
      · exact orderly (h.updateState (.inl rfl) (State.leads_both rfl rfl))
      · exact h.error rfl rfl
    | some v =>
      dsimp only
      split_ifs
      · exact h.error rfl rfl
      · exact orderly (h.stay rfl rfl rfl)

theorem chunkParameters (h : Rests start .chunkParameters e) :
    Orderly start (e.chunkParameters ch) := by
  unfold Execution.chunkParameters
  split_ifs
  · exact orderly (h.updateState (.inl rfl) (State.leads_both rfl rfl))
  · exact orderly h

theorem chunkSizeAlmostDone (h : Rests start .chunkSizeAlmostDone e) :
    Orderly start (e.chunkSizeAlmostDone ch) := by
  simp only [Execution.chunkSizeAlmostDone]
  split_ifs
  · exact h.error rfl rfl
  · exact orderly (h.notifies .onChunkHeader rfl rfl rfl (by cases e.parser.flags.trailing <;> rfl))
  · exact orderly (h.notifies .onChunkHeader rfl rfl rfl (State.leads_both rfl rfl _))

theorem chunkData (h : Rests start .chunkData e) : Orderly start e.chunkData := by
  simp only [Execution.chunkData]
  rw [mark_frame]
  split_ifs
  · exact orderly (h.opens (.inr rfl) rfl rfl rfl (State.leads_both rfl rfl _))
  · exact orderly (h.opens (.inr rfl) h.state rfl rfl (State.leads_both rfl rfl _))

theorem chunkDataAlmostDone (h : Rests start .chunkDataAlmostDone e) :
    Orderly start (e.chunkDataAlmostDone ch) := by
  unfold Execution.chunkDataAlmostDone
  split_ifs
  · exact h.error rfl rfl
  · exact orderly (h.handsOver (.inr rfl) rfl rfl (State.leads_both rfl rfl _))

theorem chunkDataDone (h : Rests start .chunkDataDone e) : Orderly start (e.chunkDataDone ch) := by
  unfold Execution.chunkDataDone
  split_ifs
  · exact h.error rfl rfl
  · exact orderly (h.notifies .onChunkComplete rfl rfl rfl (State.leads_both rfl rfl _))

/-! ## The main loop -/

theorem dispatch (h : Rests start s e) : Orderly start (e.dispatch ch) := by
  have state := h.state
  unfold Execution.dispatch
  cases s
  all_goals simp only [state]
  case dead =>
    split_ifs
    · exact orderly h
    · exact h.error rfl rfl
  case startReq => exact h.startReq ch
  case reqMethod => exact h.reqMethod ch
  case reqSpacesBeforeUrl => exact h.reqSpacesBeforeUrl ch
  case reqSchema | reqSchemaSlash | reqSchemaSlashSlash | reqServerStart => exact h.reqSchema ch rfl
  case reqServer | reqServerWithAt | reqPath | reqQueryStringStart | reqQueryString
      | reqFragmentStart | reqFragment =>
    exact h.reqUrl ch rfl
  case reqHttpStart => exact h.reqHttpStart ch
  case reqHttpH | reqHttpHT | reqHttpHTT | reqHttpHTTP | headerValueDiscardWsAlmostDone
      | headerAlmostDone =>
    exact h.expect ch _ rfl (State.leads_both rfl rfl)
  case reqFirstHttpMajor => exact h.reqFirstHttpMajor ch
  case reqHttpMajor => exact h.reqHttpMajor ch
  case reqFirstHttpMinor => exact h.reqFirstHttpMinor ch
  case reqHttpMinor => exact h.reqHttpMinor ch
  case reqLineAlmostDone => exact h.reqLineAlmostDone ch
  case headerFieldStart => exact h.headerFieldStart ch
  case headerField => exact headerFieldLoop ch 0 (h.leave h.outer)
  case headerValueDiscardWs => exact h.headerValueDiscardWs ch
  case headerValueDiscardLws => exact h.headerValueDiscardLws ch
  case headerValueStart => exact h.headerValueStart ch rfl (State.leads_both rfl rfl)
  case headerValue => exact headerValueLoop ch 0 (h.leave h.outer)
  case headerValueLws => exact h.headerValueLws ch
  case chunkSizeStart => exact h.chunkSizeStart ch
  case chunkSize => exact h.chunkSize ch
  case chunkParameters => exact h.chunkParameters ch
  case chunkSizeAlmostDone => exact h.chunkSizeAlmostDone ch
  case headersAlmostDone => exact h.headersAlmostDone ch
  case headersDone => exact h.headersDone ch
  case chunkData => exact h.chunkData
  case chunkDataAlmostDone => exact h.chunkDataAlmostDone ch
  case chunkDataDone => exact h.chunkDataDone ch
  case bodyIdentity => exact h.bodyIdentity ch
  case bodyIdentityEof =>
    obtain ⟨phase, -, nowhere⟩ := h.ordered.phase
    rw [state] at nowhere
    exact absurd nowhere List.not_mem_nil
  case messageDone => exact h.messageDone rfl (State.leads_both rfl rfl)

end Rests

/-- An inner loop is a place in its state. -/
theorem Ordered.inside (h : Ordered start e) {i : Inner} (inside : e.inner = some i) :
    Rests start i.state { e with inner := none } where
  ordered := {
    live := h.live
    errno := h.errno
    inner := fun j other => by cases other
    marked := h.marked
    phase := h.phase }
  outer := rfl
  state := h.inner i inside

theorem Ordered.consume (h : Ordered start e) : Orderly start (e.consume ch) := by
  unfold Execution.consume
  cases inside : e.inner with
  | some i =>
    have rests := h.inside inside
    cases i with
    | headerField read => exact rests.headerFieldLoop ch read
    | headerValue read => exact rests.headerValueLoop ch read
    | search read looked => exact rests.searchLoop ch read looked
    | skip read => exact rests.loops (.skip (read + 1)) rfl rests.state rfl rfl
  | none =>
    have rests : Rests start e.parser.state e := ⟨h, inside, rfl⟩
    dsimp only
    split_ifs
    · refine rests.counts rfl 1 fun n => ?_
      exact Rests.dispatch ch (rests.stay rfl rfl rfl)
    · exact rests.dispatch ch

theorem Ordered.advance (h : Ordered start e) : Ordered start (e.advance ch) := by
  obtain ⟨phase, run, here⟩ := h.phase
  have advanced : Adds e (e.advance ch) [] :=
    Adds.trans (.extend ch) (.of_told rfl)
  refine ⟨h.live, h.errno, h.inner, ?_, phase, ?_, here⟩
  · intro m text marked
    obtain ⟨⟨m', text'⟩, own, same⟩ := Option.map_eq_some_iff.mp marked
    cases same
    exact h.marked m text' own
  · exact advanced start phase phase run (Phase.run_nil phase)

theorem Orderly.step (h : Orderly start e) : Orderly start (e.step ch) := by
  rcases h with ordered | closed
  · unfold Execution.step
    rw [if_neg (by simp [ordered.live])]
    dsimp only
    rcases ordered.consume ch with ordered' | closed
    · rw [if_neg (by simp [ordered'.live])]
      exact .inl (ordered'.advance ch)
    · rw [if_pos closed.returned]
      exact .inr closed
  · rw [Execution.step, if_pos closed.returned]
    exact .inr closed

theorem Orderly.foldl_step (h : Orderly start e) (data : Bytes) :
    Orderly start (data.foldl Execution.step e) := by
  induction data generalizing e with
  | nil => exact h
  | cons ch data ih => exact ih (h.step ch)

/-! ## Buffers -/

/-- The end of a buffer leaves the parser where it is. -/
theorem finish_keeps (e : Execution) :
    e.finish.parser.state = e.parser.state ∧ e.finish.parser.flags = e.parser.flags := by
  unfold Execution.finish
  split_ifs
  · exact ⟨rfl, rfl⟩
  · cases e.inner with
    | none =>
      dsimp only
      cases e.marked with
      | none => exact ⟨rfl, rfl⟩
      | some text =>
        dsimp only
        rw [parser_callbackData]
        exact ⟨rfl, rfl⟩
    | some i =>
      simp only [countHeaderSize]
      split_ifs
      · exact ⟨rfl, rfl⟩
      · cases e.marked with
        | none => exact ⟨rfl, rfl⟩
        | some text =>
          dsimp only
          rw [parser_callbackData]
          exact ⟨rfl, rfl⟩

/-- The reader is where the parser is, unless that is in error. -/
def Phase.Fits (phase : Phase) (p : HttpParser) : Prop :=
  p.httpErrno = .ok → phase ∈ p.state.phases p.flags.trailing

theorem Orderly.finish (h : Orderly start e) :
    ∃ phase, start.run e.finish.callbacks = some phase ∧ phase.Fits e.finish.parser := by
  rcases h with ordered | closed
  · obtain ⟨state, flags⟩ := finish_keeps e
    obtain ⟨phase, run, here⟩ := ordered.phase
    rw [← state, ← flags] at here
    rcases finish_callbacks e with
      ⟨same, returned | unmarked | failed⟩ | ⟨m, text, -, marked, calls⟩
    · rw [ordered.live] at returned
      cases returned
    · rw [told_of_unmarked unmarked, ← same] at run
      exact ⟨phase, run, fun _ => here⟩
    · obtain ⟨phase, run⟩ := ordered.callbacks
      rw [← same] at run
      exact ⟨phase, run, fun ok => absurd ok failed⟩
    · rw [told_of_marked marked, ← calls] at run
      exact ⟨phase, run, fun _ => here⟩
  · rw [finish_returned closed.returned]
    exact closed.phase

theorem State.leads_initial (s : State) (t : Bool) :
    s.leads t s t ((initialMark s).map fun m => m.callback []).toList = true := by
  cases t <;> cases s <;> rfl

/-- The start of the next buffer: the text that goes on there has been handed over in part. -/
theorem Phase.Fits.resumes {phase : Phase} {p : HttpParser} (h : phase.Fits p)
    (ok : p.httpErrno = .ok) : Orderly phase (resume p) := by
  have told : (resume p).told = ((initialMark p.state).map fun m => m.callback []).toList := by
    show [] ++ (Option.map _ (Option.map _ (initialMark p.state))).toList = _
    rw [List.nil_append, Option.map_map]
    rfl
  obtain ⟨phase', run, here⟩ := State.exists_of_leads (State.leads_initial p.state _) (h ok)
  rw [← told] at run
  refine .inl ⟨rfl, ok, fun i inside => (by cases inside), ?_, phase', run, here⟩
  intro m text marked
  obtain ⟨m', initial, same⟩ := Option.map_eq_some_iff.mp marked
  cases same
  show p.state.mark = some m
  cases mark : p.state.mark with
  | none =>
    rw [initialMark_of_none mark] at initial
    cases initial
  | some m' =>
    rw [initialMark_of_mark mark] at initial
    split_ifs at initial
    exact initial

/-- One call. -/
theorem Phase.Fits.executes {phase : Phase} {p : HttpParser} (h : phase.Fits p) (data : Bytes) :
    ∃ phase', phase.run (httpParserExecute p data).callbacks = some phase' ∧
      phase'.Fits (httpParserExecute p data).parser := by
  unfold httpParserExecute
  split_ifs with failed empty
  · exact ⟨phase, rfl, h⟩
  · have here := h (not_not.mp failed)
    cases state : p.state with
    | bodyIdentityEof =>
      rw [state] at here
      exact absurd here List.not_mem_nil
    | dead | startReq => exact ⟨phase, rfl, h⟩
    | _ => exact ⟨phase, rfl, nofun⟩
  · exact ((h.resumes (not_not.mp failed)).foldl_step data).finish

theorem Phase.Fits.feeds {phase : Phase} {p : HttpParser} (h : phase.Fits p) (parts : List Bytes) :
    ∃ phase', phase.run (feed p parts).callbacks = some phase' ∧
      phase'.Fits (feed p parts).parser := by
  induction parts generalizing phase p with
  | nil => exact ⟨phase, rfl, h⟩
  | cons data rest ih =>
    obtain ⟨phase', run, fits⟩ := h.executes data
    rw [feed]
    dsimp only
    split_ifs
    · exact ⟨phase', run, fits⟩
    · obtain ⟨last, later, fits⟩ := ih fits
      refine ⟨last, ?_, fits⟩
      rw [Phase.run_append, run, Option.bind_some]
      exact later

end Steps

/-- The reader is between two messages where the parser is. -/
theorem State.idle_iff {s : State} {phase : Phase} {t : Bool} (here : phase ∈ s.phases t) :
    phase = .idle ↔ s.isLast = true := by
  have all : (s.phases t).all (fun phase => (phase == .idle) == s.isLast) = true := by
    cases t <;> cases s <;> rfl
  have same := eq_of_beq (List.all_eq_true.mp all phase here)
  rw [← same, beq_iff_eq]

/-- An empty buffer is the end of the file. -/
theorem endOfFile_iff {p : HttpParser} (ok : p.httpErrno = .ok)
    (request : p.state ≠ .bodyIdentityEof) :
    (httpParserExecute p []).parser.httpErrno = .ok ↔ p.state.isLast = true := by
  have wrong : HttpErrno.invalidEofState ≠ .ok := HttpErrno.noConfusion
  rw [httpParserExecute, if_neg (not_not.mpr ok), if_pos rfl]
  cases state : p.state with
  | dead | startReq => exact iff_of_true ok rfl
  | bodyIdentityEof => exact absurd state request
  | _ => exact iff_of_false wrong Bool.false_ne_true

/-- Whatever buffers the parser is called on, its callbacks come in order, and unless it is in
error, it takes the end of file exactly where the reader is between two messages. -/
theorem feed_ordered (parts : List Bytes) :
    let fed := feed httpParserInit parts
    ∃ phase, Phase.run fed.callbacks .idle = some phase ∧
      (fed.parser.httpErrno = .ok →
        ((httpParserExecute fed.parser []).parser.httpErrno = .ok ↔ phase = .idle)) := by
  have start : Phase.idle.Fits httpParserInit := fun _ => List.mem_singleton.mpr rfl
  obtain ⟨phase, run, fits⟩ := start.feeds parts
  refine ⟨phase, run, fun ok => ?_⟩
  have here := fits ok
  rw [State.idle_iff here]
  refine endOfFile_iff ok fun state => ?_
  rw [state] at here
  exact absurd here List.not_mem_nil

end Viking.Http
