/-
# Counting along a head

The parser's content length at the end of a head is what the fields it has reported make of it,
over everything that it accepts as a head. `Counted` says what holds between two bytes, by the
state; `HeadStep` is what a byte can do in a head, with one lemma for each case of the main loop,
and a run is an induction over it.
-/

import Viking.Http.Lengths

namespace Viking.Http

open Execution

/-! ## Where a head is read -/

/-- The states of a head in which no field is being read. -/
def State.betweenFields : State → Bool
  | .reqMethod | .reqSpacesBeforeUrl | .reqSchema | .reqSchemaSlash | .reqSchemaSlashSlash
  | .reqServerStart | .reqServer | .reqServerWithAt | .reqPath | .reqQueryStringStart
  | .reqQueryString | .reqFragmentStart | .reqFragment | .reqHttpStart | .reqHttpH | .reqHttpHT
  | .reqHttpHTT | .reqHttpHTTP | .reqFirstHttpMajor | .reqHttpMajor | .reqFirstHttpMinor
  | .reqHttpMinor | .reqLineAlmostDone | .headerFieldStart | .headersAlmostDone => true
  | _ => false

/-- The states of a field before its value and after it. -/
def State.besideValue : State → Bool
  | .headerValueDiscardWs | .headerValueDiscardWsAlmostDone | .headerValueDiscardLws
  | .headerValueLws | .headerAlmostDone => true
  | _ => false

/-- The parser tells by its header state whether the current field is a content length. -/
def Knows (calls : List Callback) (p : HttpParser) : Prop :=
  p.headerState = .contentLength ↔ SameName (currentName calls) contentLengthField

/-- What has been counted when the execution stands in a head. -/
def Counted (e : Execution) : Prop :=
  let fields := fieldList [] e.callbacks
  match e.parser.state with
  -- the content length of the parser is not set yet
  | .startReq => e.callbacks = []
  | .headerField => Tallies fields e.parser.contentLength ∧
      ∃ name, e.marked = some (.headerField, name) ∧ name ≠ [] ∧ IsToken name ∧
        Matches (readName {} name) e.parser
  | .headerValue => (∀ i, e.inner = some i → i.searches = true → e.parser.headerState = .general) ∧
      ∃ value, e.marked = some (.headerValue, value) ∧
        Tallying fields (currentName e.callbacks) value e.parser.headerState e.parser.contentLength
  | s => if s.besideValue then Tallies fields e.parser.contentLength ∧ Knows e.callbacks e.parser
      else s.betweenFields = true ∧ Tallies fields e.parser.contentLength

/-- The calls that report the parts of a head. -/
def Callback.inHead : Callback → Bool
  | .onMessageBegin | .onUrl _ | .onHeaderField _ | .onHeaderValue _ => true
  | _ => false

/-- The end of the head has been reported. -/
def Complete (calls : List Callback) : Prop := ∃ call ∈ calls, call.inHead = false

instance : DecidablePred Complete := fun calls =>
  inferInstanceAs (Decidable (∃ call ∈ calls, call.inHead = false))

/-- The execution goes on in a head. -/
structure InHead (e : Execution) : Prop where
  live : e.returned = false
  incomplete : ¬ Complete e.callbacks
  ending : e.parser.flags.ending = (false, false)
  counted : Counted e

/-- An execution in the middle of a step, when what it has reported is counted. -/
structure Tallied (e : Execution) : Prop where
  live : e.returned = false
  incomplete : ¬ Complete e.callbacks
  ending : e.parser.flags.ending = (false, false)
  tallies : Tallies (fieldList [] e.callbacks) e.parser.contentLength

/-- The execution reads a name, of which `name` has come. -/
structure InName (e : Execution) (name : Bytes) : Prop where
  tallied : Tallied e
  state : e.parser.state = .headerField
  marked : e.marked = some (.headerField, name)
  nonempty : name ≠ []
  valid : IsToken name
  known : Matches (readName {} name) e.parser

/-- The execution reads a value, of which `value` has come. -/
structure InValue (e : Execution) (value : Bytes) : Prop where
  live : e.returned = false
  incomplete : ¬ Complete e.callbacks
  ending : e.parser.flags.ending = (false, false)
  state : e.parser.state = .headerValue
  marked : e.marked = some (.headerValue, value)
  tallying : Tallying (fieldList [] e.callbacks) (currentName e.callbacks) value
    e.parser.headerState e.parser.contentLength

/-- The execution is the one that the end of a head leads to. -/
structure HeadOver (x next : Execution) : Prop where
  tallied : Tallied x
  unmarked : x.marked = none
  outer : x.inner = none
  same : next = x.headersAlmostDone lf

/-- What the byte `c` can do in a head: read on, fail, or end the head. -/
inductive HeadStep (c : Byte) (next : Execution) : Prop
  | onward (head : InHead (next.advance c))
  | failed (returned : next.returned = true) (incomplete : ¬ Complete next.callbacks)
  | ended (x : Execution) (finished : HeadOver x next)

section Head

variable {e x : Execution} {c : Byte} {name value : Bytes}

theorem counted_betweenFields (state : e.parser.state.betweenFields = true) :
    Counted e ↔ Tallies (fieldList [] e.callbacks) e.parser.contentLength := by
  unfold Counted
  cases here : e.parser.state
  all_goals simp [here, State.betweenFields, State.besideValue] at state ⊢

theorem counted_besideValue (state : e.parser.state.besideValue = true) :
    Counted e ↔ Tallies (fieldList [] e.callbacks) e.parser.contentLength ∧
      Knows e.callbacks e.parser := by
  unfold Counted
  cases here : e.parser.state
  all_goals simp [here, State.besideValue] at state ⊢

theorem complete_snoc {call : Callback} (calls : List Callback) (other : call.inHead = true) :
    Complete (calls ++ [call]) ↔ Complete calls := by
  simp [Complete, or_and_right, exists_or, other]

/-! ## The request line -/

/-- What a byte of the request line can do: raise an error, or read on, and maybe report the
target. -/
def Along (e next : Execution) : Prop :=
  (next.returned = true ∧ next.callbacks = e.callbacks) ∨
    (next.returned = false ∧ next.parser.state.betweenFields = true ∧
      next.parser.flags = e.parser.flags ∧ next.parser.contentLength = e.parser.contentLength ∧
        (next.callbacks = e.callbacks ∨ ∃ text, next.callbacks = e.callbacks ++ [.onUrl text]))

theorem Along.outcome (h : Along e x) (head : InHead e)
    (state : e.parser.state.betweenFields = true) : HeadStep c x := by
  have tallies := (counted_betweenFields state).mp head.counted
  rcases h with ⟨returned, same⟩ | ⟨live, line, flags, length, reported⟩
  · exact .failed returned (same ▸ head.incomplete)
  · have fields : fieldList [] x.callbacks = fieldList [] e.callbacks := by
      rcases reported with same | ⟨text, same⟩
      · rw [same]
      · rw [same, fieldList_snoc _ rfl]
    have incomplete : ¬ Complete x.callbacks := by
      rcases reported with same | ⟨text, same⟩
      · rw [same]
        exact head.incomplete
      · rw [same, complete_snoc _ rfl]
        exact head.incomplete
    refine .onward ⟨live, incomplete, ?_, ?_⟩
    · show x.parser.flags.ending = (false, false)
      rw [flags]
      exact head.ending
    · have line : (x.advance c).parser.state.betweenFields = true := line
      refine (counted_betweenFields line).mpr ?_
      show Tallies (fieldList [] x.callbacks) x.parser.contentLength
      rw [fields, length]
      exact tallies

theorem Along.error {err : HttpErrno} (same : x.callbacks = e.callbacks) :
    Along e (x.error err) := .inl ⟨rfl, same⟩

/-- The byte changes the state of the parser, and what does not concern the framing. -/
theorem Along.onward (live : e.returned = false) (state : x.parser.state.betweenFields = true)
    (frame : x = { e with parser := x.parser, marked := x.marked })
    (flags : x.parser.flags = e.parser.flags)
    (length : x.parser.contentLength = e.parser.contentLength) : Along e x := by
  have returned : x.returned = e.returned := by rw [frame]
  have callbacks : x.callbacks = e.callbacks := by rw [frame]
  exact .inr ⟨returned.trans live, state, flags, length, .inl callbacks⟩

theorem betweenFields_of_url {s : State} (url : s.mark = some .url) : s.betweenFields = true := by
  cases s
  all_goals simp [State.mark] at url
  all_goals rfl

theorem urlChar_along (live : e.returned = false)
    (frame : x = { e with parser := x.parser, marked := x.marked })
    (flags : x.parser.flags = e.parser.flags)
    (length : x.parser.contentLength = e.parser.contentLength) : Along e (x.urlChar c) := by
  have callbacks : x.callbacks = e.callbacks := by rw [frame]
  simp only [urlChar]
  split_ifs with dead
  · exact .error callbacks
  · refine .onward live (betweenFields_of_url (parseUrlChar_mark dead).1) ?_ flags length
    simp only [updateState]
    rw [frame]

theorem callbackData_along (live : e.returned = false) (state : x.parser.state.betweenFields = true)
    (frame : x = { e with parser := x.parser }) (flags : x.parser.flags = e.parser.flags)
    (length : x.parser.contentLength = e.parser.contentLength) :
    Along e (x.callbackData .url) := by
  have callbacks : x.callbacks = e.callbacks := by rw [frame]
  have returned : x.returned = false := by
    rw [frame]
    exact live
  unfold callbackData
  split
  · split_ifs
    · exact .inr ⟨returned, state, flags, length, .inr ⟨_, congrArg (· ++ [_]) callbacks⟩⟩
    · exact .inr ⟨returned, state, flags, length, .inl callbacks⟩
  · exact .inr ⟨returned, state, flags, length, .inl callbacks⟩

theorem reqMethod_along (live : e.returned = false) (state : e.parser.state.betweenFields = true) :
    Along e (e.reqMethod c) := by
  simp only [reqMethod]
  split_ifs
  · exact .error rfl
  · exact .onward live rfl rfl rfl rfl
  · exact .onward live state rfl rfl rfl
  · split
    · exact .error rfl
    · exact .onward live state rfl rfl rfl

theorem reqSpacesBeforeUrl_along (live : e.returned = false)
    (state : e.parser.state.betweenFields = true) : Along e (e.reqSpacesBeforeUrl c) := by
  have marked : e.mark .url = { e with marked := (e.mark .url).marked } := mark_frame e .url
  simp only [reqSpacesBeforeUrl]
  rw [marked]
  split_ifs
  · exact .onward live state rfl rfl rfl
  · exact urlChar_along live rfl rfl rfl
  · exact urlChar_along live rfl rfl rfl

theorem reqSchema_along (live : e.returned = false) : Along e (e.reqSchema c) := by
  simp only [reqSchema]
  split_ifs
  · exact .error rfl
  · exact urlChar_along live rfl rfl rfl

theorem reqUrl_along (live : e.returned = false) : Along e (e.reqUrl c) := by
  simp only [reqUrl]
  split_ifs
  · exact callbackData_along live rfl rfl rfl rfl
  · exact callbackData_along live rfl rfl rfl rfl
  · exact callbackData_along live rfl rfl rfl rfl
  · exact urlChar_along live rfl rfl rfl

theorem expect_along {d : Byte} {s : State} (live : e.returned = false)
    (state : s.betweenFields = true) : Along e (e.expect c d s) := by
  simp only [expect]
  split_ifs
  · exact .error rfl
  · exact .onward live state rfl rfl rfl

theorem reqHttpStart_along (live : e.returned = false)
    (state : e.parser.state.betweenFields = true) : Along e (e.reqHttpStart c) := by
  simp only [reqHttpStart]
  split_ifs
  · exact .onward live rfl rfl rfl rfl
  · exact .onward live state rfl rfl rfl
  · exact .error rfl

theorem reqFirstHttpMajor_along (live : e.returned = false) : Along e (e.reqFirstHttpMajor c) := by
  simp only [reqFirstHttpMajor]
  split_ifs
  · exact .error rfl
  · exact .onward live rfl rfl rfl rfl

theorem reqHttpMajor_along (live : e.returned = false)
    (state : e.parser.state.betweenFields = true) : Along e (e.reqHttpMajor c) := by
  simp only [reqHttpMajor]
  split_ifs
  · exact .onward live rfl rfl rfl rfl
  · exact .error rfl
  · exact .error rfl
  · exact .onward live state rfl rfl rfl

theorem reqFirstHttpMinor_along (live : e.returned = false) : Along e (e.reqFirstHttpMinor c) := by
  simp only [reqFirstHttpMinor]
  split_ifs
  · exact .error rfl
  · exact .onward live rfl rfl rfl rfl

theorem reqHttpMinor_along (live : e.returned = false)
    (state : e.parser.state.betweenFields = true) : Along e (e.reqHttpMinor c) := by
  simp only [reqHttpMinor]
  split_ifs
  · exact .onward live rfl rfl rfl rfl
  · exact .onward live rfl rfl rfl rfl
  · exact .error rfl
  · exact .error rfl
  · exact .onward live state rfl rfl rfl

theorem reqLineAlmostDone_along (live : e.returned = false) : Along e (e.reqLineAlmostDone c) := by
  simp only [reqLineAlmostDone]
  split_ifs
  · exact .error rfl
  · exact .onward live rfl rfl rfl rfl

/-! ## The end of the head -/

theorem Tallied.error {err : HttpErrno} (h : Tallied x) : HeadStep c (x.error err) :=
  .failed rfl h.incomplete

/-- The byte leaves the execution between two fields. -/
theorem Tallied.onward (h : Tallied x) {s : State} (state : s.betweenFields = true) :
    HeadStep c (x.updateState s) := by
  refine .onward ⟨h.live, h.incomplete, h.ending, ?_⟩
  have line : ((x.updateState s).advance c).parser.state.betweenFields = true := state
  exact (counted_betweenFields line).mpr h.tallies

theorem headersAlmostDone_step (h : Tallied x) (unmarked : x.marked = none)
    (outer : x.inner = none) : HeadStep c (x.headersAlmostDone c) := by
  by_cases ends : c = lf
  · exact .ended x ⟨h, unmarked, outer, ends ▸ rfl⟩
  · rw [headersAlmostDone, if_pos ends]
    exact h.error

/-! ## The fields -/

/-- A line of the head begins. -/
theorem headerFieldStart_step (h : Tallied x) (unmarked : x.marked = none)
    (outer : x.inner = none) : HeadStep c (x.headerFieldStart c) := by
  simp only [headerFieldStart]
  split_ifs with _ _ valid
  · exact h.onward rfl
  · exact headersAlmostDone_step ⟨h.live, h.incomplete, h.ending, h.tallies⟩ unmarked outer
  · exact h.error
  · simp only [mark, unmarked]
    -- The byte is the first one of a name.
    refine .onward ⟨h.live, h.incomplete, h.ending, h.tallies, [c], rfl, by simp, ?_, rfl, rfl⟩
    rw [IsToken, List.forall_mem_singleton]
    exact valid

theorem headerField_token {i : Inner} (h : InName e name) (letter : token c ≠ 0) :
    HeadStep c { e with parser := headerFieldByte e.parser c, inner := some i } := by
  have frame := headerFieldByte_frame e.parser c
  have read : readName {} (name ++ [c]) = headerFieldByte (readName {} name) c := by
    have nonempty := h.nonempty
    cases name with
    | nil => exact absurd rfl nonempty
    | cons d name => exact List.foldl_append
  have longer : IsToken (name ++ [c]) := by
    rw [IsToken, List.forall_mem_append, List.forall_mem_singleton]
    exact ⟨h.valid, letter⟩
  refine .onward ⟨h.tallied.live, h.tallied.incomplete, ?_, ?_⟩
  · show (headerFieldByte e.parser c).flags.ending = (false, false)
    rw [frame]
    exact h.tallied.ending
  · unfold Counted
    have here : (headerFieldByte e.parser c).state = .headerField :=
      headerFieldByte_state.trans h.state
    simp only [advance, here]
    refine ⟨?_, name ++ [c], by rw [h.marked]; rfl, by simp, longer, ?_⟩
    · rw [frame]
      exact h.tallied.tallies
    · rw [read]
      exact headerFieldByte_matches h.known c

/-- A byte of a name, or the colon behind it. -/
theorem headerFieldLoop_step {read : ℕ} (h : InName e name) :
    HeadStep c (e.headerFieldLoop c read) := by
  have reads := h
  obtain ⟨tallied, -, marked, nonempty, valid, known⟩ := h
  simp only [headerFieldLoop, countHeaderSize]
  split_ifs with ended long colon
  · exact .failed rfl tallied.incomplete
  · simp only [callbackData, updateState, marked, if_true]
    have incomplete : ¬ Complete (e.callbacks ++ [.onHeaderField name]) := by
      rw [complete_snoc _ rfl]
      exact tallied.incomplete
    refine .onward ⟨tallied.live, incomplete, tallied.ending,
      (counted_besideValue rfl).mpr ⟨?_, ?_⟩⟩
    · show Tallies (fieldList [] (e.callbacks ++ [.onHeaderField name])) e.parser.contentLength
      rw [fieldList_snoc _ rfl]
      exact tallied.tallies
    · show Knows (e.callbacks ++ [.onHeaderField name]) e.parser
      rw [Knows, currentName_snoc_field, known.1]
      exact readName_contentLength_iff nonempty valid
  · exact .failed rfl tallied.incomplete
  · exact headerField_token reads ended

/-- The byte leaves the execution beside a value. -/
theorem Tallied.beside (h : Tallied x) (knows : Knows x.callbacks x.parser) {s : State}
    (state : s.besideValue = true) : HeadStep c (x.updateState s) := by
  refine .onward ⟨h.live, h.incomplete, h.ending, ?_⟩
  have line : ((x.updateState s).advance c).parser.state.besideValue = true := state
  exact (counted_besideValue line).mpr ⟨h.tallies, knows⟩

theorem expect_beside {d : Byte} {s : State} (h : Tallied e) (knows : Knows e.callbacks e.parser)
    (state : s.besideValue = true) : HeadStep c (e.expect c d s) := by
  simp only [expect]
  split_ifs
  · exact h.error
  · exact h.beside knows state

/-- The execution reads a value, outside the inner loops. -/
theorem Tallied.valuing {p : HttpParser} (h : Tallied x) (outer : x.inner = none)
    (state : p.state = .headerValue) (ending : p.flags.ending = (false, false))
    (tallying : Tallying (fieldList [] x.callbacks) (currentName x.callbacks) [c] p.headerState
      p.contentLength) :
    HeadStep c { x with parser := p, marked := some (.headerValue, []) } := by
  refine .onward ⟨h.live, h.incomplete, ending, ?_⟩
  unfold Counted
  simp only [advance, state]
  exact ⟨fun i inside => by simp [outer] at inside, [c], rfl, tallying⟩

/-- A value begins. -/
theorem headerValueStart_step (h : Tallied x) (outer : x.inner = none) (unmarked : x.marked = none)
    (knows : Knows x.callbacks x.parser) : HeadStep c (x.headerValueStart c) := by
  -- The value of another field is not for counting, whatever it is compared with.
  have other {s : HeaderState} (apart : x.parser.headerState ≠ .contentLength)
      (begun : s ≠ .contentLength) : Tallying (fieldList [] x.callbacks) (currentName x.callbacks)
        [c] s x.parser.contentLength :=
    .other (fun same => apart (knows.mpr same)) begun h.tallies
  simp only [headerValueStart, mark, unmarked]
  cases state : x.parser.headerState with
  | contentLength =>
    dsimp only
    split_ifs with num
    · exact .failed rfl h.incomplete
    · rw [Bool.not_eq_true, Bool.not_eq_false'] at num
      exact h.valuing outer rfl h.ending (.start h.tallies (knows.mp state) num)
  | transferEncoding | connection =>
    refine h.valuing outer rfl h.ending (other (by simp [state]) ?_)
    dsimp only
    split_ifs <;> decide
  | matchingConnectionTokenStart =>
    exact h.valuing outer rfl h.ending (other (by simp [state]) (by simp))
  | _ => exact h.valuing outer rfl h.ending (other (by simp [state]) (by simp))

/-- The end of the line reports the value. -/
theorem headerValueEnd_step {read : ℕ} (h : InValue e value) :
    HeadStep c (e.headerValueEnd c read) := by
  have reported : ¬ Complete (e.callbacks ++ [.onHeaderValue value]) := by
    rw [complete_snoc _ rfl]
    exact h.incomplete
  have tallies : Tallies (fieldList [] (e.callbacks ++ [.onHeaderValue value]))
      e.parser.contentLength := by
    rw [fieldList_snoc_value]
    exact h.tallying.done
  have knows : Knows (e.callbacks ++ [.onHeaderValue value]) e.parser := by
    rw [Knows, currentName_snoc_value]
    exact h.tallying.state_iff
  simp only [headerValueEnd, countHeaderSize, callbackData, updateState, h.marked, if_true]
  split_ifs with _ long long
  · exact .failed rfl reported
  · exact .onward ⟨h.live, reported, h.ending, (counted_besideValue rfl).mpr ⟨tallies, knows⟩⟩
  · exact .failed rfl h.incomplete
  · have tallied : Tallied { e with
        parser := { e.parser with
          state := .headerAlmostDone, nread := (e.parser.nread + read) % 2 ^ 32 }
        inner := none, marked := none
        callbacks := e.callbacks ++ [.onHeaderValue value] } :=
      ⟨h.live, reported, h.ending, tallies⟩
    exact expect_beside tallied knows rfl

/-- A byte that the value goes on with. -/
theorem headerValue_more {p : HttpParser} {i : Inner} (h : InValue e value)
    (state : p.state = .headerValue) (ending : p.flags.ending = e.parser.flags.ending)
    (searching : i.searches = true → p.headerState = .general)
    (tallying : Tallying (fieldList [] e.callbacks) (currentName e.callbacks) (value ++ [c])
      p.headerState p.contentLength) :
    HeadStep c { e with parser := p, inner := some i } := by
  refine .onward ⟨h.live, h.incomplete, ending.trans h.ending, ?_⟩
  unfold Counted
  simp only [advance, state]
  refine ⟨fun j inside => ?_, value ++ [c], by rw [h.marked]; rfl, tallying⟩
  obtain rfl := Option.some.inj inside
  exact searching

/-- A byte of a value that is not looked at. -/
theorem headerValue_skip {i : Inner} (h : InValue e value)
    (general : e.parser.headerState = .general) : HeadStep c { e with inner := some i } :=
  headerValue_more h h.state rfl (fun _ => general) (h.tallying.general general)

/-- A byte of a value, or the end of its line. -/
theorem headerValueLoop_step {read : ℕ} (h : InValue e value) :
    HeadStep c (e.headerValueLoop c read) := by
  simp only [headerValueLoop]
  split_ifs with _ general
  · exact headerValueEnd_step h
  · exact headerValue_skip h general
  · cases next : headerValueByte e.parser c with
    | none => exact .failed rfl h.incomplete
    | some p =>
      obtain ⟨more, same⟩ := headerValueByte_tallying h.tallying next
      exact headerValue_more h (headerValueByte_state h.state next) same
        (fun searches => by cases searches) more

/-- The search for the end of the line. -/
theorem searchLoop_step {read looked : ℕ} (h : InValue e value)
    (general : e.parser.headerState = .general) : HeadStep c (e.searchLoop c read looked) := by
  simp only [searchLoop]
  split_ifs
  · exact headerValue_skip h general
  · exact headerValueEnd_step h
  · exact headerValue_skip h general

theorem lineFlag_apart (p : HttpParser) : (lineFlag p).contentLength = p.contentLength ∧
    (lineFlag p).flags.ending = p.flags.ending := by
  unfold lineFlag connectionFlag
  cases p.headerState <;> exact ⟨rfl, rfl⟩

/-- A line is over, and what it meant is kept in flags. -/
theorem Tallied.lineFlag (h : Tallied x) (s : State) : Tallied { x with
    parser := { Execution.lineFlag x.parser with state := s } } := by
  obtain ⟨length, ending⟩ := lineFlag_apart x.parser
  refine ⟨h.live, h.incomplete, ending.trans h.ending, ?_⟩
  show Tallies (fieldList [] x.callbacks) (Execution.lineFlag x.parser).contentLength
  rw [length]
  exact h.tallies

theorem headerValueLws_step (h : Tallied e) (outer : e.inner = none) (unmarked : e.marked = none)
    (knows : Knows e.callbacks e.parser) : HeadStep c (e.headerValueLws c) := by
  simp only [headerValueLws]
  split_ifs
  · exact headerValueStart_step ⟨h.live, h.incomplete, h.ending, h.tallies⟩ outer unmarked knows
  · exact headerFieldStart_step (h.lineFlag .headerFieldStart) unmarked outer

theorem headerValueDiscardWs_step (h : Tallied e) (outer : e.inner = none)
    (unmarked : e.marked = none) (knows : Knows e.callbacks e.parser)
    (state : e.parser.state = .headerValueDiscardWs) : HeadStep c (e.headerValueDiscardWs c) := by
  simp only [headerValueDiscardWs]
  split_ifs
  · have same : e = e.updateState .headerValueDiscardWs := by
      rw [updateState, ← state]
    rw [same]
    exact h.beside knows rfl
  · exact h.beside knows rfl
  · exact h.beside knows rfl
  · exact headerValueStart_step h outer unmarked knows

theorem headerValueDiscardLws_step (h : Tallied e) (outer : e.inner = none)
    (unmarked : e.marked = none) (knows : Knows e.callbacks e.parser) :
    HeadStep c (e.headerValueDiscardLws c) := by
  simp only [headerValueDiscardLws]
  split_ifs
  · exact h.beside knows rfl
  · simp only [mark, unmarked, callbackData, updateState, if_true]
    obtain ⟨live, incomplete, ending, tallies⟩ := h.lineFlag .headerFieldStart
    refine headerFieldStart_step ⟨live, ?_, ending, ?_⟩ rfl outer
    · show ¬ Complete (e.callbacks ++ [.onHeaderValue []])
      rw [complete_snoc _ rfl]
      exact incomplete
    -- An empty value leaves the length as it is.
    · show Tallies (fieldList [] (e.callbacks ++ [.onHeaderValue []])) _
      rw [fieldList_snoc_value]
      exact tallies.snoc_other fun _ => rfl

theorem startReq_step (live : e.returned = false) (none : e.callbacks = [])
    (ending : e.parser.flags.ending = (false, false)) (state : e.parser.state = .startReq) :
    HeadStep c (e.startReq c) := by
  have incomplete : ¬ Complete e.callbacks := by simp [Complete, none]
  simp only [startReq]
  split_ifs
  · refine .onward ⟨live, incomplete, ending, ?_⟩
    unfold Counted
    simp only [advance, state]
    exact none
  · exact .failed rfl incomplete
  · split
    · exact .failed rfl incomplete
    · -- No field has been read and the parser knows of no length.
      have begun : e.callbacks ++ [.onMessageBegin] = [.onMessageBegin] := by rw [none]; rfl
      refine .onward ⟨live, ?_, rfl, (counted_betweenFields rfl).mpr ?_⟩
      · show ¬ Complete (e.callbacks ++ [.onMessageBegin])
        rw [begun]
        simp [Complete, Callback.inHead]
      · show Tallies (fieldList [] (e.callbacks ++ [.onMessageBegin])) ullongMax
        rw [begun]
        exact ⟨rfl, fun value mem => absurd mem List.not_mem_nil⟩

/-! ## Any byte of a head -/

theorem InHead.tallied (h : InHead e)
    (tallies : Tallies (fieldList [] e.callbacks) e.parser.contentLength) : Tallied e :=
  ⟨h.live, h.incomplete, h.ending, tallies⟩

theorem InHead.inName (h : InHead e) (state : e.parser.state = .headerField) :
    ∃ name, InName e name := by
  have counted := h.counted
  rw [Counted, state] at counted
  obtain ⟨tallies, name, marked, nonempty, valid, known⟩ := counted
  exact ⟨name, h.tallied tallies, state, marked, nonempty, valid, known⟩

theorem InHead.inValue (h : InHead e) (state : e.parser.state = .headerValue) :
    (∃ value, InValue e value) ∧
      ∀ i, e.inner = some i → i.searches = true → e.parser.headerState = .general := by
  have counted := h.counted
  rw [Counted, state] at counted
  obtain ⟨searching, value, marked, tallying⟩ := counted
  exact ⟨⟨value, h.live, h.incomplete, h.ending, state, marked, tallying⟩, searching⟩

/-- Each state of a head. -/
theorem dispatch_head (h : InHead e) (fits : e.Fits) (outer : e.inner = none) :
    HeadStep c (e.dispatch c) := by
  have counted := h.counted
  have unmarked := fun none : e.parser.state.mark = none => fits.unmarked none
  unfold dispatch
  cases state : e.parser.state
  all_goals dsimp only
  case startReq =>
    rw [Counted, state] at counted
    exact startReq_step h.live counted h.ending state
  case headerField =>
    obtain ⟨name, reads⟩ := h.inName state
    exact headerFieldLoop_step reads
  case headerValue =>
    obtain ⟨⟨value, reads⟩, -⟩ := h.inValue state
    exact headerValueLoop_step reads
  case headerFieldStart =>
    have tallies := (counted_betweenFields (state ▸ rfl)).mp counted
    exact headerFieldStart_step (h.tallied tallies) (unmarked (state ▸ rfl)) outer
  case headersAlmostDone =>
    have tallies := (counted_betweenFields (state ▸ rfl)).mp counted
    exact headersAlmostDone_step (h.tallied tallies) (unmarked (state ▸ rfl)) outer
  case headerValueDiscardWs =>
    obtain ⟨tallies, knows⟩ := (counted_besideValue (state ▸ rfl)).mp counted
    exact headerValueDiscardWs_step (h.tallied tallies) outer (unmarked (state ▸ rfl)) knows state
  case headerValueDiscardLws =>
    obtain ⟨tallies, knows⟩ := (counted_besideValue (state ▸ rfl)).mp counted
    exact headerValueDiscardLws_step (h.tallied tallies) outer (unmarked (state ▸ rfl)) knows
  case headerValueLws =>
    obtain ⟨tallies, knows⟩ := (counted_besideValue (state ▸ rfl)).mp counted
    exact headerValueLws_step (h.tallied tallies) outer (unmarked (state ▸ rfl)) knows
  case headerValueDiscardWsAlmostDone | headerAlmostDone =>
    obtain ⟨tallies, knows⟩ := (counted_besideValue (state ▸ rfl)).mp counted
    exact expect_beside (h.tallied tallies) knows rfl
  case reqMethod => exact (reqMethod_along h.live (state ▸ rfl)).outcome h (state ▸ rfl)
  case reqSpacesBeforeUrl =>
    exact (reqSpacesBeforeUrl_along h.live (state ▸ rfl)).outcome h (state ▸ rfl)
  case reqSchema | reqSchemaSlash | reqSchemaSlashSlash | reqServerStart =>
    exact (reqSchema_along h.live).outcome h (state ▸ rfl)
  case reqServer | reqServerWithAt | reqPath | reqQueryStringStart | reqQueryString
      | reqFragmentStart | reqFragment =>
    exact (reqUrl_along h.live).outcome h (state ▸ rfl)
  case reqHttpH | reqHttpHT | reqHttpHTT | reqHttpHTTP =>
    exact (expect_along h.live rfl).outcome h (state ▸ rfl)
  case reqHttpStart => exact (reqHttpStart_along h.live (state ▸ rfl)).outcome h (state ▸ rfl)
  case reqFirstHttpMajor => exact (reqFirstHttpMajor_along h.live).outcome h (state ▸ rfl)
  case reqHttpMajor => exact (reqHttpMajor_along h.live (state ▸ rfl)).outcome h (state ▸ rfl)
  case reqFirstHttpMinor => exact (reqFirstHttpMinor_along h.live).outcome h (state ▸ rfl)
  case reqHttpMinor => exact (reqHttpMinor_along h.live (state ▸ rfl)).outcome h (state ▸ rfl)
  case reqLineAlmostDone => exact (reqLineAlmostDone_along h.live).outcome h (state ▸ rfl)
  -- No other state belongs to a head.
  all_goals
    rw [Counted, state] at counted
    exact absurd counted.1 nofun

/-- Any byte, inside a loop or outside. -/
theorem consume_head_step (h : InHead e) (fits : e.Fits) : HeadStep c (e.consume c) := by
  unfold consume
  cases inside : e.inner with
  | some i =>
    have state := fits.inner i inside
    cases i with
    | headerField read =>
      obtain ⟨name, reads⟩ := h.inName state
      exact headerFieldLoop_step reads
    | headerValue read =>
      obtain ⟨⟨value, reads⟩, -⟩ := h.inValue state
      exact headerValueLoop_step reads
    | search read looked =>
      obtain ⟨⟨value, reads⟩, searching⟩ := h.inValue state
      exact searchLoop_step reads (searching _ inside rfl)
    | skip read =>
      obtain ⟨⟨value, reads⟩, searching⟩ := h.inValue state
      exact headerValue_skip reads (searching _ inside rfl)
  | none =>
    dsimp only
    split
    · -- The counter of bytes does not matter here.
      simp only [countHeaderSize]
      split_ifs
      · exact .failed rfl h.incomplete
      · refine dispatch_head ⟨h.live, h.incomplete, h.ending, h.counted⟩ ?_ inside
        exact ⟨fits.inner, fits.marked, fits.text, fits.named, fits.fieldFirst⟩
    · exact dispatch_head h fits inside

end Head

/-! ## The length of a whole head -/

/-- What follows the end of a head at once changes the state and the count only, and can only
report the end of the message. -/
theorem headersDone_frame (x : Execution) : (x.headersDone lf).parser =
    { x.parser with state := (x.headersDone lf).parser.state, nread := 0 } ∧
      (x.headersDone lf).marked = x.marked ∧
        ((x.headersDone lf).callbacks = x.callbacks ∨
          (x.headersDone lf).callbacks = x.callbacks ++ [.onMessageComplete]) := by
  simp only [headersDone]
  split_ifs
  · exact absurd rfl ‹lf ≠ lf›
  · exact ⟨rfl, rfl, .inr rfl⟩
  · exact ⟨rfl, rfl, .inr rfl⟩
  · exact ⟨rfl, rfl, .inl rfl⟩
  · exact ⟨rfl, rfl, .inr rfl⟩
  · exact ⟨rfl, rfl, .inl rfl⟩
  · exact ⟨rfl, rfl, .inr rfl⟩

/-- The execution of `case s_headers_done`, on the line feed that ended the head. -/
def headReported (x : Execution) : Execution :=
  { x with
    parser := { x.parser with
      state := .headersDone
      upgrade := (x.parser.flags.upgrade && x.parser.flags.connectionUpgrade) ||
        x.parser.method = HttpMethod.connect }
    callbacks := x.callbacks ++
      [.onHeadersComplete x.parser.httpMajor x.parser.httpMinor x.parser.method] }

section Over

variable {x next : Execution}

theorem HeadOver.eq (h : HeadOver x next) : next = (headReported x).headersDone lf := by
  have ending : x.parser.flags.trailing = false := congrArg Prod.fst h.tallied.ending
  rw [h.same, headersAlmostDone, if_neg (by simp), ending, if_neg (by simp)]
  rfl

/-- The head is reported, and its length stands. -/
theorem HeadOver.tallies (h : HeadOver x next) : Complete next.callbacks ∧
    Tallies (fieldList [] next.callbacks) next.parser.contentLength := by
  have fields : fieldList [] (headReported x).callbacks = fieldList [] x.callbacks :=
    fieldList_snoc _ rfl
  have complete : Complete (headReported x).callbacks :=
    ⟨_, List.mem_append_right _ (List.mem_singleton_self _), rfl⟩
  have tallies : Tallies (fieldList [] (headReported x).callbacks)
      (headReported x).parser.contentLength := by
    rw [fields]
    exact h.tallied.tallies
  rw [h.eq]
  obtain ⟨frame, -, after | after⟩ := headersDone_frame (headReported x)
  · rw [frame, after]
    exact ⟨complete, tallies⟩
  · rw [frame, after, fieldList_snoc _ rfl]
    obtain ⟨call, mem, outside⟩ := complete
    exact ⟨⟨call, List.mem_append_left _ mem, outside⟩, tallies⟩

end Over

/-- The bytes are a head as the parser accepts it: with the last one, it reports the end of it,
and there is no transfer coding. -/
structure AcceptedHead (head : Bytes) : Prop where
  ends : Complete (scan head).callbacks
  last : ¬ Complete (scan head.dropLast).callbacks
  plain : (scan head).parser.flags.chunked = false

/-- An execution after the byte `c`, which did `next`. -/
def past (next : Execution) (c : Byte) : Execution :=
  if next.returned then next else next.advance c

theorem step_head_step {e : Execution} {c : Byte} (h : InHead e) (sound : e.Sound) :
    InHead (e.step c) ∨ ((e.step c).returned = true ∧ ¬ Complete (e.step c).callbacks) ∨
      ∃ x next, HeadOver x next ∧ e.step c = past next c := by
  rw [step, if_neg (by simp [h.live])]
  dsimp only
  cases consume_head_step (c := c) h (sound.fits h.live) with
  | onward head =>
    have live : (e.consume c).returned = false := head.live
    rw [if_neg (by simp [live])]
    exact .inl head
  | failed returned incomplete =>
    rw [if_pos returned]
    exact .inr (.inl ⟨returned, incomplete⟩)
  | ended x finished => exact .inr (.inr ⟨x, e.consume c, finished, rfl⟩)

/-- The byte that ended the head does not change what was counted. -/
theorem HeadOver.past {x next : Execution} (h : HeadOver x next) (c : Byte) :
    Complete (past next c).callbacks ∧
      Tallies (fieldList [] (past next c).callbacks) (past next c).parser.contentLength := by
  unfold Http.past
  split_ifs
  · exact h.tallies
  · exact h.tallies

/-- While no head is reported, one is being read, unless the parser has returned. -/
theorem inHead_scan {b : Bytes} (incomplete : ¬ Complete (scan b).callbacks) :
    (scan b).returned = true ∨ InHead (scan b) := by
  induction b using List.reverseRecOn with
  | nil => exact .inr ⟨rfl, incomplete, rfl, rfl⟩
  | append_singleton b c ih =>
    have stepped : scan (b ++ [c]) = (scan b).step c := scan_append b [c]
    have earlier : ¬ Complete (scan b).callbacks := by
      rintro ⟨call, mem, outside⟩
      exact incomplete ⟨call, (scan_callbacks b [c]).subset mem, outside⟩
    rw [stepped] at incomplete ⊢
    rcases ih earlier with returned | head
    · rw [step, if_pos returned]
      exact .inl returned
    · rcases step_head_step (c := c) head (scan_sound b) with
        head | ⟨returned, -⟩ | ⟨x, next, finished, same⟩
      · exact .inr head
      · exact .inl returned
      · rw [same] at incomplete
        exact absurd (finished.past c).1 incomplete

/-- The last byte of a head ends it. -/
theorem AcceptedHead.headOver {head : Bytes} (h : AcceptedHead head) :
    ∃ x next c, HeadOver x next ∧ scan head = past next c := by
  have nonempty : head ≠ [] := by
    rintro rfl
    exact h.last h.ends
  have stepped : scan head = (scan head.dropLast).step (head.getLast nonempty) := by
    conv_lhs => rw [← List.dropLast_append_getLast nonempty]
    exact scan_append head.dropLast [head.getLast nonempty]
  have ends := h.ends
  rw [stepped] at ends ⊢
  rcases inHead_scan h.last with returned | going
  · rw [step, if_pos returned] at ends
    exact absurd ends h.last
  · rcases step_head_step (c := head.getLast nonempty) going (scan_sound _) with
      onward | ⟨-, incomplete⟩ | ⟨x, next, finished, same⟩
    · exact absurd ends onward.incomplete
    · exact absurd ends incomplete
    · exact ⟨x, next, _, finished, same⟩

/-- The parser's content length at the end of a head is what the fields of the head make of it. -/
theorem AcceptedHead.tallies {head : Bytes} (h : AcceptedHead head) :
    Tallies (fieldList [] (scan head).callbacks) (scan head).parser.contentLength := by
  obtain ⟨x, next, c, finished, same⟩ := h.headOver
  rw [same]
  exact (finished.past c).2

end Viking.Http
