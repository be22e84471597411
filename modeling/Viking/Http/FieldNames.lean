/-
# The case of field names

Two buffers that differ in the case of letters of field names are parsed in step: `Alike` relates
the two executions, which differ in the texts of names and in nothing else. How these texts differ
is left open. `T n` relates the names of the `n`-th field, and the names that are being read are
related by a `U` of their own, so that the same lemmas say which letters a parse can have read as
parts of names.

`FieldNames` is about the parser alone; what the server makes of the names is in `Casing`.
-/

import Viking.Http.ParserReports

namespace Viking.Http

/-! ## Letters -/

theorem forall_byte {P : Byte → Prop} (h : ∀ n < 256, P (UInt8.ofNat n)) (c : Byte) : P c := by
  have there := h c.toNat c.toNat_lt
  rwa [UInt8.ofNat_toNat] at there

theorem toUpper_toUpper (c : Byte) : toUpper (toUpper c) = toUpper c :=
  forall_byte (P := fun c => toUpper (toUpper c) = toUpper c) (by decide +kernel) c

theorem token_toUpper (c : Byte) : token (toUpper c) = token c :=
  forall_byte (P := fun c => token (toUpper c) = token c) (by decide +kernel) c

/-- A byte that may not stand in a token has no other case. -/
theorem eq_of_toUpper {c d : Byte} (same : toUpper d = toUpper c) (plain : token c = 0) :
    d = c := by
  have upper : ∀ c, token c = 0 → toUpper c = c :=
    forall_byte (P := fun c => token c = 0 → toUpper c = c) (by decide +kernel)
  have blank : token d = 0 := by rw [← token_toUpper d, same, token_toUpper, plain]
  rw [← upper d blank, same, upper c plain]

/-- The names differ in the case of letters at most. -/
def SameName (name name' : Bytes) : Prop := uppercase name' = uppercase name

instance : DecidableRel SameName := fun name name' =>
  inferInstanceAs (Decidable (uppercase name' = uppercase name))

theorem SameName.append {name name' : Bytes} {c c' : Byte} (h : SameName name name')
    (letter : toUpper c' = toUpper c) : SameName (name ++ [c]) (name' ++ [c']) := by
  simp only [SameName, uppercase, List.map_append] at h ⊢
  rw [h, List.map_singleton, List.map_singleton, letter]

/-- The next byte may be one of a field name. -/
def State.naming : State → Bool
  | .headerFieldStart | .headerField | .headerValueLws | .headerValueDiscardLws => true
  | _ => false

/-- From the execution on, the bytes differ in the case of letters of field names at most. -/
def RecasedFrom (e : Execution) : Bytes → Bytes → Prop
  | [], [] => True
  | c :: b, c' :: b' =>
    (c' = c ∨ e.returned = false ∧ e.parser.state.naming = true ∧ toUpper c' = toUpper c) ∧
      RecasedFrom (e.step c) b b'
  | _, _ => False

/-- The second buffer is the first one with other cases in its field names. -/
def Recased (b b' : Bytes) : Prop := RecasedFrom { parser := httpParserInit } b b'

instance decidableRecasedFrom : ∀ e b b', Decidable (RecasedFrom e b b')
  | _, [], [] => isTrue trivial
  | e, c :: b, c' :: b' =>
    have := decidableRecasedFrom (e.step c) b b'
    inferInstanceAs (Decidable ((c' = c ∨ e.returned = false ∧ e.parser.state.naming = true ∧
      toUpper c' = toUpper c) ∧ RecasedFrom (e.step c) b b'))
  | _, [], _ :: _ => isFalse fun impossible => impossible
  | _, _ :: _, [] => isFalse fun impossible => impossible

instance : DecidableRel Recased := fun b b' =>
  decidableRecasedFrom { parser := httpParserInit } b b'

section Recased

variable {e : Execution} {b b' d d' : Bytes}

theorem RecasedFrom.refl (e : Execution) (b : Bytes) : RecasedFrom e b b := by
  induction b generalizing e with
  | nil => trivial
  | cons c b ih => exact ⟨.inl rfl, ih (e.step c)⟩

theorem RecasedFrom.append_right (h : RecasedFrom e b b') (d : Bytes) :
    RecasedFrom e (b ++ d) (b' ++ d) := by
  induction b generalizing e b' with
  | nil =>
    cases b' with
    | nil => exact .refl e d
    | cons c' b' => exact h.elim
  | cons c b ih =>
    cases b' with
    | nil => exact h.elim
    | cons c' b' => exact ⟨h.1, ih h.2⟩

/-- What comes first does not depend on what follows. -/
theorem RecasedFrom.of_append (h : RecasedFrom e (b ++ d) (b' ++ d'))
    (length : b'.length = b.length) : RecasedFrom e b b' := by
  induction b generalizing e b' with
  | nil =>
    rw [List.eq_nil_of_length_eq_zero length]
    trivial
  | cons c b ih =>
    cases b' with
    | nil => cases length
    | cons c' b' => exact ⟨h.1, ih h.2 (Nat.succ.inj length)⟩

theorem RecasedFrom.length (h : RecasedFrom e b b') : b'.length = b.length := by
  induction b generalizing e b' with
  | nil =>
    cases b' with
    | nil => rfl
    | cons c' b' => exact h.elim
  | cons c b ih =>
    cases b' with
    | nil => exact h.elim
    | cons c' b' => exact congrArg (· + 1) (ih h.2)

end Recased

/-! ## Related executions -/

/-- The number of fields that are reported. -/
def fieldCount (calls : List Callback) : ℕ := calls.countP Callback.isField

/-- The callbacks are the same but for the names of the fields, and the `n`-th of these are
related by `T n`. -/
inductive CallsAlike (T : ℕ → Bytes → Bytes → Prop) : ℕ → List Callback → List Callback → Prop
  | nil (n : ℕ) : CallsAlike T n [] []
  | field {n : ℕ} {t t' : Bytes} {cs cs' : List Callback} : T n t t' → CallsAlike T (n + 1) cs cs' →
      CallsAlike T n (.onHeaderField t :: cs) (.onHeaderField t' :: cs')
  | other {n : ℕ} {c : Callback} {cs cs' : List Callback} : c.isField = false →
      CallsAlike T n cs cs' → CallsAlike T n (c :: cs) (c :: cs')

/-- The same mark is set, with texts that `U` relates if it is that of a name. -/
inductive MarkAlike (U : Bytes → Bytes → Prop) :
    Option (Mark × Bytes) → Option (Mark × Bytes) → Prop
  | none : MarkAlike U none none
  | name {t t' : Bytes} : U t t' → MarkAlike U (some (.headerField, t)) (some (.headerField, t'))
  | text {m : Mark} {t : Bytes} : m ≠ .headerField → MarkAlike U (some (m, t)) (some (m, t))

/-- The executions are the same but for names. -/
structure Alike (T : ℕ → Bytes → Bytes → Prop) (U : Bytes → Bytes → Prop)
    (e e' : Execution) : Prop where
  parser : e'.parser = e.parser
  inner : e'.inner = e.inner
  parsed : e'.parsed = e.parsed
  returned : e'.returned = e.returned
  marked : MarkAlike U e.marked e'.marked
  callbacks : CallsAlike T 0 e.callbacks e'.callbacks

section Calls

variable {T : ℕ → Bytes → Bytes → Prop} {U : Bytes → Bytes → Prop} {n : ℕ}
  {cs cs' ds ds' : List Callback} {c : Callback} {t t' : Bytes}

theorem CallsAlike.append (h : CallsAlike T n cs cs')
    (h' : CallsAlike T (n + fieldCount cs) ds ds') : CallsAlike T n (cs ++ ds) (cs' ++ ds') := by
  induction h with
  | nil n => exact h'
  | field related _ ih =>
    refine .field related (ih ?_)
    rw [fieldCount, List.countP_cons_of_pos rfl] at h'
    rwa [Nat.add_assoc, Nat.add_comm 1]
  | other plain _ ih =>
    refine .other plain (ih ?_)
    rwa [fieldCount, List.countP_cons_of_neg (by simp [plain])] at h'

theorem MarkAlike.mono {U U' : Bytes → Bytes → Prop} {x x' : Option (Mark × Bytes)}
    (h : MarkAlike U x x')
    (weaker : ∀ t t', x = some (.headerField, t) → U t t' → U' t t') : MarkAlike U' x x' := by
  cases h with
  | none => exact .none
  | name related => exact .name (weaker _ _ rfl related)
  | text other => exact .text other

end Calls

namespace Alike

variable {T : ℕ → Bytes → Bytes → Prop} {U : Bytes → Bytes → Prop} {e e' : Execution}

/-! ## The macros -/

theorem setParser (h : Alike T U e e') (parser : HttpParser) :
    Alike T U { e with parser := parser } { e' with parser := parser } :=
  ⟨rfl, h.inner, h.parsed, h.returned, h.marked, h.callbacks⟩

theorem setInner (h : Alike T U e e') (inner : Option Inner) :
    Alike T U { e with inner := inner } { e' with inner := inner } :=
  ⟨h.parser, rfl, h.parsed, h.returned, h.marked, h.callbacks⟩

theorem updateState (h : Alike T U e e') (s : State) :
    Alike T U (e.updateState s) (e'.updateState s) := by
  rw [Execution.updateState, Execution.updateState, h.parser]
  exact h.setParser _

theorem error (h : Alike T U e e') (err : HttpErrno) : Alike T U (e.error err) (e'.error err) := by
  rw [Execution.error, Execution.error, h.parser]
  exact ⟨rfl, h.inner, h.parsed, rfl, h.marked, h.callbacks⟩

theorem returnPast (h : Alike T U e e') : Alike T U e.returnPast e'.returnPast := by
  rw [Execution.returnPast, Execution.returnPast, h.parsed]
  exact ⟨h.parser, h.inner, rfl, rfl, h.marked, h.callbacks⟩

theorem notify (h : Alike T U e e') {call : Callback} (plain : call.isField = false) :
    Alike T U (e.notify call) (e'.notify call) :=
  ⟨h.parser, h.inner, h.parsed, h.returned, h.marked,
    h.callbacks.append (.other plain (.nil _))⟩

theorem marked_cases (h : Alike T U e e') :
    e.marked = none ∧ e'.marked = none ∨
      (∃ t t', U t t' ∧ e.marked = some (.headerField, t) ∧ e'.marked = some (.headerField, t')) ∨
        ∃ m t, m ≠ .headerField ∧ e.marked = some (m, t) ∧ e'.marked = some (m, t) := by
  have marked := h.marked
  generalize e.marked = x, e'.marked = x' at marked
  cases marked with
  | none => exact .inl ⟨rfl, rfl⟩
  | name related => exact .inr (.inl ⟨_, _, related, rfl, rfl⟩)
  | text other => exact .inr (.inr ⟨_, _, other, rfl, rfl⟩)

/-- To set a mark opens no name, unless it is that of a name. -/
theorem mark (h : Alike T U e e') {m : Mark} (opens : m = .headerField → U [] []) :
    Alike T U (e.mark m) (e'.mark m) := by
  rcases h.marked_cases with ⟨none, none'⟩ | ⟨t, t', -, name, name'⟩ | ⟨m', t, -, text, text'⟩
  · simp only [Execution.mark, none, none']
    refine ⟨h.parser, h.inner, h.parsed, h.returned, ?_, h.callbacks⟩
    by_cases field : m = .headerField
    · subst field
      exact .name (opens rfl)
    · exact .text field
  · simp only [Execution.mark, name, name']
    exact h
  · simp only [Execution.mark, text, text']
    exact h

/-- What is reported of a name is what was read of it. -/
theorem callbackData (h : Alike T U e e') {m : Mark}
    (closes : m = .headerField → ∀ t t', U t t' → T (fieldCount e.callbacks) t t') :
    Alike T U (e.callbackData m) (e'.callbackData m) := by
  rcases h.marked_cases with ⟨none, none'⟩ | ⟨t, t', related, name, name'⟩ |
    ⟨m', t, other, text, text'⟩
  · simp only [Execution.callbackData, none, none']
    exact h
  · simp only [Execution.callbackData, name, name']
    split_ifs with field
    · subst field
      refine ⟨h.parser, h.inner, h.parsed, h.returned, .none, h.callbacks.append ?_⟩
      rw [Nat.zero_add]
      exact .field (closes rfl t t' related) (.nil _)
    · exact h
  · simp only [Execution.callbackData, text, text']
    split_ifs with same
    · subst same
      have plain : (m'.callback t).isField = false := by
        cases m' with
        | headerField => exact absurd rfl other
        | headerValue | url | body => rfl
      exact ⟨h.parser, h.inner, h.parsed, h.returned, .none,
        h.callbacks.append (.other plain (.nil _))⟩
    · exact h

theorem callbackData_text (h : Alike T U e e') {m : Mark} (text : m ≠ .headerField) :
    Alike T U (e.callbackData m) (e'.callbackData m) :=
  h.callbackData fun field => absurd field text

theorem countHeaderSize (h : Alike T U e e') (v : ℕ) {next next' : Execution → Execution}
    (rest : ∀ nread, Alike T U
      (next { e with parser := { e.parser with nread := nread } })
      (next' { e' with parser := { e'.parser with nread := nread } })) :
    Alike T U (e.countHeaderSize v next) (e'.countHeaderSize v next') := by
  have counted := h.setParser { e.parser with nread := (e.parser.nread + v) % 2 ^ 32 }
  have same : e'.parser = e.parser := h.parser
  simp only [Execution.countHeaderSize, same]
  split_ifs
  · exact counted.error _
  · have next := rest ((e.parser.nread + v) % 2 ^ 32)
    rw [same] at next
    exact next

/-! ## Request line -/

section Line

variable (ch : Byte)

theorem startReq (h : Alike T U e e') : Alike T U (e.startReq ch) (e'.startReq ch) := by
  simp only [Execution.startReq, h.parser]
  split_ifs
  · exact h
  · exact (h.setParser _).error _
  · cases Execution.methodOfLetter ch with
    | none => exact (h.setParser _).error _
    | some m => exact (h.setParser _).notify rfl

theorem reqMethod (h : Alike T U e e') : Alike T U (e.reqMethod ch) (e'.reqMethod ch) := by
  simp only [Execution.reqMethod, h.parser]
  split_ifs
  · exact h.error _
  · exact h.setParser _
  · exact h.setParser _
  · cases Execution.switchMethod e.parser.method e.parser.index ch with
    | none => exact h.error _
    | some m => exact h.setParser _

theorem urlChar (h : Alike T U e e') : Alike T U (e.urlChar ch) (e'.urlChar ch) := by
  simp only [Execution.urlChar, h.parser]
  split_ifs
  · exact (h.updateState _).error _
  · exact h.updateState _

theorem reqSpacesBeforeUrl (h : Alike T U e e') :
    Alike T U (e.reqSpacesBeforeUrl ch) (e'.reqSpacesBeforeUrl ch) := by
  have marked := h.mark (m := .url) (by simp)
  simp only [Execution.reqSpacesBeforeUrl, marked.parser]
  split_ifs
  · exact h
  · exact (marked.updateState _).urlChar ch
  · exact marked.urlChar ch

theorem reqSchema (h : Alike T U e e') : Alike T U (e.reqSchema ch) (e'.reqSchema ch) := by
  unfold Execution.reqSchema
  split_ifs
  · exact h.error _
  · exact h.urlChar ch

theorem reqUrl (h : Alike T U e e') : Alike T U (e.reqUrl ch) (e'.reqUrl ch) := by
  simp only [Execution.reqUrl, h.parser]
  split_ifs
  · exact (h.updateState _).callbackData_text (by simp)
  · exact ((h.setParser _).updateState _).callbackData_text (by simp)
  · exact ((h.setParser _).updateState _).callbackData_text (by simp)
  · exact h.urlChar ch

theorem reqHttpStart (h : Alike T U e e') :
    Alike T U (e.reqHttpStart ch) (e'.reqHttpStart ch) := by
  unfold Execution.reqHttpStart
  split_ifs
  · exact h.updateState _
  · exact h
  · exact h.error _

theorem expect (h : Alike T U e e') (expected : Byte) (next : State) :
    Alike T U (e.expect ch expected next) (e'.expect ch expected next) := by
  unfold Execution.expect
  split_ifs
  · exact h.error _
  · exact h.updateState _

theorem reqFirstHttpMajor (h : Alike T U e e') :
    Alike T U (e.reqFirstHttpMajor ch) (e'.reqFirstHttpMajor ch) := by
  simp only [Execution.reqFirstHttpMajor, h.parser]
  split_ifs
  · exact h.error _
  · exact h.setParser _

theorem reqHttpMajor (h : Alike T U e e') :
    Alike T U (e.reqHttpMajor ch) (e'.reqHttpMajor ch) := by
  simp only [Execution.reqHttpMajor, h.parser]
  split_ifs
  · exact h.updateState _
  · exact h.error _
  · exact (h.setParser _).error _
  · exact h.setParser _

theorem reqFirstHttpMinor (h : Alike T U e e') :
    Alike T U (e.reqFirstHttpMinor ch) (e'.reqFirstHttpMinor ch) := by
  simp only [Execution.reqFirstHttpMinor, h.parser]
  split_ifs
  · exact h.error _
  · exact h.setParser _

theorem reqHttpMinor (h : Alike T U e e') :
    Alike T U (e.reqHttpMinor ch) (e'.reqHttpMinor ch) := by
  simp only [Execution.reqHttpMinor, h.parser]
  split_ifs
  · exact h.updateState _
  · exact h.updateState _
  · exact h.error _
  · exact (h.setParser _).error _
  · exact h.setParser _

theorem reqLineAlmostDone (h : Alike T U e e') :
    Alike T U (e.reqLineAlmostDone ch) (e'.reqLineAlmostDone ch) := by
  unfold Execution.reqLineAlmostDone
  split_ifs
  · exact h.error _
  · exact h.updateState _

end Line

/-! ## End of a message -/

section Message

variable (ch : Byte)

theorem completeMessage (h : Alike T U e e') :
    Alike T U e.completeMessage e'.completeMessage := by
  simp only [Execution.completeMessage, h.parser]
  exact (h.updateState _).notify rfl

theorem messageDone (h : Alike T U e e') : Alike T U e.messageDone e'.messageDone := by
  have done := h.completeMessage
  simp only [Execution.messageDone, done.parser]
  split_ifs
  · exact done.returnPast
  · exact done

theorem headersDone (h : Alike T U e e') : Alike T U (e.headersDone ch) (e'.headersDone ch) := by
  have counted := h.setParser { e.parser with nread := 0 }
  simp only [Execution.headersDone, h.parser]
  split_ifs
  · exact h.error _
  · exact counted.completeMessage.returnPast
  · exact counted.completeMessage
  · exact counted.updateState _
  · exact counted.completeMessage
  · exact counted.updateState _
  · exact counted.completeMessage

theorem headersAlmostDone (h : Alike T U e e') :
    Alike T U (e.headersAlmostDone ch) (e'.headersAlmostDone ch) := by
  simp only [Execution.headersAlmostDone, h.parser]
  split_ifs
  · exact h.error _
  · exact ((h.updateState _).notify rfl).messageDone
  · exact ((h.setParser _).notify rfl).headersDone ch

end Message

/-! ## Header lines -/

section Header

variable (ch : Byte)

theorem headerFieldStart (h : Alike T U e e') (opens : U [] []) :
    Alike T U (e.headerFieldStart ch) (e'.headerFieldStart ch) := by
  have marked := h.mark (m := .headerField) fun _ => opens
  simp only [Execution.headerFieldStart, marked.parser]
  split_ifs
  · exact h.updateState _
  · exact (h.updateState _).headersAlmostDone ch
  · exact h.error _
  · exact marked.setParser _

theorem headerFieldLoop (h : Alike T U e e') (read : ℕ)
    (closes : ∀ t t', U t t' → T (fieldCount e.callbacks) t t') :
    Alike T U (e.headerFieldLoop ch read) (e'.headerFieldLoop ch read) := by
  have outside := h.setInner none
  unfold Execution.headerFieldLoop
  split_ifs
  · refine outside.countHeaderSize read fun nread => ?_
    rw [h.parser]
    exact ((outside.setParser _).updateState _).callbackData fun _ => closes
  · refine outside.countHeaderSize read fun nread => ?_
    rw [h.parser]
    exact (outside.setParser _).error _
  · rw [h.parser]
    exact (h.setInner _).setParser _

theorem headerValueStart (h : Alike T U e e') :
    Alike T U (e.headerValueStart ch) (e'.headerValueStart ch) := by
  have marked := h.mark (m := .headerValue) (by simp)
  simp only [Execution.headerValueStart, marked.parser]
  split
  · exact marked.setParser _
  · exact marked.setParser _
  · split_ifs
    · exact (marked.setParser _).error _
    · exact marked.setParser _
  · exact marked.setParser _
  · exact marked.setParser _
  · exact marked.setParser _

theorem headerValueDiscardWs (h : Alike T U e e') :
    Alike T U (e.headerValueDiscardWs ch) (e'.headerValueDiscardWs ch) := by
  unfold Execution.headerValueDiscardWs
  split_ifs
  · exact h
  · exact h.updateState _
  · exact h.updateState _
  · exact h.headerValueStart ch

theorem headerValueEnd (h : Alike T U e e') (read : ℕ) :
    Alike T U (e.headerValueEnd ch read) (e'.headerValueEnd ch read) := by
  have ended := (h.setInner none).updateState .headerAlmostDone
  unfold Execution.headerValueEnd
  dsimp only
  split_ifs
  · have reported := ended.callbackData_text (m := .headerValue) (by simp)
    refine reported.countHeaderSize read fun nread => ?_
    rw [reported.parser]
    exact reported.setParser _
  · refine ended.countHeaderSize read fun nread => ?_
    rw [ended.parser]
    exact ((ended.setParser _).callbackData_text (by simp)).expect ch lf _

theorem headerValueLoop (h : Alike T U e e') (read : ℕ) :
    Alike T U (e.headerValueLoop ch read) (e'.headerValueLoop ch read) := by
  simp only [Execution.headerValueLoop, h.parser]
  split_ifs
  · exact h.headerValueEnd ch read
  · exact (h.setInner _).setParser _
  · cases Execution.headerValueByte e.parser ch with
    | none => exact h.error _
    | some parser => exact (h.setInner _).setParser _

theorem searchLoop (h : Alike T U e e') (read looked : ℕ) :
    Alike T U (e.searchLoop ch read looked) (e'.searchLoop ch read looked) := by
  unfold Execution.searchLoop
  split_ifs
  · exact h.setInner _
  · exact h.headerValueEnd ch read
  · exact h.setInner _

theorem headerValueLws (h : Alike T U e e') (opens : U [] []) :
    Alike T U (e.headerValueLws ch) (e'.headerValueLws ch) := by
  simp only [Execution.headerValueLws, h.parser]
  split_ifs
  · exact (h.updateState _).headerValueStart ch
  · exact ((h.setParser _).updateState _).headerFieldStart ch opens

theorem headerValueDiscardLws (h : Alike T U e e') (opens : U [] []) :
    Alike T U (e.headerValueDiscardLws ch) (e'.headerValueDiscardLws ch) := by
  simp only [Execution.headerValueDiscardLws, h.parser]
  split_ifs
  · exact h.updateState _
  · have marked := (h.setParser (Execution.lineFlag e.parser)).mark (m := .headerValue) (by simp)
    exact ((marked.updateState _).callbackData_text (by simp)).headerFieldStart ch opens

end Header

/-! ## Bodies -/

section Body

variable (ch : Byte)

theorem chunkSizeStart (h : Alike T U e e') :
    Alike T U (e.chunkSizeStart ch) (e'.chunkSizeStart ch) := by
  simp only [Execution.chunkSizeStart, h.parser]
  cases unhex ch with
  | none => exact h.error _
  | some v => exact h.setParser _

theorem chunkSize (h : Alike T U e e') : Alike T U (e.chunkSize ch) (e'.chunkSize ch) := by
  simp only [Execution.chunkSize, h.parser]
  split
  · exact h.updateState _
  · cases unhex ch with
    | none =>
      dsimp only
      split_ifs
      · exact h.updateState _
      · exact h.error _
    | some v =>
      dsimp only
      split_ifs
      · exact h.error _
      · exact h.setParser _

theorem chunkParameters (h : Alike T U e e') :
    Alike T U (e.chunkParameters ch) (e'.chunkParameters ch) := by
  unfold Execution.chunkParameters
  split_ifs
  · exact h.updateState _
  · exact h

theorem chunkSizeAlmostDone (h : Alike T U e e') :
    Alike T U (e.chunkSizeAlmostDone ch) (e'.chunkSizeAlmostDone ch) := by
  simp only [Execution.chunkSizeAlmostDone, h.parser]
  split_ifs
  · exact h.error _
  · exact (h.setParser _).notify rfl
  · exact (h.setParser _).notify rfl

theorem chunkData (h : Alike T U e e') : Alike T U e.chunkData e'.chunkData := by
  have marked := h.mark (m := .body) (by simp)
  simp only [Execution.chunkData, marked.parser]
  split_ifs
  · exact (marked.setParser _).updateState _
  · exact marked.setParser _

theorem chunkDataAlmostDone (h : Alike T U e e') :
    Alike T U (e.chunkDataAlmostDone ch) (e'.chunkDataAlmostDone ch) := by
  unfold Execution.chunkDataAlmostDone
  split_ifs
  · exact h.error _
  · exact (h.updateState _).callbackData_text (by simp)

theorem chunkDataDone (h : Alike T U e e') :
    Alike T U (e.chunkDataDone ch) (e'.chunkDataDone ch) := by
  simp only [Execution.chunkDataDone, h.parser]
  split_ifs
  · exact h.error _
  · exact ((h.setParser _).updateState _).notify rfl

/-- No name is being read when a body ends. -/
theorem mapMarked (h : Alike T U e e') {f : Mark × Bytes → Mark × Bytes}
    (kept : ∀ text, (f text).1 = text.1) (unnamed : ∀ t, e.marked ≠ some (.headerField, t)) :
    Alike T U { e with marked := e.marked.map f } { e' with marked := e'.marked.map f } := by
  refine ⟨h.parser, h.inner, h.parsed, h.returned, ?_, h.callbacks⟩
  rcases h.marked_cases with ⟨none, none'⟩ | ⟨t, -, -, name, -⟩ | ⟨m, t, other, text, text'⟩
  · simp only [none, none']
    exact .none
  · exact absurd name (unnamed t)
  · simp only [text, text', Option.map_some]
    have other' : (f (m, t)).1 ≠ .headerField := by
      rw [kept]
      exact other
    exact .text other'

theorem callbackDataThrough (h : Alike T U e e') {m : Mark} (text : m ≠ .headerField)
    (unnamed : ∀ t, e.marked ≠ some (.headerField, t)) :
    Alike T U (e.callbackDataThrough m ch) (e'.callbackDataThrough m ch) := by
  unfold Execution.callbackDataThrough
  refine Alike.callbackData_text (h.mapMarked ?_ unnamed) text
  intro _
  rfl

theorem bodyIdentity (h : Alike T U e e') (unnamed : ∀ t, e.marked ≠ some (.headerField, t)) :
    Alike T U (e.bodyIdentity ch) (e'.bodyIdentity ch) := by
  have marked := h.mark (m := .body) (by simp)
  have unnamed : ∀ t, (e.mark .body).marked ≠ some (.headerField, t) := by
    intro t
    cases none : e.marked with
    | none => simp [Execution.mark, none]
    | some text =>
      have same : (e.mark .body).marked = e.marked := by simp only [Execution.mark, none]
      rw [same]
      exact unnamed t
  have counted := marked.setParser
    { (e.mark .body).parser with contentLength := (e.mark .body).parser.contentLength - 1 }
  simp only [Execution.bodyIdentity, marked.parser]
  split_ifs
  · have ended := counted.updateState .messageDone
    exact (ended.callbackDataThrough ch (m := .body) (by simp) unnamed).messageDone
  · exact counted

end Body

/-! ## The main loop -/

section Loop

variable (ch : Byte)

/-- Every case of the main loop. Names are opened in a state for names only, and closed in that
of their loop. -/
theorem dispatch (h : Alike T U e e') (opens : e.parser.state.naming = true → U [] [])
    (closes : e.parser.state = .headerField → ∀ t t', U t t' → T (fieldCount e.callbacks) t t')
    (unnamed : e.parser.state = .bodyIdentity → ∀ t, e.marked ≠ some (.headerField, t)) :
    Alike T U (e.dispatch ch) (e'.dispatch ch) := by
  unfold Execution.dispatch
  rw [h.parser]
  cases state : e.parser.state
  case dead =>
    dsimp only
    split_ifs
    · exact h
    · exact h.error _
  case startReq => exact h.startReq ch
  case reqMethod => exact h.reqMethod ch
  case reqSpacesBeforeUrl => exact h.reqSpacesBeforeUrl ch
  case reqSchema | reqSchemaSlash | reqSchemaSlashSlash | reqServerStart => exact h.reqSchema ch
  case reqServer | reqServerWithAt | reqPath | reqQueryStringStart | reqQueryString
      | reqFragmentStart | reqFragment =>
    exact h.reqUrl ch
  case reqHttpStart => exact h.reqHttpStart ch
  case reqHttpH | reqHttpHT | reqHttpHTT | reqHttpHTTP | headerValueDiscardWsAlmostDone
      | headerAlmostDone =>
    exact h.expect ch _ _
  case reqFirstHttpMajor => exact h.reqFirstHttpMajor ch
  case reqHttpMajor => exact h.reqHttpMajor ch
  case reqFirstHttpMinor => exact h.reqFirstHttpMinor ch
  case reqHttpMinor => exact h.reqHttpMinor ch
  case reqLineAlmostDone => exact h.reqLineAlmostDone ch
  case headerFieldStart => exact h.headerFieldStart ch (opens (by rw [state]; rfl))
  case headerField => exact h.headerFieldLoop ch 0 (closes state)
  case headerValueDiscardWs => exact h.headerValueDiscardWs ch
  case headerValueDiscardLws => exact h.headerValueDiscardLws ch (opens (by rw [state]; rfl))
  case headerValueStart => exact h.headerValueStart ch
  case headerValue => exact h.headerValueLoop ch 0
  case headerValueLws => exact h.headerValueLws ch (opens (by rw [state]; rfl))
  case chunkSizeStart => exact h.chunkSizeStart ch
  case chunkSize => exact h.chunkSize ch
  case chunkParameters => exact h.chunkParameters ch
  case chunkSizeAlmostDone => exact h.chunkSizeAlmostDone ch
  case headersAlmostDone => exact h.headersAlmostDone ch
  case headersDone => exact h.headersDone ch
  case chunkData => exact h.chunkData
  case chunkDataAlmostDone => exact h.chunkDataAlmostDone ch
  case chunkDataDone => exact h.chunkDataDone ch
  case bodyIdentity => exact h.bodyIdentity ch (unnamed state)
  case bodyIdentityEof => exact h.mark (by simp)
  case messageDone => exact h.messageDone

theorem consume (h : Alike T U e e') (fits : e.Fits)
    (opens : e.parser.state.naming = true → U [] [])
    (closes : e.parser.state = .headerField → ∀ t t', U t t' → T (fieldCount e.callbacks) t t') :
    Alike T U (e.consume ch) (e'.consume ch) := by
  have unnamed : e.parser.state = .bodyIdentity → ∀ t, e.marked ≠ some (.headerField, t) := by
    intro state t named
    have mark := fits.marked _ _ named
    rw [state] at mark
    cases mark
  unfold Execution.consume
  rw [h.inner]
  cases inside : e.inner with
  | some i =>
    cases i with
    | headerField read => exact h.headerFieldLoop ch read (closes (fits.inner _ inside))
    | headerValue read => exact h.headerValueLoop ch read
    | search read looked => exact h.searchLoop ch read looked
    | skip read => exact h.setInner _
  | none =>
    dsimp only
    rw [h.parser]
    split_ifs
    · refine h.countHeaderSize 1 fun nread => ?_
      rw [h.parser]
      exact (h.setParser _).dispatch ch opens closes unnamed
    · exact h.dispatch ch opens closes unnamed

/-- The executions return, and what was marked in both is reported. -/
theorem report_marked (h : Alike T U e e')
    (closes : ∀ t t', U t t' → T (fieldCount e.callbacks) t t') :
    e.marked = none ∧ e'.marked = none ∧
        Alike T U { e with returned := true } { e' with returned := true } ∨
      ∃ m t t', e.marked = some (m, t) ∧ e'.marked = some (m, t') ∧
        Alike T U { e.callbackData m with returned := true }
          { e'.callbackData m with returned := true } := by
  have stop {x x' : Execution} (same : Alike T U x x') :
      Alike T U { x with returned := true } { x' with returned := true } :=
    ⟨same.parser, same.inner, same.parsed, rfl, same.marked, same.callbacks⟩
  rcases h.marked_cases with ⟨none, none'⟩ | ⟨t, t', -, name, name'⟩ | ⟨m, t, -, text, text'⟩
  · exact .inl ⟨none, none', stop h⟩
  · exact .inr ⟨_, t, t', name, name', stop (h.callbackData fun _ => closes)⟩
  · exact .inr ⟨m, t, t, text, text', stop (h.callbackData fun _ => closes)⟩

theorem finish (h : Alike T U e e') (closes : ∀ t t', U t t' → T (fieldCount e.callbacks) t t') :
    Alike T U e.finish e'.finish := by
  have outside : Alike T U { e with inner := none }
      { e' with inner := none, returned := e.returned } :=
    ⟨h.parser, rfl, h.parsed, rfl, h.marked, h.callbacks⟩
  unfold Execution.finish
  rw [h.returned, h.inner]
  split_ifs
  · exact h
  · cases e.inner with
    | none =>
      dsimp only
      rcases h.report_marked closes with ⟨none, none', alike⟩ | ⟨m, t, t', marked, marked', alike⟩
      · simp only [none, none'] at alike ⊢
        exact alike
      · simp only [marked, marked']
        exact alike
    | some inner =>
      dsimp only
      refine outside.countHeaderSize _ fun nread => ?_
      rw [h.parser]
      have counted := outside.setParser { e.parser with nread := nread }
      rcases counted.report_marked closes with
        ⟨none, none', alike⟩ | ⟨m, t, t', marked, marked', alike⟩
      · dsimp only at none none' alike ⊢
        simp only [none, none'] at alike ⊢
        exact alike
      · dsimp only at marked marked' alike ⊢
        simp only [marked, marked'] at alike ⊢
        exact alike

theorem weaken {U' : Bytes → Bytes → Prop} (h : Alike T U e e')
    (weaker : ∀ t t', e.marked = some (.headerField, t) → U t t' → U' t t') :
    Alike T U' e e' :=
  ⟨h.parser, h.inner, h.parsed, h.returned, h.marked.mono weaker, h.callbacks⟩

theorem advance {U' : Bytes → Bytes → Prop} {c c' : Byte} (h : Alike T U e e')
    (names : ∀ t t', e.marked = some (.headerField, t) → U t t' → U' (t ++ [c]) (t' ++ [c']))
    (others : c' = c ∨ ∃ t, e.marked = some (.headerField, t)) :
    Alike T U' (e.advance c) (e'.advance c') := by
  refine ⟨h.parser, h.inner, congrArg (· + 1) h.parsed, h.returned, ?_, h.callbacks⟩
  rw [Execution.advance_marked, Execution.advance_marked]
  rcases h.marked_cases with ⟨none, none'⟩ | ⟨t, t', related, name, name'⟩ |
    ⟨m, t, other, text, text'⟩
  · rw [none, none']
    exact .none
  · rw [name, name']
    exact .name (names t t' name related)
  · rw [text, text']
    rcases others with rfl | ⟨_, name⟩
    · exact .text other
    · rw [text, Option.some.injEq, Prod.mk.injEq] at name
      exact absurd name.1 other

end Loop

end Alike

/-! ## One byte -/

namespace Execution

variable {T : ℕ → Bytes → Bytes → Prop} {e e' : Execution} {c c' : Byte}

theorem callsAlike_refl {n : ℕ} {calls : List Callback}
    (refl : ∀ k, k < n + fieldCount calls → ∀ t, T k t t) : CallsAlike T n calls calls := by
  induction calls generalizing n with
  | nil => exact .nil n
  | cons call calls ih =>
    cases field : call.isField with
    | false =>
      refine .other field (ih fun k less => refl k ?_)
      rwa [fieldCount, List.countP_cons_of_neg (by simp [field])]
    | true =>
      rw [fieldCount, List.countP_cons_of_pos field] at refl
      cases call with
      | onHeaderField t =>
        refine .field (refl n (by omega) t) (ih fun k less => refl k ?_)
        rw [fieldCount] at less
        omega
      | _ => cases field

/-- The names that are read by the next byte are those of the states for names. -/
theorem consume_unnamed (fits : e.Fits) (other : e.parser.state.naming = false) (t : Bytes) :
    (e.consume c).marked ≠ some (.headerField, t) := by
  have unnamed : ∀ t, e.marked ≠ some (.headerField, t) := by
    intro t named
    have mark := fits.marked _ _ named
    revert mark other
    cases e.parser.state <;> simp [State.mark, State.naming]
  -- no name is related to itself, so none is opened
  have alike : Alike (fun _ _ _ => True) (fun _ _ => False) e e := by
    refine ⟨rfl, rfl, rfl, rfl, ?_, callsAlike_refl fun _ _ _ => trivial⟩
    cases marked : e.marked with
    | none => exact .none
    | some text =>
      refine .text fun field => unnamed text.2 ?_
      rw [marked, ← field]
  have next := alike.consume c fits (by simp [other]) fun _ _ _ closed => closed.elim
  intro named
  rcases next.marked_cases with ⟨none, -⟩ | ⟨_, _, impossible, -, -⟩ | ⟨m, _, text, marked, -⟩
  · rw [named] at none
    cases none
  · exact impossible
  · rw [named, Option.some.injEq, Prod.mk.injEq] at marked
    exact text marked.1.symm

theorem headerFieldLoop_callbacks {read : ℕ} {t : Bytes}
    (named : (e.headerFieldLoop c read).marked = some (.headerField, t)) :
    (e.headerFieldLoop c read).callbacks = e.callbacks := by
  unfold headerFieldLoop countHeaderSize callbackData at named ⊢
  dsimp only at named ⊢
  split_ifs at named ⊢
  · rfl
  · -- the name is reported, so it is not open any more
    split at named
    · split_ifs at named with field
      rename_i marked
      rw [named, Option.some.injEq, Prod.mk.injEq] at marked
      exact absurd marked.1.symm field
    · rename_i none
      rw [named] at none
      cases none
  · rfl
  · rfl

theorem fieldCount_le {n : ℕ} {calls calls' : List Callback} {N : ℕ}
    (h : CallsAlike (fun k _ _ => k < N) n calls calls') (below : n ≤ N) :
    n + fieldCount calls ≤ N := by
  induction h with
  | nil n => exact below
  | field less _ ih =>
    have rest := ih less
    rw [fieldCount, List.countP_cons_of_pos rfl]
    rw [fieldCount] at rest
    omega
  | other plain _ ih =>
    rw [fieldCount, List.countP_cons_of_neg (by simp [plain])]
    exact ih below

/-- A step that leaves a name open has reported none. -/
theorem consume_count (fits : e.Fits) (live : e.returned = false) {t : Bytes}
    (named : (e.consume c).marked = some (.headerField, t)) :
    fieldCount (e.consume c).callbacks = fieldCount e.callbacks := by
  by_cases state : e.parser.state = .headerField
  · unfold consume at named ⊢
    cases inside : e.inner with
    | some i =>
      have loop := fits.inner i inside
      rw [state] at loop
      cases i with
      | headerField read =>
        rw [inside] at named
        exact congrArg fieldCount (headerFieldLoop_callbacks named)
      | headerValue | search | skip => cases loop
    | none =>
      simp only [inside, state, State.parsingHeader, if_true, countHeaderSize, dispatch] at named ⊢
      split_ifs at named ⊢
      · rfl
      · exact congrArg fieldCount (headerFieldLoop_callbacks named)
  · -- elsewhere no field is reported, in particular none beyond those that there are
    have refl : CallsAlike (fun k _ _ => k < fieldCount e.callbacks) 0 e.callbacks e.callbacks :=
      callsAlike_refl fun k less _ => by omega
    have alike : Alike (fun k _ _ => k < fieldCount e.callbacks) (fun _ _ => True) e e := by
      refine ⟨rfl, rfl, rfl, rfl, ?_, refl⟩
      rcases e.marked with _ | ⟨m, text⟩
      · exact .none
      · by_cases field : m = .headerField
        · subst field
          exact .name trivial
        · exact .text field
    have next := alike.consume c fits (fun _ => trivial) fun here => absurd here state
    have upper := fieldCount_le next.callbacks (Nat.zero_le _)
    have goes : Goes e c (e.consume c) := consume_goes fits live
    obtain ⟨more, longer⟩ := goes.callbacks
    have lower : fieldCount e.callbacks ≤ fieldCount (e.consume c).callbacks := by
      rw [← longer, fieldCount, fieldCount, List.countP_append]
      omega
    omega

/-! ## Letters of names -/

/-- What a byte of a name does to an execution is seen from its token. -/
structure SameToken (c c' : Byte) : Prop where
  same : token c' = token c
  valid : token c ≠ 0

theorem SameToken.plain (h : SameToken c c') {d : Byte} (plain : token d = 0) :
    c ≠ d ∧ c' ≠ d := by
  constructor
  · rintro rfl
    exact h.valid plain
  · rintro rfl
    exact h.valid (h.same.symm.trans plain)

theorem sameToken_of_ne (other : c' ≠ c) (letter : toUpper c' = toUpper c) : SameToken c c' where
  same := by rw [← token_toUpper c', letter, token_toUpper]
  valid := fun plain => other (eq_of_toUpper letter plain)

theorem headerFieldByte_token (h : SameToken c c') (parser : HttpParser) :
    headerFieldByte parser c' = headerFieldByte parser c := by
  have blank := h.plain (d := ascii ' ') (by decide +kernel)
  unfold headerFieldByte
  rw [h.same]
  cases parser.headerState <;> simp only [ne_eq, blank.1, blank.2, not_false_eq_true, if_true]

theorem headerFieldLoop_token (h : SameToken c c') (e : Execution) (read : ℕ) :
    e.headerFieldLoop c' read = e.headerFieldLoop c read := by
  unfold headerFieldLoop
  rw [h.same, if_neg h.valid, if_neg h.valid, headerFieldByte_token h]

theorem headerFieldStart_of_token (valid : token c ≠ 0) (e : Execution) :
    e.headerFieldStart c = { e.mark .headerField with
      parser := { (e.mark .headerField).parser with
        index := 0, state := .headerField, headerState := headerStateOfLetter (token c) } } := by
  have same : SameToken c c := ⟨rfl, valid⟩
  have notCr := (same.plain (d := cr) (by decide +kernel)).1
  have notLf := (same.plain (d := lf) (by decide +kernel)).1
  rw [headerFieldStart, if_neg notCr, if_neg notLf, if_neg valid]

theorem headerFieldStart_token (h : SameToken c c') (e : Execution) :
    e.headerFieldStart c' = e.headerFieldStart c := by
  rw [headerFieldStart_of_token (h.same ▸ h.valid), headerFieldStart_of_token h.valid, h.same]

theorem dispatch_token (h : SameToken c c') (naming : e.parser.state.naming = true) :
    e.dispatch c' = e.dispatch c := by
  have blank := h.plain (d := ascii ' ') (by decide +kernel)
  have tab := h.plain (d := ascii '\t') (by decide +kernel)
  unfold dispatch
  cases state : e.parser.state <;> rw [state] at naming
  case headerFieldStart => exact headerFieldStart_token h e
  case headerField => exact headerFieldLoop_token h e 0
  case headerValueLws =>
    dsimp only
    rw [headerValueLws, headerValueLws, if_neg (not_or.mpr ⟨blank.1, tab.1⟩),
      if_neg (not_or.mpr ⟨blank.2, tab.2⟩)]
    exact headerFieldStart_token h _
  case headerValueDiscardLws =>
    dsimp only
    rw [headerValueDiscardLws, headerValueDiscardLws, if_neg (not_or.mpr ⟨blank.1, tab.1⟩),
      if_neg (not_or.mpr ⟨blank.2, tab.2⟩)]
    exact headerFieldStart_token h _
  all_goals cases naming

theorem consume_token (h : SameToken c c') (fits : e.Fits)
    (naming : e.parser.state.naming = true) : e.consume c' = e.consume c := by
  unfold consume
  cases inside : e.inner with
  | some i =>
    have loop := fits.inner i inside
    cases i with
    | headerField read => exact headerFieldLoop_token h e read
    | headerValue | search =>
      rw [loop] at naming
      cases naming
    | skip => rfl
  | none =>
    dsimp only
    split_ifs
    · unfold countHeaderSize
      dsimp only
      split_ifs
      · rfl
      · exact dispatch_token h naming
    · exact dispatch_token h naming

theorem dispatch_named (valid : token c ≠ 0) (naming : e.parser.state.naming = true) :
    (e.dispatch c).parser.state = .headerField := by
  have same : SameToken c c := ⟨rfl, valid⟩
  have blank := (same.plain (d := ascii ' ') (by decide +kernel)).1
  have tab := (same.plain (d := ascii '\t') (by decide +kernel)).1
  unfold dispatch
  cases state : e.parser.state <;> rw [state] at naming
  case headerFieldStart =>
    dsimp only
    rw [headerFieldStart_of_token valid]
  case headerField =>
    dsimp only
    rw [headerFieldLoop, if_neg valid]
    exact headerFieldByte_state.trans state
  case headerValueLws =>
    dsimp only
    rw [headerValueLws, if_neg (not_or.mpr ⟨blank, tab⟩), headerFieldStart_of_token valid]
  case headerValueDiscardLws =>
    dsimp only
    rw [headerValueDiscardLws, if_neg (not_or.mpr ⟨blank, tab⟩), headerFieldStart_of_token valid]
  all_goals cases naming

/-- A byte of a name is read into the name. -/
theorem consume_named (valid : token c ≠ 0) (fits : e.Fits) (live : e.returned = false)
    (naming : e.parser.state.naming = true) (next : (e.consume c).returned = false) :
    ∃ t, (e.consume c).marked = some (.headerField, t) := by
  have state : (e.consume c).parser.state = .headerField := by
    unfold consume at next ⊢
    cases inside : e.inner with
    | some i =>
      have loop := fits.inner i inside
      cases i with
      | headerField read =>
        dsimp only
        rw [headerFieldLoop, if_neg valid]
        exact headerFieldByte_state.trans loop
      | headerValue | search | skip =>
        rw [loop] at naming
        cases naming
    | none =>
      rw [inside] at next
      dsimp only at next ⊢
      split_ifs at next ⊢
      · unfold countHeaderSize at next ⊢
        dsimp only at next ⊢
        split_ifs at next ⊢
        · cases next
        · exact dispatch_named valid naming
      · exact dispatch_named valid naming
  have goes : Goes e c (e.consume c) := consume_goes fits live
  have after := goes.fits next
  exact after.text .headerField (by rw [state]; rfl) (by simp)

/-- One byte of each buffer. The names that are open go on being related. -/
theorem step_alike (nil : ∀ n, T n [] []) (sound : e.Sound) (sound' : e'.Sound)
    (h : Alike T (T (fieldCount e.callbacks)) e e')
    (recased : c' = c ∨ e.returned = false ∧ e.parser.state.naming = true ∧
      toUpper c' = toUpper c)
    (follows : e.returned = false → ∀ t t', (e.consume c).marked = some (.headerField, t) →
      T (fieldCount e.callbacks) t t' → T (fieldCount e.callbacks) (t ++ [c]) (t' ++ [c'])) :
    Alike T (T (fieldCount (e.step c).callbacks)) (e.step c) (e'.step c') := by
  cases live : e.returned with
  | true =>
    have live' : e'.returned = true := h.returned.trans live
    have stays : e.step c = e := by rw [step, if_pos live]
    have stays' : e'.step c' = e' := by rw [step, if_pos live']
    rw [stays, stays']
    exact h
  | false =>
    have live' : e'.returned = false := h.returned.trans live
    have fits := sound.fits live
    have fits' := sound'.fits live'
    -- the second execution may read the byte of the first one
    have token : e'.consume c' = e'.consume c := by
      by_cases other : c' = c
      · rw [other]
      · obtain ⟨-, naming, letter⟩ := recased.resolve_left other
        refine consume_token (sameToken_of_ne other letter) fits' ?_
        rw [h.parser]
        exact naming
    have consumed := h.consume c fits (fun _ => nil _) fun _ _ _ related => related
    rw [← token] at consumed
    have counted : ∀ t, (e.consume c).marked = some (.headerField, t) →
        fieldCount (e.consume c).callbacks = fieldCount e.callbacks :=
      fun t named => consume_count fits live named
    cases next : (e.consume c).returned with
    | true =>
      have next' := consumed.returned.trans next
      have stops : e.step c = e.consume c := by simp [step, live, next]
      have stops' : e'.step c' = e'.consume c' := by simp [step, live', next']
      rw [stops, stops']
      refine consumed.weaken fun t t' named related => ?_
      rwa [counted t named]
    | false =>
      have next' := consumed.returned.trans next
      have goes : e.step c = (e.consume c).advance c := by simp [step, live, next]
      have goes' : e'.step c' = (e'.consume c').advance c' := by simp [step, live', next']
      rw [goes, goes']
      refine consumed.advance (fun t t' named related => ?_) ?_
      · rw [advance_callbacks, counted t named]
        exact follows live t t' named related
      · by_cases other : c' = c
        · exact .inl other
        · obtain ⟨-, naming, letter⟩ := recased.resolve_left other
          exact .inr (consume_named (sameToken_of_ne other letter).valid fits live naming next)

end Execution

/-! ## Buffers -/

/-- Each byte of a name goes on relating the names. -/
def Follows (T : ℕ → Bytes → Bytes → Prop) : Execution → Bytes → Bytes → Prop
  | e, c :: b, c' :: b' =>
    (e.returned = false → ∀ t t', (e.consume c).marked = some (.headerField, t) →
      T (fieldCount e.callbacks) t t' → T (fieldCount e.callbacks) (t ++ [c]) (t' ++ [c'])) ∧
        Follows T (e.step c) b b'
  | _, _, _ => True

section Buffers

variable {T : ℕ → Bytes → Bytes → Prop} {e e' : Execution} {b b' : Bytes}

theorem foldl_alike (nil : ∀ n, T n [] []) (sound : e.Sound) (sound' : e'.Sound)
    (h : Alike T (T (fieldCount e.callbacks)) e e') (recased : RecasedFrom e b b')
    (follows : Follows T e b b') :
    Alike T (T (fieldCount (b.foldl Execution.step e).callbacks)) (b.foldl Execution.step e)
      (b'.foldl Execution.step e') := by
  induction b generalizing e e' b' with
  | nil =>
    cases b' with
    | nil => exact h
    | cons c' b' => exact recased.elim
  | cons c b ih =>
    cases b' with
    | nil => exact recased.elim
    | cons c' b' =>
      have next := Execution.step_alike nil sound sound' h recased.1 follows.1
      rw [List.foldl_cons, List.foldl_cons]
      exact ih (Execution.step_sound sound) (Execution.step_sound sound') next recased.2 follows.2

/-- What is reported on the two buffers is the same but for the names. -/
theorem report_alike (nil : ∀ n, T n [] []) (recased : Recased b b')
    (follows : Follows T { parser := httpParserInit } b b') :
    CallsAlike T 0 (report b) (report b') := by
  have start : Alike T (T 0) { parser := httpParserInit } { parser := httpParserInit } :=
    ⟨rfl, rfl, rfl, rfl, .none, .nil 0⟩
  have scanned := foldl_alike nil (scan_sound []) (scan_sound []) start recased follows
  rw [report_eq, report_eq]
  exact (scanned.finish fun _ _ related => related).callbacks

end Buffers

end Viking.Http
