/-
# When a request is complete

The completion test against the framing of the parser. Once the head of a request is read, the
parser knows how many bytes of body follow, and the test compares the bytes that came with a
length of its own. The test is right about a number of bytes iff that number lies on one side of
both lengths, and about all of them iff the lengths are the same.
-/

import Viking.Http.Counting

namespace Viking.Http

open Execution

/-- The number of bytes that the parser will read as a body, at the end of a head. -/
def bodyLength (parser : HttpParser) : ℕ := if hasBody parser then parser.contentLength else 0

/-- The fields that the parser reports of a head. -/
def headFields (head : Bytes) : List (Bytes × Bytes) := fieldList [] (scan head).callbacks

/-- The request has the header that the head fills, and a method that may have a body. -/
structure FilledBy (head : Bytes) (r : Request) : Prop where
  may : canHaveBody r.method = true
  header : r.header = fieldsOf (scan head).callbacks

/-- The test tells whether the body is all there. -/
def CompletesRightly (head : Bytes) (r : Request) : Prop :=
  isComplete r = true ↔ bodyLength (scan head).parser ≤ r.body.length

section Lengths

variable {fields : List (Bytes × Bytes)} {length : ℕ} {head : Bytes} {r : Request}

/-- A length that the parser has counted is not the one that stands for none. -/
theorem Tallies.lt (h : Tallies fields length) {n : ℕ} (last : lastLength fields = some n) :
    n < ullongMax := by
  obtain ⟨value, mem, rfl⟩ := Option.map_eq_some_iff.mp last
  exact (h.countable value (List.mem_of_getLast? mem)).fits

theorem AcceptedHead.bodyLength_eq (h : AcceptedHead head) :
    bodyLength (scan head).parser = (lastLength (headFields head)).getD 0 := by
  have tallies := h.tallies
  have counted := tallies.last
  rw [bodyLength, hasBody, h.plain, Bool.false_or, counted, headFields]
  cases last : lastLength (fieldList [] (scan head).callbacks) with
  | none => simp
  | some n =>
    have small := tallies.lt last
    by_cases zero : n = 0
    · simp [zero]
    · have counts : 0 < n ∧ n ≠ ullongMax := ⟨by omega, by omega⟩
      simp [counts]

/-- What the test reads off the field that it finds. -/
theorem AcceptedHead.announced_eq (h : AcceptedHead head) {value : Bytes}
    (found : (headFields head).lookup contentLengthField = some value) :
    announced value = narrowed (decimalNumber (value.takeWhile isNum)) := by
  cases value with
  | nil => decide +kernel
  | cons c rest =>
    obtain ⟨before, after, fields, -⟩ := List.lookup_eq_some_iff.mp found
    have counts : c :: rest ∈ lengthValues (headFields head) := by
      rw [fields]
      simp [lengthValues, SameName]
    exact announced_of_isNum (h.tallies.countable _ counts).start

/-- The test takes the first content length for the length of the body. -/
theorem AcceptedHead.isComplete_iff (h : AcceptedHead head) (filled : FilledBy head r) :
    isComplete r = true ↔ firstLength (headFields head) ≤ r.body.length := by
  have looked : r.header.lookup contentLengthField =
      (headFields head).lookup contentLengthField := by
    rw [filled.header]
    exact lookup_harvest_eq [] _ _
  rw [isComplete, if_pos filled.may, looked, firstLength]
  cases found : (headFields head).lookup contentLengthField with
  | none => simp
  | some value =>
    have same := h.announced_eq found
    rw [Option.map_some, Option.getD_some, ← same]
    simp

end Lengths

/-! ## A context with a head and a part of a body -/

section Part

variable {p : HttpParser} {calls : List Callback} {head body : Bytes}

/-- Where a body is read, with `text` of it. -/
def reading (p : HttpParser) (text : Bytes) (calls : List Callback) (k : ℕ) : Execution :=
  { parser := { p with
      state := .bodyIdentity, nread := 0, contentLength := p.contentLength - text.length }
    marked := if text = [] then none else some (.body, text), callbacks := calls, parsed := k }

/-- A byte of a body sets the mark, if it is not set, and counts down. -/
theorem consume_reading (p : HttpParser) (text : Bytes) (calls : List Callback) (k : ℕ) (c : Byte) :
    (reading p text calls k).consume c =
      let parser : HttpParser := { p with
        state := .bodyIdentity, nread := 0, contentLength := p.contentLength - text.length - 1 }
      let e : Execution :=
        { parser := parser, marked := some (.body, text), callbacks := calls, parsed := k }
      if p.contentLength - text.length - 1 = 0 then
        ((e.updateState .messageDone).callbackDataThrough .body c).messageDone
      else e := by
  by_cases empty : text = []
  · rw [empty]
    rfl
  · rw [reading, if_neg empty]
    rfl

/-- The bytes of a body before the last one. -/
theorem foldl_reading (p : HttpParser) (calls : List Callback)
    (short : body.length < p.contentLength) (k : ℕ) :
    ∃ k', body.foldl step (reading p [] calls k) = reading p body calls k' := by
  induction body using List.reverseRecOn with
  | nil => exact ⟨k, rfl⟩
  | append_singleton body c ih =>
    rw [List.length_append, List.length_singleton] at short
    obtain ⟨k', read⟩ := ih (by omega)
    refine ⟨k' + 1, ?_⟩
    have consumed := consume_reading p body calls k' c
    dsimp only at consumed
    rw [if_neg (by omega)] at consumed
    have length : p.contentLength - body.length - 1 = p.contentLength - (body ++ [c]).length := by
      rw [List.length_append, List.length_singleton]
      omega
    rw [List.foldl_append, read, List.foldl_cons, List.foldl_nil, step, consumed, length]
    simp [reading, advance]

/-- A part of a body is reported, at the end of the buffer or at its own. -/
theorem finish_reading (p : HttpParser) (calls : List Callback) (nonempty : body ≠ [])
    (short : body.length ≤ p.contentLength) (k : ℕ) :
    ∃ rest, (body.foldl step (reading p [] calls k)).finish.callbacks =
        calls ++ .onBody body :: rest ∧ (rest = [] ∨ rest = [.onMessageComplete]) := by
  rcases Nat.lt_or_eq_of_le short with part | whole
  · obtain ⟨k', read⟩ := foldl_reading p calls part k
    refine ⟨[], ?_, .inl rfl⟩
    rw [read]
    simp [reading, nonempty, finish, callbackData, Mark.callback]
  · refine ⟨[.onMessageComplete], ?_, .inr rfl⟩
    obtain ⟨body, c, rfl⟩ := (List.eq_nil_or_concat body).resolve_left nonempty
    rw [List.concat_eq_append] at whole ⊢
    rw [List.length_append, List.length_singleton] at whole
    have part : body.length < p.contentLength := by omega
    obtain ⟨k', read⟩ := foldl_reading p calls part k
    have consumed := consume_reading p body calls k' c
    dsimp only at consumed
    rw [if_pos (by omega)] at consumed
    rw [List.foldl_append, read, List.foldl_cons, List.foldl_nil, step, consumed]
    -- After an upgrade the parser returns here, otherwise the buffer ends here.
    cases upgrade : p.upgrade <;>
      simp [reading, updateState, callbackDataThrough, callbackData, messageDone, completeMessage,
        notify, returnPast, advance, finish, Mark.callback, upgrade]

/-- An accepted head leaves no text open and has reported nothing of a body. -/
theorem AcceptedHead.bare (h : AcceptedHead head) :
    (scan head).marked = none ∧ bodyOf (scan head).callbacks = [] := by
  obtain ⟨x, next, c, finished, same⟩ := h.headOver
  obtain ⟨-, marked, after⟩ := headersDone_frame (headReported x)
  have unmarked : next.marked = none := by rw [finished.eq, marked]; exact finished.unmarked
  have bodyless : bodyOf x.callbacks = [] := by
    refine List.flatMap_eq_nil_iff.mpr fun call mem => ?_
    have inside : call.inHead = true := by
      by_contra outside
      exact finished.tallied.incomplete ⟨call, mem, Bool.not_eq_true _ ▸ outside⟩
    cases call with
    | onBody text => cases inside
    | _ => rfl
  have reported : bodyOf next.callbacks = [] := by
    rw [finished.eq]
    rcases after with after | after
    · rw [after, headReported, bodyOf_append, bodyless]
      rfl
    · rw [after, headReported, bodyOf_append, bodyOf_append, bodyless]
      rfl
  rw [same, past]
  split_ifs
  · exact ⟨unmarked, reported⟩
  · exact ⟨by rw [advance_marked, unmarked]; rfl, reported⟩

theorem headersDone_body {y : Execution} (plain : y.parser.flags.chunked = false)
    (skipBody : y.parser.flags.skipBody = false) (other : y.parser.method ≠ .connect)
    (body : hasBody y.parser = true) : y.headersDone lf =
      { y with parser := { y.parser with state := .bodyIdentity, nread := 0 } } := by
  have length : y.parser.contentLength ≠ 0 ∧ y.parser.contentLength ≠ ullongMax := by
    simp only [hasBody, plain, Bool.false_or, Bool.and_eq_true, decide_eq_true_eq,
      bne_iff_ne] at body
    exact ⟨Nat.pos_iff_ne_zero.mp body.1, body.2⟩
  have counted : hasBody { y.parser with nread := 0 } = true := body
  simp only [headersDone, counted, skipBody, plain, other, length.1, length.2, ne_eq, or_self,
    not_true_eq_false, not_false_eq_true, Bool.not_true, Bool.false_eq_true, and_false, if_false,
    if_true]
  rfl

/-- Behind a head with a body, the body is read next. -/
theorem AcceptedHead.reading_eq (h : AcceptedHead head)
    (other : (scan head).parser.method ≠ .connect) (body : hasBody (scan head).parser = true) :
    scan head = reading (scan head).parser [] (scan head).callbacks (scan head).parsed := by
  obtain ⟨x, next, c, finished, same⟩ := h.headOver
  obtain ⟨frame, -⟩ := headersDone_frame (headReported x)
  have eq := finished.eq
  have parser : (scan head).parser = next.parser := by
    rw [same, past]
    split_ifs <;> rfl
  have plain := h.plain
  have skipBody : x.parser.flags.skipBody = false := congrArg Prod.snd finished.tallied.ending
  rw [parser, eq, frame] at body other plain
  rw [headersDone_body plain skipBody other body] at eq
  have live : next.returned = false := by
    rw [eq]
    exact finished.tallied.live
  rw [same, past, if_neg (by simp [live]), eq, reading, if_pos rfl]
  simp only [advance, headReported, finished.unmarked, finished.outer, finished.tallied.live,
    Option.map_none, List.length_nil, Nat.sub_zero]

/-- A new context that reads a head and a part of the body behind it has the header of the head,
and that part. -/
theorem AcceptedHead.received (h : AcceptedHead head)
    (other : (scan head).parser.method ≠ .connect) (heap : Indeterminate)
    (short : body.length ≤ bodyLength (scan head).parser) :
    ((Context.new heap).received (head ++ body)).header = fieldsOf (scan head).callbacks ∧
      ((Context.new heap).received (head ++ body)).body = body := by
  obtain ⟨unmarked, bodyless⟩ := h.bare
  -- What is reported of the head comes first.
  have reported : ∃ rest, report (head ++ body) = (scan head).callbacks ++ rest ∧
      bodyOf rest = body ∧ ∀ call ∈ rest, call.isValue = false := by
    rw [report_eq]
    by_cases empty : body = []
    · refine ⟨[], ?_, empty.symm, nofun⟩
      rw [empty, List.append_nil, List.append_nil]
      rcases finish_callbacks (scan head) with ⟨same, -⟩ | ⟨m, t, -, marked, -⟩
      · exact same
      · simp [unmarked] at marked
    · have some_body : hasBody (scan head).parser = true := by
        by_contra none
        rw [bodyLength, if_neg none] at short
        exact empty (List.length_eq_zero_iff.mp (Nat.le_zero.mp short))
      rw [bodyLength, if_pos some_body] at short
      obtain ⟨rest, finished, ending⟩ :=
        finish_reading (scan head).parser (scan head).callbacks empty short (scan head).parsed
      rw [← h.reading_eq other some_body, ← scan_append] at finished
      refine ⟨.onBody body :: rest, finished, ?_, ?_⟩
      · rcases ending with rfl | rfl <;> exact List.append_nil _
      · rcases ending with rfl | rfl <;> simp [Callback.isValue]
  obtain ⟨rest, reported, part, plain⟩ := reported
  have buffer : (Context.new heap).buffer ++ (head ++ body) = head ++ body := rfl
  simp only [Context.received, buffer, reported, Request.after]
  constructor
  · show ∅ ∪ fieldsOf _ = _
    rw [Finmap.empty_union, fieldsOf, harvest_append, harvest_eq_empty plain, Finmap.union_empty]
    rfl
  · show [] ++ bodyOf _ = _
    rw [List.nil_append, bodyOf_append, bodyless, part]
    rfl

end Part

/-! ## The two lengths -/

section Test

variable {head body : Bytes} {r : Request}

/-- The first content length, as the server spells the field and reads the number, and the last
one, as the parser does, lie on the same side of a number of bytes. -/
def OneSide (head : Bytes) (n : ℕ) : Prop :=
  firstLength (headFields head) ≤ n ↔ (lastLength (headFields head)).getD 0 ≤ n

theorem AcceptedHead.rightly (h : AcceptedHead head) (filled : FilledBy head r) :
    CompletesRightly head r ↔ OneSide head r.body.length := by
  rw [CompletesRightly, h.isComplete_iff filled, h.bodyLength_eq, OneSide]

/-- The flag of a new context that reads a head and a part of the body behind it says whether that
is all of the body iff the two lengths lie on the same side of that part. -/
theorem AcceptedHead.complete_iff (h : AcceptedHead head)
    (other : (scan head).parser.method ≠ .connect) {heap : Indeterminate} {c : Context}
    (received : (Context.new heap).receive (head ++ body) = .ok c)
    (short : body.length ≤ bodyLength (scan head).parser)
    (may : canHaveBody c.request.method = true) :
    (c.complete = true ↔ bodyLength (scan head).parser ≤ body.length) ↔
      OneSide head body.length := by
  have receives := Context.receive_receives received
  obtain ⟨header, part⟩ := h.received other heap short
  rw [← receives.request] at header part
  have right := h.rightly ⟨may, header⟩
  rwa [CompletesRightly, ← receives.complete, part] at right

end Test

/-- The completion test is right about a request iff the two lengths lie on the same side of what
has come of the body, and about every request with the header of a head iff they are the same. -/
theorem completesRightly_iff {head : Bytes} (accepted : AcceptedHead head) :
    (∀ r, FilledBy head r → (CompletesRightly head r ↔ OneSide head r.body.length)) ∧
    ((∀ r, FilledBy head r → CompletesRightly head r) ↔
      firstLength (headFields head) = (lastLength (headFields head)).getD 0) := by
  refine ⟨fun r filled => accepted.rightly filled, ?_⟩
  constructor
  · intro all
    -- A body of either length has the other length too.
    let r (n : ℕ) : Request :=
      ⟨.put, ⟨1, 1⟩, fieldsOf (scan head).callbacks, [], List.replicate n 0⟩
    have right (n : ℕ) : OneSide head n := by
      have filled : FilledBy head (r n) := ⟨rfl, rfl⟩
      have right := (accepted.rightly filled).mp (all _ filled)
      rwa [show (r n).body.length = n from List.length_replicate] at right
    exact Nat.le_antisymm ((right _).mpr le_rfl) ((right _).mp le_rfl)
  · intro same r filled
    rw [accepted.rightly filled, OneSide, same]

/-- The theorem at a request that announces five bytes and has three of them. -/
theorem completesRightly_put :
    CompletesRightly (bytes "PUT / HTTP/1.1\r\nContent-Length: 5\r\n\r\n")
      ⟨.put, ⟨1, 1⟩,
        fieldsOf (scan (bytes "PUT / HTTP/1.1\r\nContent-Length: 5\r\n\r\n")).callbacks,
        bytes "/", bytes "abc"⟩ := by
  have accepted : AcceptedHead (bytes "PUT / HTTP/1.1\r\nContent-Length: 5\r\n\r\n") :=
    ⟨by decide +kernel, by decide +kernel, by decide +kernel⟩
  exact (completesRightly_iff accepted).2.mpr (by decide +kernel) _ ⟨rfl, rfl⟩

/-- A content length in small letters is not seen, and the request completes without its body. -/
theorem small_letters_complete :
    ¬ ∀ (head : Bytes) (r : Request), AcceptedHead head → FilledBy head r →
      CompletesRightly head r := by
  intro all
  let head : Bytes := bytes "PUT / HTTP/1.1\r\ncontent-length: 5\r\n\r\n"
  let r : Request := ⟨.put, ⟨1, 1⟩, fieldsOf (scan head).callbacks, bytes "/", []⟩
  have accepted : AcceptedHead head := ⟨by decide +kernel, by decide +kernel, by decide +kernel⟩
  have complete : isComplete r = true := by decide +kernel
  have waits : bodyLength (scan head).parser = 5 := by decide +kernel
  have right := (all head r accepted ⟨rfl, rfl⟩).mp complete
  rw [waits] at right
  exact absurd right (by decide)

end Viking.Http
