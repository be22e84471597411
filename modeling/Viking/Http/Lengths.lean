/-
# Two lengths of a body

How long a body is, is computed twice. The parser adds the digits of each content length up as
it reads them, whatever the case of the name, and the last one counts; the completion test looks
one value up under one spelling, where the first one counts, and reads it with `atoi` into an
`int`. Here both are numbers that the fields of a head spell: `Tallies` ties the parser's counter
to the fields it has reported, and each byte of a value keeps what `Tallying` says of it.
-/

import Viking.Http.Decoding

namespace Viking.Http

open Execution

/-! ## The fields of a head -/

/-- The fields in a list of callbacks, when `name` is the name before the first one. -/
def fieldList (name : Bytes) : List Callback → List (Bytes × Bytes)
  | [] => []
  | .onHeaderField text :: calls => fieldList text calls
  | .onHeaderValue value :: calls => (name, value) :: fieldList name calls
  | _ :: calls => fieldList name calls

/-- The name that the next value belongs to. -/
def currentName (calls : List Callback) : Bytes := (lastOf Callback.field calls).getD []

/-- The number that the digits of a value spell, with any blanks between and after them. -/
def lengthNumber (value : Bytes) : ℕ := decimalNumber (value.filter (· ≠ ascii ' '))

/-- The content lengths among the fields, in any case of letters, that have a value. -/
def lengthValues (fields : List (Bytes × Bytes)) : List Bytes :=
  (fields.filter fun field => SameName field.1 contentLengthField ∧ field.2 ≠ []).map Prod.snd

/-- The last content length, as a whole number. -/
def lastLength (fields : List (Bytes × Bytes)) : Option ℕ :=
  (lengthValues fields).getLast?.map lengthNumber

/-- What is left of a number in an `int` that is converted to a `size_t`, when it was first
held to what fits in a `long`. -/
def narrowed (n : ℕ) : ℕ := toSize (Int.bmod (min (2 ^ 63 - 1) n) (2 ^ 32))

/-- The first content length in the spelling of the server: its first digits, narrowed. -/
def firstLength (fields : List (Bytes × Bytes)) : ℕ :=
  ((fields.lookup contentLengthField).map fun value =>
    narrowed (decimalNumber (value.takeWhile isNum))).getD 0

section Fields

variable {name value : Bytes} {call : Callback} {calls : List Callback}
  {fields : List (Bytes × Bytes)}

theorem fieldList_append (name : Bytes) (calls calls' : List Callback) :
    fieldList name (calls ++ calls') =
      fieldList name calls ++ fieldList ((lastOf Callback.field calls).getD name) calls' := by
  induction calls generalizing name with
  | nil => rfl
  | cons call calls ih =>
    cases call <;> simp [fieldList, ih, lastOf_cons, Callback.field]

theorem fieldList_snoc_value (calls : List Callback) (value : Bytes) :
    fieldList [] (calls ++ [.onHeaderValue value]) =
      fieldList [] calls ++ [(currentName calls, value)] := by
  rw [fieldList_append]
  rfl

/-- Only a value adds a field. -/
theorem fieldList_snoc (calls : List Callback) (other : call.isValue = false) :
    fieldList [] (calls ++ [call]) = fieldList [] calls := by
  rw [fieldList_append]
  cases call with
  | onHeaderValue value => cases other
  | _ => exact List.append_nil _

theorem currentName_snoc_field (calls : List Callback) (name : Bytes) :
    currentName (calls ++ [.onHeaderField name]) = name := by
  rw [currentName, lastOf_append]
  rfl

theorem currentName_snoc_value (calls : List Callback) (value : Bytes) :
    currentName (calls ++ [.onHeaderValue value]) = currentName calls := by
  rw [currentName, lastOf_append]
  rfl

/-- What the header holds under a name is the first field of that name. -/
theorem lookup_harvest_eq (start : Bytes) (calls : List Callback) (name : Bytes) :
    (harvest start calls).lookup name = (fieldList start calls).lookup name := by
  induction calls generalizing start with
  | nil => rfl
  | cons call calls ih =>
    cases call with
    | onHeaderValue value =>
      rw [harvest, fieldList, List.lookup_cons]
      by_cases same : name = start
      · rw [same, Finmap.lookup_union_left (by simp), Finmap.lookup_singleton_eq, beq_self_eq_true]
      · rw [Finmap.lookup_union_right (by simp [same]), ih, beq_false_of_ne same]
    | _ => exact ih _

theorem lengthValues_snoc (fields : List (Bytes × Bytes))
    (length : SameName name contentLengthField) (nonempty : value ≠ []) :
    lengthValues (fields ++ [(name, value)]) = lengthValues fields ++ [value] := by
  simp [lengthValues, List.filter_append, length, nonempty]

theorem lengthValues_snoc_other (fields : List (Bytes × Bytes))
    (other : SameName name contentLengthField → value = []) :
    lengthValues (fields ++ [(name, value)]) = lengthValues fields := by
  simpa [lengthValues, List.filter_append] using other

end Fields

/-! ## What the parser has counted -/

/-- A value that a content length can have for the parser. -/
structure Countable (value : Bytes) : Prop where
  start : (value.head?.any isNum) = true
  fits : lengthNumber value < ullongMax

/-- `length` is what the parser makes of the content lengths among the fields. -/
structure Tallies (fields : List (Bytes × Bytes)) (length : ℕ) : Prop where
  last : length = (lastLength fields).getD ullongMax
  countable : ∀ value ∈ lengthValues fields, Countable value

/-- `length` is the parser's content length when `value` has been read after the fields, in the
field `name`: either it counts the digits of the value, or the value does not concern it. -/
inductive Tallying (fields : List (Bytes × Bytes)) (name value : Bytes) (s : HeaderState)
    (length : ℕ) : Prop
  | length (field : SameName name contentLengthField) (state : s = .contentLength)
      (countable : Countable value) (number : length = lengthNumber value) {before : ℕ}
      (earlier : Tallies fields before)
  | other (field : ¬ SameName name contentLengthField) (state : s ≠ .contentLength)
      (earlier : Tallies fields length)

section Tallies

variable {fields : List (Bytes × Bytes)} {name value : Bytes} {length : ℕ} {s : HeaderState}
  {c : Byte}

theorem digit_lt (num : isNum c = true) : digit c < 10 := by
  have between := isNum_iff.mp num
  have zero : (ascii '0').toNat = 48 := by decide
  rw [digit, UInt8.toNat_sub_of_le _ _ (UInt8.le_iff_toNat_le.mpr (by omega))]
  omega

theorem lengthNumber_snoc (value : Bytes) (num : isNum c = true) :
    lengthNumber (value ++ [c]) = lengthNumber value * 10 + digit c := by
  have blank : isNum (ascii ' ') = false := by decide
  have plain : c ≠ ascii ' ' := fun same => by simp [same, blank] at num
  have one : [c].filter (· ≠ ascii ' ') = [c] := by simp [plain]
  rw [lengthNumber, List.filter_append, one, decimalNumber_append]
  rfl

theorem lengthNumber_snoc_blank (value : Bytes) :
    lengthNumber (value ++ [ascii ' ']) = lengthNumber value := by
  rw [lengthNumber, List.filter_append]
  simp [lengthNumber]

theorem Countable.snoc (h : Countable value) (fits : lengthNumber (value ++ [c]) < ullongMax) :
    Countable (value ++ [c]) := by
  refine ⟨?_, fits⟩
  have start := h.start
  cases value with
  | nil => cases start
  | cons d value => exact start

/-- A field that says nothing to the parser. -/
theorem Tallies.snoc_other (h : Tallies fields length)
    (other : SameName name contentLengthField → value = []) :
    Tallies (fields ++ [(name, value)]) length := by
  have same := lengthValues_snoc_other fields other
  exact ⟨by rw [lastLength, same]; exact h.last, by rw [same]; exact h.countable⟩

theorem Tallies.snoc_length (h : Tallies fields length) (field : SameName name contentLengthField)
    (countable : Countable value) : Tallies (fields ++ [(name, value)]) (lengthNumber value) := by
  have nonempty : value ≠ [] := by
    rintro rfl
    cases countable.start
  have values := lengthValues_snoc fields field nonempty
  refine ⟨?_, ?_⟩
  · rw [lastLength, values, List.getLast?_append]
    rfl
  · rw [values, List.forall_mem_append]
    exact ⟨h.countable, by simpa using countable⟩

/-- The end of a value. -/
theorem Tallying.done (h : Tallying fields name value s length) :
    Tallies (fields ++ [(name, value)]) length := by
  cases h with
  | length field _ countable number earlier =>
    rw [number]
    exact earlier.snoc_length field countable
  | other field _ earlier => exact earlier.snoc_other fun same => absurd same field

theorem Tallying.state_iff (h : Tallying fields name value s length) :
    s = .contentLength ↔ SameName name contentLengthField := by
  cases h with
  | length field state _ _ _ => simp [field, state]
  | other field state _ => simp [field, state]

/-- A byte of a value that is not for counting. -/
theorem Tallying.general (h : Tallying fields name value s length) (general : s = .general) :
    Tallying fields name (value ++ [c]) s length := by
  cases h with
  | length _ state _ _ _ => simp [general] at state
  | other field state earlier => exact .other field state earlier

/-- The first byte of the value of a content length. -/
theorem Tallying.start (h : Tallies fields length) (field : SameName name contentLengthField)
    (num : isNum c = true) : Tallying fields name [c] .contentLength (digit c) := by
  have number : lengthNumber [c] = digit c := by
    have first := lengthNumber_snoc [] num
    rwa [show lengthNumber [] = 0 from rfl, Nat.zero_mul, Nat.zero_add] at first
  refine .length field rfl ⟨by simpa using num, ?_⟩ number.symm h
  have small := digit_lt num
  rw [number, ullongMax]
  omega

end Tallies

/-- The flags that say what the end of the head is the end of: a head does not set them. -/
def Flags.ending (flags : Flags) : Bool × Bool := (flags.trailing, flags.skipBody)

/-- Between two bytes of a value, or at its end, the parser has changed nothing that its framing
depends on, and has not begun to read a length. -/
structure Apart (p q : HttpParser) : Prop where
  state : q.headerState ≠ .contentLength
  length : q.contentLength = p.contentLength
  ending : q.flags.ending = p.flags.ending

theorem matchText_apart {text : Bytes} {mismatch whole : HeaderState} {p : HttpParser} (c : Byte)
    (other : p.headerState ≠ .contentLength) (mismatched : mismatch ≠ .contentLength)
    (matched : whole ≠ .contentLength) : Apart p (matchText text mismatch whole p c) := by
  simp only [matchText]
  split_ifs
  · exact ⟨mismatched, rfl, rfl⟩
  · exact ⟨matched, rfl, rfl⟩
  · exact ⟨other, rfl, rfl⟩

/-- No other value turns into a content length. -/
theorem headerValueByte_apart {p q : HttpParser} {c : Byte} (other : p.headerState ≠ .contentLength)
    (read : headerValueByte p c = some q) : Apart p q := by
  unfold headerValueByte at read
  cases state : p.headerState with
  | contentLength => exact absurd state other
  | matchingTransferEncodingChunked | matchingConnectionKeepAlive | matchingConnectionClose
  | matchingConnectionUpgrade =>
    simp only [state, Option.some.injEq] at read
    subst read
    exact matchText_apart _ other (by decide) (by decide)
  | matchingConnectionTokenStart =>
    simp only [state, Option.some.injEq] at read
    subst read
    refine ⟨?_, rfl, rfl⟩
    dsimp only
    split_ifs <;> decide
  | matchingConnectionToken | transferEncodingChunked | connectionKeepAlive | connectionClose
  | connectionUpgrade =>
    simp only [state, connectionFlag] at read
    split_ifs at read
    all_goals
      simp only [Option.some.injEq] at read
      subst read
      exact ⟨by simp [state], rfl, rfl⟩
  | connection | transferEncoding =>
    simp only [state, Option.some.injEq] at read
    subst read
    exact ⟨other, rfl, rfl⟩
  | _ =>
    simp only [state, Option.some.injEq] at read
    subst read
    exact ⟨by simp, rfl, rfl⟩

/-- One more byte of a value: it counts, or it is not for counting. -/
theorem headerValueByte_tallying {fields : List (Bytes × Bytes)} {name value : Bytes}
    {p q : HttpParser} {c : Byte}
    (h : Tallying fields name value p.headerState p.contentLength)
    (read : headerValueByte p c = some q) :
    Tallying fields name (value ++ [c]) q.headerState q.contentLength ∧
      q.flags.ending = p.flags.ending := by
  cases h with
  | length field state countable number earlier =>
    simp only [headerValueByte, state] at read
    split_ifs at read with blank num small
    · obtain rfl := Option.some.inj read
      have same := lengthNumber_snoc_blank value
      rw [blank]
      exact ⟨.length field state (countable.snoc (same ▸ countable.fits)) (number.trans same.symm)
        earlier, rfl⟩
    · obtain rfl := Option.some.inj read
      rw [Bool.not_eq_true, Bool.not_eq_false'] at num
      have more := lengthNumber_snoc value num
      have digits := digit_lt num
      refine ⟨.length field rfl (countable.snoc ?_) ?_ earlier, rfl⟩
      -- The test for overflow leaves room for one more digit.
      · rw [more, ← number]
        rw [ullongMax] at small ⊢
        omega
      · rw [more, ← number]
  | other field state earlier =>
    have apart := headerValueByte_apart state read
    exact ⟨.other field apart.state (apart.length ▸ earlier), apart.ending⟩

end Viking.Http
