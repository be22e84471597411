/-
# Bytes, faults and percent-decoding

Strings of the source are byte strings: `std::string` holds any bytes, and
nothing here depends on an encoding. `urlDecode` is the function the request
callbacks run on every piece of a URL the parser reports; it reads two bytes
after each `'%'` with a hexadecimal stream extraction, so what it accepts is
what that extraction accepts, which is more and less than two digits.

`decodable_iff` states exactly when it returns, in terms of the bytes alone.
-/

import Mathlib.Algebra.Order.Ring.Int
import Mathlib.Data.List.Basic
import Viking.Lib.Machine

namespace Viking

abbrev Byte := UInt8

abbrev Bytes := List Byte

/-- The bytes of an ASCII literal of the source. -/
def bytes (s : String) : Bytes := s.toList.map fun c => c.toUInt8

/-- A character literal of the source. -/
abbrev ascii (c : Char) : Byte := c.toUInt8

/-- The C++ exceptions that the modelled functions throw. -/
inductive Exception
  /-- `tcp_socket::connection_closed_by_peer` -/
  | connectionClosedByPeer
  /-- `std::runtime_error`, with its text -/
  | runtimeError (what : String)
  /-- `std::experimental::filesystem::filesystem_error` -/
  | filesystemError
  /-- `std::ios_base::failure` -/
  | streamError
  /-- an `http::status_code` thrown as a value -/
  | statusCode (code : Nat)
  /-- `epoll::poll_error` -/
  | pollError
  /-- `unix_file::error` -/
  | unixFileError (path : Bytes)
  /-- `response::body_unavailable` -/
  | bodyUnavailable
  /-- `std::out_of_range` -/
  | outOfRange
  deriving DecidableEq, Repr

/-- Steps after which the language no longer says what the program does. -/
inductive Undefined
  /-- a call through a member of `http_parser_settings` that was never set -/
  | unsetCallback
  /-- an iterator or a reference outside its string -/
  | outsideString
  deriving DecidableEq, Repr

/-- How a call can end other than by returning. -/
inductive Fault
  /-- an exception on its way to a handler -/
  | thrown (exception : Exception)
  /-- an exception that reached a `noexcept` boundary: `std::terminate` -/
  | terminated
  /-- undefined behaviour -/
  | undefined (reason : Undefined)
  deriving DecidableEq, Repr

/-- A function declared `noexcept`. -/
def noexcept {α : Type} : Except Fault α → Except Fault α
  | .error (.thrown _) => .error .terminated
  | outcome => outcome

/-! ## Characters of the "C" locale -/

/-- `toupper` -/
def toUpper (c : Byte) : Byte := if ascii 'a' ≤ c ∧ c ≤ ascii 'z' then c - 32 else c

/-- `isspace`: the blank and the bytes from tab to carriage return. -/
def isSpace (c : Byte) : Bool := c = ascii ' ' || (9 ≤ c && c ≤ 13)

/-- The value of a hexadecimal digit. -/
def hexValue (c : Byte) : Option Nat :=
  if ascii '0' ≤ c ∧ c ≤ ascii '9' then some (c - ascii '0').toNat
  else if ascii 'a' ≤ c ∧ c ≤ ascii 'f' then some ((c - ascii 'a').toNat + 10)
  else if ascii 'A' ≤ c ∧ c ≤ ascii 'F' then some ((c - ascii 'A').toNat + 10)
  else none

def isHex (c : Byte) : Bool := (hexValue c).isSome

def isSign (c : Byte) : Bool := c = ascii '+' || c = ascii '-'

/-- The letter of a `0x` prefix. -/
def isHexMark (c : Byte) : Bool := c = ascii 'x' || c = ascii 'X'

/-! ## `string_util.h` and `string_util.cpp` -/

/-- `uppercase` -/
def uppercase (item : Bytes) : Bytes := item.map toUpper

/-- The sign that may start a number, and what follows it. -/
def takeSign : Bytes → Bool × Bytes
  | [] => (false, [])
  | c :: rest => if isSign c then (c = ascii '-', rest) else (false, c :: rest)

/-- A `0x` prefix is dropped; the zero of any other number stays. -/
def dropHexMark : Bytes → Bytes
  | zero :: mark :: rest => if zero = ascii '0' ∧ isHexMark mark then rest else zero :: mark :: rest
  | short => short

/-- The number that hexadecimal digits spell. -/
def hexNumber (digits : Bytes) : Nat :=
  digits.foldl (fun acc c => 16 * acc + (hexValue c).getD 0) 0

/-- The digits that `in >> std::hex >> c` reads for a `short`: leading blanks are
skipped, a sign and a `0x` prefix are taken. -/
def shortDigits (str : Bytes) : Bytes :=
  (dropHexMark (takeSign (str.dropWhile isSpace)).2).takeWhile isHex

/-- `in >> std::hex >> c`; without a digit or outside the range of `short` the
extraction fails. -/
def extractShort (str : Bytes) : Option Int :=
  let digits := shortDigits str
  let value : Int :=
    if (takeSign (str.dropWhile isSpace)).1 then -(hexNumber digits : Int) else hexNumber digits
  -- `num_get` sets `failbit` on an empty conversion and on one out of range
  if digits = [] ∨ value < -32768 ∨ 32767 < value then none else some value

/-- `hex_to_char`: the empty string gives the zero byte. -/
def hexToChar (str : Bytes) : Except Fault Byte :=
  if str = [] then .ok 0
  else
    match extractShort str with
    -- the conversion of a `short` to `unsigned char`
    | some c => .ok (UInt8.ofNat (c % 256).toNat)
    | none => .error (.thrown (.runtimeError "stream decode failure"))

/-- `url_decode`: `substr(i + 1, 2)` is cut short at the end of the string. -/
def urlDecode : Bytes → Except Fault Bytes
  | [] => .ok []
  | c :: rest =>
    if c = ascii '%' then
      match rest with
      -- `i += 2` passes the end of the string and the loop is over
      | [] => do return [← hexToChar []]
      | [a] => do return [← hexToChar [a]]
      | a :: b :: rest => do
        let decoded ← hexToChar [a, b]
        return decoded :: (← urlDecode rest)
    else do
      return c :: (← urlDecode rest)

/-! ## What `url_decode` accepts -/

/-- The bytes after a `'%'` that the extraction reads to a number: nothing, a
digit, a digit and any byte unless the two are `0x`, or a blank or a sign and a
digit. -/
def EscapeReads : Bytes → Prop
  | [] => True
  | [a] => isHex a
  | a :: b :: _ =>
    (isHex a ∧ ¬ (a = ascii '0' ∧ isHexMark b)) ∨ ((isSpace a ∨ isSign a) ∧ isHex b)

instance : DecidablePred EscapeReads
  | [] => inferInstanceAs (Decidable True)
  | [a] => inferInstanceAs (Decidable (isHex a = true))
  | a :: b :: _ => inferInstanceAs (Decidable
      ((isHex a ∧ ¬ (a = ascii '0' ∧ isHexMark b)) ∨ ((isSpace a ∨ isSign a) ∧ isHex b)))

/-- Every `'%'` that `url_decode` meets is followed by something it can read. -/
def Decodable : Bytes → Prop
  | [] => True
  | c :: rest =>
    if c = ascii '%' then
      match rest with
      | [] => True
      | [a] => EscapeReads [a]
      | a :: b :: rest => EscapeReads [a, b] ∧ Decodable rest
    else Decodable rest

theorem isSpace_iff {c : Byte} : isSpace c ↔ c.toNat = 32 ∨ 9 ≤ c.toNat ∧ c.toNat ≤ 13 := by
  simp [isSpace, show ascii ' ' = 32 from rfl, UInt8.le_iff_toNat_le, ← UInt8.toNat_inj]

theorem isSign_iff {c : Byte} : isSign c ↔ c.toNat = 43 ∨ c.toNat = 45 := by
  simp [isSign, show ascii '+' = 43 from rfl, show ascii '-' = 45 from rfl, ← UInt8.toNat_inj]

theorem isHex_iff {c : Byte} : isHex c ↔
    (48 ≤ c.toNat ∧ c.toNat ≤ 57) ∨ (97 ≤ c.toNat ∧ c.toNat ≤ 102) ∨
      (65 ≤ c.toNat ∧ c.toNat ≤ 70) := by
  simp only [isHex, hexValue, UInt8.le_iff_toNat_le, show (ascii '0').toNat = 48 from rfl,
    show (ascii '9').toNat = 57 from rfl, show (ascii 'a').toNat = 97 from rfl,
    show (ascii 'f').toNat = 102 from rfl, show (ascii 'A').toNat = 65 from rfl,
    show (ascii 'F').toNat = 70 from rfl]
  split_ifs <;> simp only [Option.isSome_some, Option.isSome_none] <;> grind

theorem hexValue_lt {c : Byte} : (hexValue c).getD 0 < 16 := by
  unfold hexValue
  split_ifs with h1 h2 h3
  · have := UInt8.toNat_sub_of_le _ _ h1.1
    have h9 : c.toNat ≤ 57 := UInt8.le_iff_toNat_le.mp h1.2
    simp only [this, Option.getD_some, show (ascii '0').toNat = 48 from rfl]
    omega
  · have := UInt8.toNat_sub_of_le _ _ h2.1
    have h9 : c.toNat ≤ 102 := UInt8.le_iff_toNat_le.mp h2.2
    simp only [this, Option.getD_some, show (ascii 'a').toNat = 97 from rfl]
    omega
  · have := UInt8.toNat_sub_of_le _ _ h3.1
    have h9 : c.toNat ≤ 70 := UInt8.le_iff_toNat_le.mp h3.2
    simp only [this, Option.getD_some, show (ascii 'A').toNat = 65 from rfl]
    omega
  · simp

theorem hexNumber_pair {a b : Byte} : hexNumber [a, b] < 256 := by
  have := @hexValue_lt a
  have := @hexValue_lt b
  simp only [hexNumber, List.foldl_cons, List.foldl_nil]
  omega

theorem hexNumber_single {a : Byte} : hexNumber [a] < 256 := by
  have := @hexValue_lt a
  simp only [hexNumber, List.foldl_cons, List.foldl_nil]
  omega

theorem not_isHex_of_isSpace {c : Byte} (h : isSpace c) : isHex c = false := by
  rw [← Bool.not_eq_true, isHex_iff]
  rw [isSpace_iff] at h
  omega

theorem not_isHex_of_isSign {c : Byte} (h : isSign c) : isHex c = false := by
  rw [← Bool.not_eq_true, isHex_iff]
  rw [isSign_iff] at h
  omega

/-- A short run of digits is in the range of `short` whatever its sign. -/
theorem extractShort_isSome {str : Bytes} (short : hexNumber (shortDigits str) < 256) :
    (extractShort str).isSome ↔ shortDigits str ≠ [] := by
  unfold extractShort
  dsimp only
  generalize shortDigits str = digits at *
  by_cases none : digits = []
  · simp [none]
  -- Digits that spell less than 256 are in range with either sign.
  · cases (takeSign (str.dropWhile isSpace)).1
    · rw [if_neg (by simp [none]; omega)]
      simp [none]
    · rw [if_neg (by simp [none]; omega)]
      simp [none]

theorem shortDigits_single {a : Byte} :
    shortDigits [a] = if isHex a then [a] else [] := by
  unfold shortDigits
  by_cases space : isSpace a
  · simp [space, takeSign, dropHexMark, not_isHex_of_isSpace space]
  · by_cases sign : isSign a
    · simp [space, takeSign, sign, dropHexMark, not_isHex_of_isSign sign]
    · simp [space, takeSign, sign, dropHexMark, List.takeWhile_cons]

theorem shortDigits_pair {a b : Byte} :
    shortDigits [a, b] =
      if isSpace a ∨ isSign a then (if isHex b then [b] else [])
      else if a = ascii '0' ∧ isHexMark b then []
      else if isHex a then a :: (if isHex b then [b] else []) else [] := by
  by_cases space : isSpace a
  -- `a` is skipped, taken as a sign, or read as the first digit unless it opens a `0x`.
  · have : shortDigits [a, b] = shortDigits [b] := by simp [shortDigits, space]
    simp [this, shortDigits_single, space]
  · by_cases sign : isSign a
    · simp [shortDigits, space, takeSign, sign, dropHexMark, List.takeWhile_cons]
    · have digits : shortDigits [a, b] = (dropHexMark [a, b]).takeWhile isHex := by
        simp [shortDigits, space, takeSign, sign]
      rw [digits, if_neg (by simp [space, sign])]
      by_cases mark : a = ascii '0' ∧ isHexMark b
      · simp [dropHexMark, mark]
      · simp [dropHexMark, mark, List.takeWhile_cons]

theorem shortDigits_lt {a b : Byte} :
    hexNumber (shortDigits [a]) < 256 ∧ hexNumber (shortDigits [a, b]) < 256 := by
  rw [shortDigits_single, shortDigits_pair]
  constructor
  · split_ifs
    · exact hexNumber_single
    · decide
  · split_ifs
    all_goals first
      | exact hexNumber_single
      | exact hexNumber_pair
      | decide

theorem hexToChar_isOk {str : Bytes} (nonempty : str ≠ []) :
    (∃ c, hexToChar str = .ok c) ↔ (extractShort str).isSome := by
  unfold hexToChar
  rw [if_neg nonempty]
  cases extractShort str <;> simp

theorem hexToChar_isOk_iff (str : Bytes) (short : str.length ≤ 2) :
    (∃ c, hexToChar str = .ok c) ↔ EscapeReads str := by
  match str with
  | [] => exact ⟨fun _ => trivial, fun _ => ⟨0, rfl⟩⟩
  | [a] =>
    rw [hexToChar_isOk (by simp), extractShort_isSome (shortDigits_lt (b := a)).1,
      shortDigits_single]
    by_cases h : isHex a <;> simp [h, EscapeReads]
  | [a, b] =>
    rw [hexToChar_isOk (by simp), extractShort_isSome shortDigits_lt.2, shortDigits_pair]
    simp only [EscapeReads]
    by_cases space : isSpace a
    · simp [space, not_isHex_of_isSpace space]
    · by_cases sign : isSign a
      · simp [sign, not_isHex_of_isSign sign]
      · by_cases mark : a = ascii '0' ∧ isHexMark b <;> simp [space, sign, mark]
  | a :: b :: c :: rest => simp at short

theorem map_isOk {ε α β : Type} {x : Except ε α} {f : α → β} :
    (∃ b, f <$> x = .ok b) ↔ ∃ a, x = .ok a := by
  cases x <;> simp [Functor.map, Except.map]

theorem hexToChar_eq_error {str : Bytes} {fault : Fault} (h : hexToChar str = .error fault) :
    fault = .thrown (.runtimeError "stream decode failure") := by
  unfold hexToChar at h
  split_ifs at h
  split at h
  · cases h
  · simpa using h.symm

theorem urlDecode_eq_error {str : Bytes} {fault : Fault} (h : urlDecode str = .error fault) :
    fault = .thrown (.runtimeError "stream decode failure") := by
  induction str using urlDecode.induct with
  | case1 => cases h
  | case2 => cases h
  | case3 a =>
    cases hc : hexToChar [a] with
    | ok c => simp [urlDecode, hc, bind, Except.bind, pure, Except.pure] at h
    | error e =>
      simp only [urlDecode, if_pos, hc, bind, Except.bind, Except.error.injEq] at h
      exact h ▸ hexToChar_eq_error hc
  | case4 a b rest ih =>
    cases hc : hexToChar [a, b] with
    | ok c =>
      cases hd : urlDecode rest with
      | ok d => simp [urlDecode, hc, hd, bind, Except.bind, pure, Except.pure] at h
      | error e =>
        simp only [urlDecode, if_pos, hc, hd, bind, Except.bind, Except.error.injEq] at h
        exact ih (h ▸ hd)
    | error e =>
      simp only [urlDecode, if_pos, hc, bind, Except.bind, Except.error.injEq] at h
      exact h ▸ hexToChar_eq_error hc
  | case5 c rest other ih =>
    rw [urlDecode.eq_def] at h
    simp only [if_neg other] at h
    cases hd : urlDecode rest with
    | ok d => simp [hd, bind, Except.bind, pure, Except.pure] at h
    | error e =>
      simp only [hd, bind, Except.bind, Except.error.injEq] at h
      exact ih (h ▸ hd)

/-- `url_decode` returns iff every `'%'` it meets is followed by something it can read. -/
theorem decodable_iff (str : Bytes) : (∃ out, urlDecode str = .ok out) ↔ Decodable str := by
  induction str using urlDecode.induct with
  | case1 => exact ⟨fun _ => trivial, fun _ => ⟨_, rfl⟩⟩
  | case2 => exact ⟨fun _ => trivial, fun _ => ⟨_, rfl⟩⟩
  | case3 a =>
    simp only [urlDecode, Decodable, if_pos, bind_pure_comp, map_isOk]
    exact hexToChar_isOk_iff [a] (by simp)
  | case4 a b rest ih =>
    -- An escape in full: the two bytes must read, and the rest must decode.
    simp only [urlDecode, Decodable, if_pos, bind_pure_comp]
    rw [← ih, ← hexToChar_isOk_iff [a, b] (by simp)]
    simp only [Machine.bind_eq_ok]
    constructor
    · rintro ⟨out, c, hc, hout⟩
      exact ⟨⟨c, hc⟩, map_isOk.mp ⟨out, hout⟩⟩
    · rintro ⟨⟨c, hc⟩, decoded⟩
      obtain ⟨out, hout⟩ := map_isOk.mpr decoded
      exact ⟨out, c, hc, hout⟩
  | case5 c rest other ih =>
    -- Any other byte is copied.
    rw [Decodable.eq_def, urlDecode.eq_def]
    simp only [if_neg other, bind_pure_comp, map_isOk]
    exact ih

instance : DecidablePred Decodable := fun str =>
  decidable_of_iff ((urlDecode str).toBool = true) (by
    rw [← decodable_iff]
    cases urlDecode str <;> simp [Except.toBool])

end Viking
