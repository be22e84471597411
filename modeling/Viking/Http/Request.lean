/-
# Requests

`Request` is `http::request`, and the functions are those of `http/util.cpp` that
look at a request alone. The header is an `unordered_map` whose `insert` never
replaces a value, so the first value of a name is the one that counts.
-/

import Mathlib.Data.Finmap
import Viking.Http.Parser

namespace Viking.Http

/-- `http::http_version` -/
structure HttpVersion where
  major : Nat
  minor : Nat
  deriving DecidableEq, Repr

/-- `m_fields` of `http::header` -/
abbrev Fields := Finmap fun _ : Bytes => Bytes

/-- `get_fields().insert(std::make_pair(name, value))` -/
def Fields.insert (fields : Fields) (name value : Bytes) : Fields :=
  fields ∪ Finmap.singleton name value

/-- `http::header::fields::Content_Length` -/
def contentLengthField : Bytes := bytes "Content-Length"

/-- `http::header::fields::Accept_Encoding` -/
def acceptEncodingField : Bytes := bytes "Accept-Encoding"

/-- `http::request` -/
structure Request where
  method : Method
  version : HttpVersion
  header : Fields
  url : Bytes
  body : Bytes
  deriving DecidableEq

/-! ## `http/util.cpp` -/

/-- `util::is_passable` -/
def isPassable (request : Request) : Bool :=
  match request.method with
  | .get | .post | .put | .delete | .head => true
  | _ => false

/-- `util::can_have_body` -/
def canHaveBody : Method → Bool
  | .put | .post | .options => true
  | _ => false

/-- The number that decimal digits spell. -/
def decimalNumber (digits : Bytes) : Nat := digits.foldl (fun acc c => 10 * acc + digit c) 0

/-- `atoi`, which narrows the saturated result of `strtol` to an `int`. -/
def atoi (str : Bytes) : Int :=
  let signed := takeSign (str.dropWhile isSpace)
  let digits := signed.2.takeWhile isNum
  let value : Int := if signed.1 then -(decimalNumber digits : Int) else decimalNumber digits
  -- `strtol` saturates at 64 bits, the conversion to `int` keeps the low 32
  Int.bmod (max (-2 ^ 63) (min (2 ^ 63 - 1) value)) (2 ^ 32)

/-- `static_cast<std::size_t>` of an `int` -/
def toSize (i : Int) : Nat := (i % 2 ^ 64).toNat

/-- The length `util::is_complete` reads off a content length. -/
def announced (value : Bytes) : Nat := toSize (atoi value)

/-- `util::is_complete` -/
def isComplete (request : Request) : Bool :=
  if canHaveBody request.method then
    match request.header.lookup contentLengthField with
    | some value => !(request.body.length < announced value : Bool)
    -- no content length: the body is taken to be all there
    | none => true
  else true

/-- `get_content_enc_text` -/
def getContentEncText (request : Request) : Bytes :=
  (request.header.lookup acceptEncodingField).getD []

/-- `util::can_compress` -/
def canCompress (request : Request) (compressionType : Bytes) : Bool :=
  (getContentEncText request).tails.any compressionType.isPrefixOf

/-! ## Announced lengths -/

theorem isNum_iff {c : Byte} : isNum c = true ↔ 48 ≤ c.toNat ∧ c.toNat ≤ 57 := by
  simp only [isNum, Bool.and_eq_true, decide_eq_true_eq, UInt8.le_iff_toNat_le]
  rfl

/-- A value that begins with a digit announces the number that its first digits spell, or
what is left of it. -/
theorem announced_of_isNum {value : Bytes} (start : (value.head?.any isNum) = true) :
    announced value =
      toSize (Int.bmod (min (2 ^ 63 - 1) (decimalNumber (value.takeWhile isNum))) (2 ^ 32)) := by
  cases value with
  | nil => cases start
  | cons c rest =>
    have between := isNum_iff.mp (show isNum c = true from start)
    have space : isSpace c = false := by
      rw [Bool.eq_false_iff, ne_eq, isSpace_iff]
      omega
    have sign : isSign c = false := by
      rw [Bool.eq_false_iff, ne_eq, isSign_iff]
      omega
    have least (n : ℕ) :
        max (-2 ^ 63) (min (2 ^ 63 - 1) (n : Int)) = min (2 ^ 63 - 1) (n : Int) := by
      omega
    simp only [announced, atoi, List.dropWhile_cons, space, takeSign, sign, Bool.false_eq_true,
      if_false, least]

/-- A length of less than 31 bits is announced as it is. -/
theorem announced_of_lt {value : Bytes} (start : (value.head?.any isNum) = true)
    (small : decimalNumber (value.takeWhile isNum) < 2 ^ 31) :
    announced value = decimalNumber (value.takeWhile isNum) := by
  have bmod (n : ℕ) (small : n < 2 ^ 31) : Int.bmod (min (2 ^ 63 - 1) n) (2 ^ 32) = n := by
    rw [min_eq_right (by omega), Int.bmod_eq_of_le (by omega) (by omega)]
  rw [announced_of_isNum start, bmod _ small, toSize]
  omega

/-! ## Completion -/

/-- A request is held back iff its method may have a body and the content length it
has announces more than has come. -/
theorem isComplete_eq_false (request : Request) :
    isComplete request = false ↔ canHaveBody request.method = true ∧
      ∃ value, request.header.lookup contentLengthField = some value ∧
        request.body.length < announced value := by
  unfold isComplete
  split_ifs with may
  · cases request.header.lookup contentLengthField <;> simp [may]
  · simp [may]

end Viking.Http
