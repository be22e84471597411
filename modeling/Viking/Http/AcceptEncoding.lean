/-
# What a client accepts

The value of `Accept-Encoding` is a list of codings with weights. `can_compress` looks for the
name of a coding as a text anywhere in it, so it takes a coding that the client refuses, or one
whose name is only part of another, for one that the client asks for. `negotiated_iff` says when
the coding of a reply is one that the client accepts.
-/

import Viking.Http.Assignments
import Viking.Lib.Delimited

namespace Viking.Http

/-! ## The grammar of the field -/

namespace AcceptEncoding

/-- A coding, or `*`, with its weight in thousandths. -/
structure Preference where
  coding : Bytes
  weight : Nat
  deriving DecidableEq, Repr

def isBlank (c : Byte) : Bool := c = ascii ' ' || c = ascii '\t'

/-- A text without the blanks around it. -/
def strip (text : Bytes) : Bytes := (text.dropWhile isBlank).rdropWhile isBlank

def isToken (text : Bytes) : Bool := text ≠ [] && text.all fun c => token c ≠ 0

/-- A weight: a number from 0 to 1 with three decimals at most. -/
def qvalue : Bytes → Option Nat
  | [] => none
  | [c] => if c = ascii '0' then some 0 else if c = ascii '1' then some 1000 else none
  | c :: dot :: decimals =>
    if dot = ascii '.' ∧ decimals.length ≤ 3 ∧ decimals.all isNum then
      if c = ascii '0' then
        some (decimalNumber (decimals ++ List.replicate (3 - decimals.length) (ascii '0')))
      else if c = ascii '1' ∧ decimals.all (· = ascii '0') then some 1000 else none
    else none

/-- What follows the semicolon. -/
def parameter : Bytes → Option Nat
  | q :: equals :: value =>
    if lower q = ascii 'q' ∧ equals = ascii '=' then qvalue value else none
  | _ => none

/-- One element of the list. -/
def preference (element : Bytes) : Option Preference :=
  match Delimited.cut (ascii ';') [] element with
  | none => if isToken element then some ⟨element, 1000⟩ else none
  | some (coding, rest) =>
    if isToken (strip coding) then (parameter (strip rest)).map fun weight => ⟨strip coding, weight⟩
    else none

/-- The list; an element may be left empty. -/
def preferences (value : Bytes) : Option (List Preference) :=
  (((Delimited.split (ascii ',') [] value).map strip).filter (· ≠ [])).mapM preference

/-- The elements that are about a coding: those that name it in upper or lower case, or if there
is none those that are `*`. -/
def about (coding : Bytes) (ps : List Preference) : List Preference :=
  let own := ps.filter fun p => uppercase p.coding = uppercase coding
  if own.isEmpty then ps.filter fun p => p.coding = bytes "*" else own

/-- The value gives the coding a weight other than zero. -/
def accepts (value coding : Bytes) : Bool :=
  match preferences value with
  | none => false
  | some ps => (about coding ps).any fun p => p.weight ≠ 0

example : accepts (bytes "br;q=1.0, GZIP ; q=0.8,, *;q=0.1") (bytes "gzip") = true ∧
    accepts (bytes "br;q=1.0, *;q=0.1") (bytes "gzip") = true ∧
    accepts (bytes "gzip;q=0, *;q=0.1") (bytes "gzip") = false ∧
    accepts (bytes "x-gzip") (bytes "gzip") = false := by
  decide

end AcceptEncoding

/-! ## The coding of a reply -/

/-- The client accepts a coding. -/
def Request.Accepts (req : Request) (coding : Bytes) : Prop :=
  ∃ value, req.header.lookup acceptEncodingField = some value ∧
    AcceptEncoding.accepts value coding = true

/-- A reply is coded only as the client accepts it. -/
def Negotiated (req : Request) (reply : Response) : Prop :=
  ∀ coding, reply.get contentEncodingField true = some coding → req.Accepts coding

/-- The response has a body that can be compressed. -/
def Construction.hasBody : Construction → Bool
  | .file _ => false
  | .request | .code _ | .text _ | .resource _ => true

section Coding

variable (platform : Platform) (config : Configuration) (req : Request)

/-- A new response with a body is coded as the request seems to accept it. -/
theorem compressed_make (code : StatusCode) {type : ResponseType} (res : Resource) (text : Bytes)
    (file : Option Io.UnixFile) (body : type ≠ .file) :
    (Response.make platform config req code type res text file).compressed =
      Response.coding config req := by
  rw [Response.make, Response.init_compressed, Response.prepared_fresh ?_ rfl]
  cases type with
  | resource | text => rfl
  | file => exact absurd rfl body

theorem compressed_start (construction : Construction) :
    (Assigned.start platform config req construction).response.compressed =
      if construction.hasBody then Response.coding config req else .none := by
  cases construction with
  | request => exact compressed_make platform config req _ _ _ _ (by simp)
  | code code => exact compressed_make platform config req _ _ _ _ (by simp)
  | text text => exact compressed_make platform config req _ _ _ _ (by simp)
  | resource resource => exact compressed_make platform config req _ _ _ _ (by simp)
  | file file =>
    have plain : (Response.make platform config req .ok .file .empty [] file).compressed =
        .none := by
      rw [Response.make, Response.init_compressed, Response.prepared_of_coded (.inl rfl)]
    cases file <;> exact plain

end Coding

/-- The reply that a constructor makes is coded only as the client accepts it iff that is not
compressed at all (compression is not enabled, there is no body, or neither coding is named in
the value), or the first of `deflate` and `gzip` that the value has as a text somewhere is a coding
that the client accepts. -/
theorem negotiated_iff (platform : Platform) (config : Configuration) (req : Request)
    (construction : Construction) :
    Negotiated req (Assigned.start platform config req construction).response ↔
      (config.enableCompression = true → construction.hasBody = true →
        (canCompress req (bytes "deflate") = true → req.Accepts (bytes "deflate")) ∧
        (canCompress req (bytes "deflate") = false → canCompress req (bytes "gzip") = true →
          req.Accepts (bytes "gzip"))) := by
  have named := (Assigned.sound_start platform config req construction).encoding
  rw [Negotiated, named, compressed_start]
  cases enabled : config.enableCompression <;> cases construction.hasBody <;>
    cases deflate : canCompress req (bytes "deflate") <;>
    cases gzip : canCompress req (bytes "gzip") <;>
    simp [Response.coding, enabled, deflate, gzip, CompressionType.name]

/-- A client that refuses `gzip` gets it. -/
theorem refused_coding_sent :
    ¬ ∀ (platform : Platform) (config : Configuration) (req : Request)
      (construction : Construction),
      Negotiated req (Assigned.start platform config req construction).response := by
  intro all
  let platform : Platform := ⟨[], id, id, fun _ => none, fun _ => [], .byName⟩
  let req : Request := ⟨.get, ⟨1, 1⟩, Finmap.singleton acceptEncodingField (bytes "gzip;q=0"),
    bytes "/", []⟩
  have coded : (Assigned.start platform ⟨[], 0, true⟩ req (.text (bytes "hello"))).response.get
      contentEncodingField true = some (bytes "gzip") := by
    rw [(Assigned.sound_start platform ⟨[], 0, true⟩ req (.text (bytes "hello"))).encoding,
      compressed_start]
    decide +kernel
  obtain ⟨value, given, accepted⟩ :=
    all platform ⟨[], 0, true⟩ req (.text (bytes "hello")) (bytes "gzip") coded
  have same : value = bytes "gzip;q=0" := by
    rw [Finmap.lookup_singleton_eq] at given
    exact (Option.some.inj given).symm
  rw [same] at accepted
  exact absurd accepted (by decide)

end Viking.Http
