/-
# Responses

`Response` is `http::response` with the operations of `http/response.cpp` that make
one, and the serializer that turns it into bytes. A response holds the request it
answers, and what it sends is a text, a resource held in memory, or a file that the
scheduler sends after the header.

What a response takes from outside `src/` is in `Platform`: the clock, the coders of
zlib, the table of MIME types, the output of a shell command, and the order in which
an `unordered_map` is traversed.
-/

import Mathlib.Data.Finset.Sort
import Mathlib.Data.List.DropRight
import Mathlib.Data.List.Lex
import Viking.Http.Request
import Viking.Io.Buffers

namespace Viking.Http

/-- `http::status_code` -/
abbrev StatusCode := Nat

namespace StatusCode

def ok : StatusCode := 200
def found : StatusCode := 302
def badRequest : StatusCode := 400
def notFound : StatusCode := 404
def unsupportedMediaType : StatusCode := 415
def internalServerError : StatusCode := 500

end StatusCode

/-- `http::status_codes` -/
def statusCodes : List (StatusCode × Bytes) :=
  [(.ok, bytes "OK"), (.badRequest, bytes "Bad Request"), (.found, bytes "Found"),
   (.notFound, bytes "Not Found"), (.unsupportedMediaType, bytes "Unsupported Media Type"),
   (.internalServerError, bytes "Internal Server Error")]

/-! ## The fields a response sets, from `http::header::fields` -/

def cacheControlField : Bytes := bytes "Cache-Control"
def contentTypeField : Bytes := bytes "Content-Type"
def dateField : Bytes := bytes "Date"
def connectionField : Bytes := bytes "Connection"
def accessControlAllowOriginField : Bytes := bytes "Access-Control-Allow-Origin"
def contentEncodingField : Bytes := bytes "Content-Encoding"
def transferEncodingField : Bytes := bytes "Transfer-Encoding"
def locationField : Bytes := bytes "Location"

/-- `std::to_string` of an unsigned number -/
def toText (n : Nat) : Bytes := bytes (toString n)

/-- The order in which an `unordered_map` is traversed: each entry comes up once. -/
structure Traversal where
  entries : Fields → List (Bytes × Bytes)
  nodup : ∀ fields, ((entries fields).map Prod.fst).Nodup
  mem_iff : ∀ fields name value,
    (name, value) ∈ entries fields ↔ fields.lookup name = some value

/-- How names are compared in `Traversal.byName`. -/
def nameLe (a b : Bytes) : Prop := a.map UInt8.toNat ≤ b.map UInt8.toNat

instance : DecidableRel nameLe := fun a b =>
  inferInstanceAs (Decidable (a.map UInt8.toNat ≤ b.map UInt8.toNat))

instance : IsTrans Bytes nameLe := ⟨fun _ _ _ => le_trans⟩

instance : Std.Total nameLe := ⟨fun _ _ => le_total _ _⟩

instance : Std.Antisymm nameLe := ⟨fun _ _ h h' =>
  List.map_injective_iff.mpr (fun _ _ => UInt8.toNat_inj.mp) (le_antisymm h h')⟩

/-- A traversal there can be: the entries in the order of their names. -/
def Traversal.byName : Traversal where
  entries fields := (fields.keys.sort nameLe).map fun name =>
    (name, (Finmap.lookup name fields).getD [])
  nodup fields := by
    rw [List.map_map]
    simp [Function.comp_def]
  mem_iff fields name value := by
    simp only [List.mem_map, Finset.mem_sort, Prod.mk.injEq, Finmap.mem_keys]
    constructor
    · rintro ⟨_, mem, rfl, rfl⟩
      obtain ⟨value, h⟩ := Finmap.mem_iff.mp mem
      rw [h, Option.getD_some]
    · intro h
      exact ⟨name, Finmap.mem_iff.mpr ⟨value, h⟩, rfl, by rw [h, Option.getD_some]⟩

/-- What the program finds outside. -/
structure Platform where
  /-- `date::now().to_string()` -/
  now : Bytes
  deflate : Bytes → Bytes
  gzip : Bytes → Bytes
  /-- `mime_types`; `operator[]` gives the empty string for a name that is not there -/
  mimeTypes : Bytes → Option Bytes
  /-- what a command prints that `popen` runs -/
  shell : Bytes → Bytes
  traversal : Traversal

/-- The members of `configuration` that responses depend on. -/
structure Configuration where
  rootPath : Bytes
  defaultMaxAge : Nat
  enableCompression : Bool

/-! ## MIME types -/

/-- The bytes behind the last occurrence of `c`, if there is one. -/
def afterLast (c : Byte) : Bytes → Option Bytes
  | [] => none
  | b :: rest =>
    match afterLast c rest with
    | some text => some text
    | none => if b = c then some rest else none

/-- `io::get_extension`: what follows the last dot, unless that dot is the first byte or
a slash follows it. -/
def getExtension (path : Bytes) : Bytes :=
  match afterLast (ascii '.') path with
  | none => []
  | some ext =>
    if ext.length + 1 = path.length then []
    -- the dot belongs to a directory further up
    else if ascii '/' ∈ ext then [] else ext

/-- `shell_get_mimetype` -/
def shellGetMimetype (platform : Platform) (path : Bytes) : Bytes :=
  let output := platform.shell (bytes "file --mime-type " ++ path)
  let output := output.rdropWhile isSpace
  -- a blank is expected after the colon
  match output.dropWhile (· ≠ ascii ':') with
  | _ :: _ :: rest => rest
  | _ => []

/-- `util::get_mimetype` -/
def getMimetype (platform : Platform) (path : Bytes) : Bytes :=
  let ext := getExtension path
  -- an extension that the table lacks does not fall back to the shell
  if ext ≠ [] then (platform.mimeTypes ext).getD [] else shellGetMimetype platform path

/-! ## `http::response` -/

/-- `resource`; the coded forms are computed when they are needed. -/
structure Resource where
  path : Bytes
  lastWrite : Nat
  raw : Bytes
  deflated : Bytes
  gzipped : Bytes
  deriving DecidableEq

namespace Resource

/-- `resource()` -/
def empty : Resource := ⟨[], 0, [], [], []⟩

/-- `resource::operator bool` -/
def toBool (resource : Resource) : Bool := resource.raw ≠ []

end Resource

/-- `response::type` -/
inductive ResponseType
  | resource
  | file
  | text
  deriving DecidableEq, Repr

/-- `response::compression_type` -/
inductive CompressionType
  | deflate
  | gzip
  | none
  deriving DecidableEq, Repr

structure Response where
  fields : Fields
  version : HttpVersion
  req : Request
  code : StatusCode
  type : ResponseType
  res : Resource
  text : Bytes
  compressed : CompressionType
  file : Option Io.UnixFile

namespace Response

/-- `set` replaces the value of a field that is there. -/
def set (r : Response) (field value : Bytes) : Response :=
  { r with fields := Finmap.insert field value r.fields }

/-- `get`; with `fromReq` it looks into the fields of the response itself. -/
def get (r : Response) (str : Bytes) (fromReq : Bool) : Option Bytes :=
  if fromReq then Finmap.lookup str r.fields else Finmap.lookup str r.req.header

/-- `body_available` -/
def bodyAvailable (r : Response) : Bool := r.type = .resource || r.type = .text

/-- `body` -/
def body (r : Response) : Except Fault Bytes :=
  match r.type with
  | .resource =>
    match r.compressed with
    | .deflate => .ok r.res.deflated
    | .gzip => .ok r.res.gzipped
    | .none => .ok r.res.raw
  | .text => .ok r.text
  | .file => .error (.thrown .bodyUnavailable)

/-- `get_keep_alive` -/
def getKeepAlive (r : Response) : Bool :=
  match Finmap.lookup connectionField r.fields with
  | some value => uppercase value = bytes "KEEP-ALIVE"
  -- a response without the field keeps the connection
  | none => true

/-- `try_to_compress` -/
def tryToCompress (platform : Platform) (r : Response) : Response :=
  if r.bodyAvailable && r.compressed = .none then
    match r.type with
    | .resource =>
      if canCompress r.req (bytes "deflate") then
        let deflated := if r.res.deflated = [] then platform.deflate r.res.raw else r.res.deflated
        -- only the copy in this response is filled in, not the cached resource
        { r.set contentEncodingField (bytes "deflate") with
          res := { r.res with deflated := deflated }, compressed := .deflate }
      else if canCompress r.req (bytes "gzip") then
        let gzipped := if r.res.gzipped = [] then platform.gzip r.res.raw else r.res.gzipped
        { r.set contentEncodingField (bytes "gzip") with
          res := { r.res with gzipped := gzipped }, compressed := .gzip }
      else r
    | .text =>
      if canCompress r.req (bytes "deflate") then
        { r.set contentEncodingField (bytes "deflate") with
          text := platform.deflate r.text, compressed := .deflate }
      else if canCompress r.req (bytes "gzip") then
        { r.set contentEncodingField (bytes "gzip") with
          text := platform.gzip r.text, compressed := .gzip }
      else r
    | .file => r
  else r

/-- `str.find(sub) != npos` -/
def contains (str sub : Bytes) : Bool := str.tails.any sub.isPrefixOf

/-- `init` -/
def init (platform : Platform) (config : Configuration) (r : Response) : Response :=
  let r := if config.enableCompression then r.tryToCompress platform else r
  let r := { r with version := ⟨1, 1⟩ }
  let r := r.set dateField platform.now
  let r := r.set accessControlAllowOriginField (bytes "*")
  let r := r.set contentTypeField (bytes "text/plain; charset=utf-8")
  let r := r.set transferEncodingField (bytes "binary")
  let r :=
    -- the response's own fields are searched, not those of the request
    match r.get connectionField true with
    | some status => r.set connectionField status
    | none => r.set connectionField (bytes "Close")
  let r :=
    match r.get cacheControlField true with
    | some control =>
      if contains control (bytes "no-cache") then r
      else r.set cacheControlField (bytes "max-age=" ++ toText config.defaultMaxAge)
    | none => r
  -- `content_len` is the length of `body`, which does not throw here
  match r.body with
  | .ok body => r.set contentLengthField (toText body.length)
  | .error _ => r

/-- What the constructors have in common: they set the type and call `init`. -/
def make (platform : Platform) (config : Configuration) (req : Request) (code : StatusCode)
    (type : ResponseType) (res : Resource) (text : Bytes) (file : Option Io.UnixFile) : Response :=
  init platform config ⟨∅, ⟨0, 0⟩, req, code, type, res, text, .none, file⟩

/-- `response(request, unix_file *)` -/
def ofFile (platform : Platform) (config : Configuration) (req : Request)
    (file : Option Io.UnixFile) : Response :=
  let r := make platform config req .ok .file .empty [] file
  match file with
  | some file =>
    (r.set contentTypeField (getMimetype platform file.path)).set contentLengthField
      (toText file.size)
  | none => r

/-- `response(request, status_code)` -/
def ofCode (platform : Platform) (config : Configuration) (req : Request)
    (code : StatusCode) : Response :=
  make platform config req code .text .empty [] none

/-- `response(request, const std::string &)` -/
def ofText (platform : Platform) (config : Configuration) (req : Request)
    (text : Bytes) : Response :=
  make platform config req .ok .text .empty text none

/-- `response(request, const resource &)` -/
def ofResource (platform : Platform) (config : Configuration) (req : Request)
    (resource : Resource) : Response :=
  (make platform config req .ok .resource resource [] none).set contentTypeField
    (getMimetype platform resource.path)

/-! ## What stays when a response is built -/

section Kind

variable {platform : Platform} {config : Configuration} {r r' r'' : Response}

/-- The response keeps the code and the type that it has. -/
def SameKind (r r' : Response) : Prop := r'.code = r.code ∧ r'.type = r.type

theorem SameKind.trans (h : SameKind r r') (h' : SameKind r' r'') : SameKind r r'' :=
  ⟨h'.1.trans h.1, h'.2.trans h.2⟩

theorem sameKind_set (r : Response) (field value : Bytes) : SameKind r (r.set field value) :=
  ⟨rfl, rfl⟩

theorem sameKind_tryToCompress : SameKind r (r.tryToCompress platform) := by
  unfold tryToCompress
  -- Each branch changes the text, the resource or a field.
  cases type : r.type <;> simp only <;> split_ifs <;> exact ⟨rfl, type.symm ▸ rfl⟩

theorem sameKind_init : SameKind r (r.init platform config) := by
  unfold init
  -- The stages of `init`, one after the other; those that only set a field need no lemma.
  extract_lets r₁ r₂ r₃ r₄ r₅ r₆ r₇ r₈
  have compressed : SameKind r r₁ := by
    simp only [r₁]
    split_ifs
    · exact sameKind_tryToCompress
    · exact ⟨rfl, rfl⟩
  have connected : SameKind r r₇ := by
    apply compressed.trans
    simp only [r₇]
    split <;> exact ⟨rfl, rfl⟩
  have cached : SameKind r r₈ := by
    apply connected.trans
    simp only [r₈]
    split
    · split_ifs <;> exact ⟨rfl, rfl⟩
    · exact ⟨rfl, rfl⟩
  apply cached.trans
  split <;> exact ⟨rfl, rfl⟩

/-- The code is in the table of codes and there is a body, so the response can be
serialised. -/
def Sendable (r : Response) : Prop :=
  (statusCodes.lookup r.code).isSome ∧ r.bodyAvailable = true

theorem SameKind.sendable (h : SameKind r r') (sendable : r.Sendable) : r'.Sendable := by
  refine ⟨h.1 ▸ sendable.1, ?_⟩
  rw [bodyAvailable, h.2]
  exact sendable.2

theorem make_sendable {req : Request} {code : StatusCode} {type : ResponseType} {res : Resource}
    {text : Bytes} {file : Option Io.UnixFile} (known : (statusCodes.lookup code).isSome)
    (body : type ≠ .file) : (make platform config req code type res text file).Sendable := by
  apply sameKind_init.sendable
  refine ⟨known, ?_⟩
  cases type with
  | resource | text => rfl
  | file => exact absurd rfl body

end Kind

end Response

/-! ## `response_serializer` -/

namespace Serializer

def crlf : Bytes := bytes "\r\n"

/-- One line of the header block. -/
def fieldLine (field : Bytes × Bytes) : Bytes := field.1 ++ bytes ": " ++ field.2 ++ crlf

/-- `make_header`; `status_codes.at` throws on a code that the table does not hold. -/
def makeHeader (traversal : Traversal) (r : Response) : Except Fault Bytes :=
  noexcept <|
    match statusCodes.lookup r.code with
    | none => .error (.thrown .outOfRange)
    | some reason =>
      .ok (bytes "HTTP/" ++ toText r.version.major ++ bytes "." ++ toText r.version.minor ++
        bytes " " ++ toText r.code ++ bytes " " ++ reason ++ crlf ++
        (traversal.entries r.fields).flatMap fieldLine ++ crlf)

/-- `make_body` -/
def makeBody (r : Response) : Except Fault Bytes := noexcept r.body

/-- `make_ending` -/
def makeEnding : Bytes := bytes "\r\n\r\n"

/-- `operator()` -/
def serialize (traversal : Traversal) (r : Response) : Except Fault Bytes := do
  let header ← makeHeader traversal r
  let body ← makeBody r
  return header ++ body ++ makeEnding

theorem makeHeader_isOk_iff (traversal : Traversal) {r : Response} :
    (∃ text, makeHeader traversal r = .ok text) ↔ (statusCodes.lookup r.code).isSome := by
  cases h : statusCodes.lookup r.code <;> simp [makeHeader, h, noexcept]

theorem makeBody_isOk_iff {r : Response} :
    (∃ text, makeBody r = .ok text) ↔ r.bodyAvailable = true := by
  cases type : r.type <;> cases compressed : r.compressed <;>
    simp [makeBody, Response.body, Response.bodyAvailable, type, compressed, noexcept]

/-- Which responses are serialised: those with a code that the table holds and a body. -/
theorem serialize_isOk_iff {traversal : Traversal} {r : Response} :
    (∃ text, serialize traversal r = .ok text) ↔ r.Sendable := by
  rw [Response.Sendable, ← makeHeader_isOk_iff traversal, ← makeBody_isOk_iff]
  constructor
  · rintro ⟨text, h⟩
    obtain ⟨header, hheader, h⟩ := Machine.bind_eq_ok.mp h
    obtain ⟨body, hbody, -⟩ := Machine.bind_eq_ok.mp h
    exact ⟨⟨header, hheader⟩, ⟨body, hbody⟩⟩
  -- Neither part can fail now, and the ending never does.
  · rintro ⟨⟨header, hheader⟩, ⟨body, hbody⟩⟩
    exact ⟨header ++ body ++ makeEnding, by
      simp [serialize, hheader, hbody, bind, Except.bind, pure, Except.pure]⟩

/-- What is serialised is never empty. -/
theorem serialize_ne_nil {traversal : Traversal} {r : Response} {text : Bytes}
    (h : serialize traversal r = .ok text) : text ≠ [] := by
  obtain ⟨header, -, h⟩ := Machine.bind_eq_ok.mp h
  obtain ⟨body, -, h⟩ := Machine.bind_eq_ok.mp h
  simp only [pure, Except.pure, Except.ok.injEq] at h
  rw [← h]
  -- Whatever the header and the body are, the ending follows.
  apply List.append_ne_nil_of_right_ne_nil
  decide

end Serializer

end Viking.Http
