/-
# Reading a header back

`readHeader` takes a header block apart at its line ends, the status line at its blanks and
each field line at its first colon and blank. `readHeader_makeHeader` says that this gives
back what `make_header` was given, as long as no name or value holds a separator, in
whatever order the map of fields is traversed.
-/

import Viking.Http.Fields
import Viking.Lib.Delimited

namespace Viking.Http

open Delimited Serializer

/-! ## The reader -/

/-- `HTTP/`, the two numbers of the version, the code and the reason phrase. -/
def readStatus (line : Bytes) : Option (HttpVersion × StatusCode × Bytes) :=
  -- each part comes with what is left of the line behind it
  (cut (ascii '/') [] line).bind fun protocol =>
    (cut (ascii '.') [] protocol.2).bind fun major =>
      (cut (ascii ' ') [] major.2).bind fun minor =>
        (cut (ascii ' ') [] minor.2).bind fun code =>
          if protocol.1 = bytes "HTTP" then
            some (⟨decimalNumber major.1, decimalNumber minor.1⟩, decimalNumber code.1, code.2)
          else none

/-- A name and what follows the first colon and blank. -/
def readField (line : Bytes) : Option (Bytes × Bytes) := cut (ascii ':') [ascii ' '] line

/-- The status line, the fields and an empty line with nothing behind it. -/
def readHeader (text : Bytes) : Option (HttpVersion × StatusCode × Bytes × List (Bytes × Bytes)) :=
  let lines := split (ascii '\r') [ascii '\n'] text
  if lines.drop (lines.length - 2) = [[], []] then
    (lines.head?.bind readStatus).bind fun status =>
      (((lines.drop 1).take (lines.length - 3)).mapM readField).map fun fields =>
        (status.1, status.2.1, status.2.2, fields)
  else none

/-! ## Headers that can be read back -/

/-- The enumerators of `status_code`. -/
def StatusCode.all : List StatusCode :=
  [.ok, .found, .badRequest, .notFound, .unsupportedMediaType, .internalServerError]

/-- The code is an enumerator, and no name or value holds what separates them. -/
structure Separable (r : Response) : Prop where
  code : r.code ∈ StatusCode.all
  names : ∀ name ∈ r.fields,
    name ≠ [] ∧ ascii ':' ∉ name ∧ ascii '\r' ∉ name ∧ ascii '\n' ∉ name
  values : ∀ name value, r.fields.lookup name = some value →
    ascii '\r' ∉ value ∧ ascii '\n' ∉ value

/-- The first line of the header, without its end. -/
def statusLine (r : Response) (reason : Bytes) : Bytes :=
  bytes "HTTP/" ++ toText r.version.major ++ bytes "." ++ toText r.version.minor ++
    bytes " " ++ toText r.code ++ bytes " " ++ reason

section Reading

variable {traversal : Traversal} {r : Response} {reason : Bytes}

/-- A byte that is no digit does not stand in a printed number. -/
theorem notMem_toText {c : Byte} (other : isNum c = false) (n : ℕ) : c ∉ toText n := by
  intro mem
  rw [(numeral_toText n).2 c mem] at other
  cases other

theorem readStatus_statusLine (r : Response) (reason : Bytes) :
    readStatus (statusLine r reason) = some (r.version, r.code, reason) := by
  have protocol : ascii '/' ∉ bytes "HTTP" := by decide
  have major := notMem_toText (c := ascii '.') (by decide) r.version.major
  have minor := notMem_toText (c := ascii ' ') (by decide) r.version.minor
  have code := notMem_toText (c := ascii ' ') (by decide) r.code
  have line : statusLine r reason = bytes "HTTP" ++ ascii '/' :: ([] ++ (toText r.version.major ++
      ascii '.' :: ([] ++ (toText r.version.minor ++ ascii ' ' :: ([] ++ (toText r.code ++
        ascii ' ' :: ([] ++ reason))))))) := by
    simp only [statusLine, List.append_assoc]
    rfl
  rw [line, readStatus, cut_append protocol, Option.bind_some, cut_append major, Option.bind_some,
    cut_append minor, Option.bind_some, cut_append code, Option.bind_some, if_pos rfl]
  simp only [decimalNumber_toText]

/-- Every enumerator has a reason phrase, which is on one line. -/
theorem exists_reason (known : r.code ∈ StatusCode.all) :
    ∃ reason, statusCodes.lookup r.code = some reason ∧ ascii '\r' ∉ reason := by
  have table : ∀ code ∈ StatusCode.all, ∃ reason ∈ statusCodes.lookup code,
      ascii '\r' ∉ reason := by
    decide
  exact table r.code known

theorem cr_notMem_statusLine (plain : ascii '\r' ∉ reason) : ascii '\r' ∉ statusLine r reason := by
  have number (n : ℕ) := notMem_toText (c := ascii '\r') (by decide) n
  have texts : ascii '\r' ∉ bytes "HTTP/" ∧ ascii '\r' ∉ bytes "." ∧ ascii '\r' ∉ bytes " " := by
    decide
  simp only [statusLine, List.mem_append, not_or]
  exact ⟨⟨⟨⟨⟨⟨⟨texts.1, number _⟩, texts.2.1⟩, number _⟩, texts.2.2⟩, number _⟩, texts.2.2⟩, plain⟩

/-- One field as it stands on its line. -/
def fieldText (field : Bytes × Bytes) : Bytes := field.1 ++ bytes ": " ++ field.2

theorem readField_fieldText {field : Bytes × Bytes} (plain : ascii ':' ∉ field.1) :
    readField (fieldText field) = some field := by
  have line : fieldText field = field.1 ++ ascii ':' :: ([ascii ' '] ++ field.2) := by
    simp only [fieldText, List.append_assoc]
    rfl
  rw [line, readField, cut_append plain]

theorem cr_notMem_fieldText {field : Bytes × Bytes} (name : ascii '\r' ∉ field.1)
    (value : ascii '\r' ∉ field.2) : ascii '\r' ∉ fieldText field := by
  have colon : ascii '\r' ∉ bytes ": " := by decide
  simp only [fieldText, List.mem_append, not_or]
  exact ⟨⟨name, colon⟩, value⟩

/-- The fields that are traversed hold no separator. -/
theorem Separable.entries (separable : Separable r) {field : Bytes × Bytes}
    (mem : field ∈ traversal.entries r.fields) :
    ascii ':' ∉ field.1 ∧ ascii '\r' ∉ fieldText field := by
  have there := (traversal.mem_iff r.fields field.1 field.2).mp mem
  obtain ⟨-, colon, name, -⟩ := separable.names field.1 (Finmap.mem_of_lookup_eq_some there)
  exact ⟨colon, cr_notMem_fieldText name (separable.values field.1 field.2 there).1⟩

/-- The lines of a header, each with its end. -/
theorem makeHeader_eq_lines (known : statusCodes.lookup r.code = some reason) :
    makeHeader traversal r = .ok ((statusLine r reason ::
      ((traversal.entries r.fields).map fieldText ++ [[]])).flatMap
        (· ++ ascii '\r' :: [ascii '\n']) ++ []) := by
  have lines : ∀ fields : List (Bytes × Bytes),
      fields.flatMap fieldLine = (fields.map fieldText).flatMap (· ++ crlf) := by
    intro fields
    rw [List.flatMap_map]
    rfl
  have ends : ascii '\r' :: [ascii '\n'] = crlf := rfl
  simp only [makeHeader, known, noexcept, lines, ends, statusLine, List.flatMap_cons,
    List.flatMap_append, List.flatMap_nil, List.append_nil, List.append_assoc, List.nil_append]

/-- The header is read back as what it was made of. -/
theorem readHeader_lines (traversal : Traversal) (separable : Separable r)
    (plain : ascii '\r' ∉ reason) :
    readHeader ((statusLine r reason ::
      ((traversal.entries r.fields).map fieldText ++ [[]])).flatMap
        (· ++ ascii '\r' :: [ascii '\n']) ++ []) =
      some (r.version, r.code, reason, traversal.entries r.fields) := by
  have parts : ∀ line ∈ statusLine r reason ::
      ((traversal.entries r.fields).map fieldText ++ [[]]), ascii '\r' ∉ line := by
    simp only [List.mem_cons, List.mem_append, List.mem_map, List.not_mem_nil, or_false]
    rintro line (rfl | ⟨field, mem, rfl⟩ | rfl)
    · exact cr_notMem_statusLine plain
    · exact (separable.entries mem).2
    · exact List.not_mem_nil
  have fields : ((traversal.entries r.fields).map fieldText).mapM readField =
      some (traversal.entries r.fields) := by
    have all : ∀ entries : List (Bytes × Bytes), (∀ field ∈ entries, ascii ':' ∉ field.1) →
        (entries.map fieldText).mapM readField = some entries := by
      intro entries plain
      induction entries with
      | nil => rfl
      | cons field entries ih =>
        rw [List.forall_mem_cons] at plain
        rw [List.map_cons, List.mapM_cons, readField_fieldText plain.1, ih plain.2]
        rfl
    exact all _ fun field mem => (separable.entries mem).1
  rw [readHeader, split_flatMap parts, split_nil]
  generalize texts : (traversal.entries r.fields).map fieldText = lines at fields
  -- Behind the status line and the fields come the empty line and nothing.
  have length : (statusLine r reason :: (lines ++ [[]]) ++ [[]]).length - 2 = lines.length + 1 := by
    simp
  have last : (statusLine r reason :: (lines ++ [[]]) ++ [[]]).drop (lines.length + 1) =
      [[], []] := by
    simp
  have middle : ((statusLine r reason :: (lines ++ [[]]) ++ [[]]).drop 1).take
      ((statusLine r reason :: (lines ++ [[]]) ++ [[]]).length - 3) = lines := by
    simp
  simp only [length, last, if_true, middle, fields]
  simp [readStatus_statusLine]

/-- Whatever is read as the fields of a map determines it. -/
theorem fields_eq_of_entries {traversal' : Traversal} {r' : Response}
    (same : traversal'.entries r'.fields = traversal.entries r.fields) : r'.fields = r.fields := by
  refine Finmap.ext_lookup fun name => Option.ext fun value => ?_
  rw [← traversal'.mem_iff, ← traversal.mem_iff, same]

end Reading

/-- A response whose names and values hold no separator has a header that is read back as
its version, its code with the reason phrase, and the fields, each once; another such
response with the same header has the same version, code and fields. -/
theorem readHeader_makeHeader (traversal : Traversal) {r : Response} (separable : Separable r) :
    (∃ text reason fields, makeHeader traversal r = .ok text ∧
      statusCodes.lookup r.code = some reason ∧
      readHeader text = some (r.version, r.code, reason, fields) ∧
      (fields.map Prod.fst).Nodup ∧
      ∀ name value, (name, value) ∈ fields ↔ r.fields.lookup name = some value) ∧
    ∀ (traversal' : Traversal) (r' : Response), Separable r' →
      makeHeader traversal' r' = makeHeader traversal r →
        r'.version = r.version ∧ r'.code = r.code ∧ r'.fields = r.fields := by
  obtain ⟨reason, known, plain⟩ := exists_reason separable.code
  refine ⟨⟨_, reason, traversal.entries r.fields, makeHeader_eq_lines known, known,
    readHeader_lines traversal separable plain, traversal.nodup r.fields,
    traversal.mem_iff r.fields⟩, ?_⟩
  intro traversal' r' separable' same
  obtain ⟨reason', known', plain'⟩ := exists_reason separable'.code
  rw [makeHeader_eq_lines known, makeHeader_eq_lines known', Except.ok.injEq] at same
  -- Both are read from the same bytes.
  have read := readHeader_lines traversal' separable' plain'
  rw [same, readHeader_lines traversal separable plain] at read
  simp only [Option.some.injEq, Prod.mk.injEq] at read
  obtain ⟨version, code, -, entries⟩ := read
  exact ⟨version.symm, code.symm, fields_eq_of_entries entries.symm⟩

/-- A header with one field, whose value has a colon and a blank of its own. -/
theorem readHeader_makeHeader_colon :
    let r : Response := ⟨Finmap.singleton (bytes "Server") (bytes "a: b"), ⟨1, 1⟩,
      ⟨.get, ⟨1, 1⟩, ∅, bytes "/", []⟩, .ok, .text, .empty, [], .none, none⟩
    ∃ text reason fields, makeHeader .byName r = .ok text ∧
      statusCodes.lookup r.code = some reason ∧
      readHeader text = some (r.version, r.code, reason, fields) ∧
      (fields.map Prod.fst).Nodup ∧
      ∀ name value, (name, value) ∈ fields ↔ r.fields.lookup name = some value := by
  intro r
  have only {name value : Bytes} (there : r.fields.lookup name = some value) :
      name = bytes "Server" ∧ value = bytes "a: b" := by
    have same : name = bytes "Server" :=
      (Finmap.mem_singleton name _ _).mp (Finmap.mem_of_lookup_eq_some there)
    subst same
    rw [Finmap.lookup_singleton_eq] at there
    exact ⟨rfl, (Option.some.inj there).symm⟩
  have separable : Separable r := by
    refine ⟨by decide, fun name mem => ?_, fun name value there => ?_⟩
    · obtain ⟨value, there⟩ := Finmap.mem_iff.mp mem
      obtain ⟨rfl, -⟩ := only there
      decide
    · obtain ⟨-, rfl⟩ := only there
      decide
  exact (readHeader_makeHeader .byName separable).1

end Viking.Http
