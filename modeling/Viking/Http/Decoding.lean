/-
# Decoding a request

A request that is written as it should be and arrives in one read is decoded to what was
written. `report_request` is what the parser reports on it, the target, the fields and the
body, and `receive_request` is what the callbacks make of that in a new context: the target
is decoded, the fields are gathered into a map, and the content length in this map says that
the body is all there.
-/

import Viking.Http.Engine
import Viking.Http.Heads
import Viking.Http.Links

namespace Viking.Http

open Execution

/-! ## Requests as they are written -/

/-- The target for a path, in which all but the slashes is encoded. -/
def encodeTarget (path : Bytes) : Bytes :=
  path.flatMap fun c => if c = ascii '/' then [c] else urlEncode [c]

/-- Fields that say of the framing what is true of the body, and nothing else. -/
structure Sendable (fields : List (Bytes × Bytes)) (body : Bytes) : Prop where
  distinct : (fields.map Prod.fst).Nodup
  nonempty : ∀ field ∈ fields, field.1 ≠ []
  tokens : ∀ field ∈ fields, IsToken field.1
  lines : ∀ field ∈ fields, ∀ c ∈ field.2, c ≠ cr ∧ c ≠ lf
  starts : ∀ field ∈ fields, ∀ c ∈ field.2.head?, c ≠ ascii ' ' ∧ c ≠ ascii '\t'
  transferEncoding : ∀ field ∈ fields, ¬ SameName field.1 (bytes "Transfer-Encoding")
  upgrade : ∀ field ∈ fields, ¬ SameName field.1 (bytes "Upgrade")
  /-- a content length, whatever the case of its name, is that of the body, which is not empty -/
  lengths : ∀ field ∈ fields, SameName field.1 contentLengthField →
    field = (contentLengthField, toText body.length) ∧ body ≠ []
  /-- a body that is not empty has its length in the fields -/
  length : body ≠ [] → (contentLengthField, toText body.length) ∈ fields

/-! ## The target -/

section Target

variable {path : Bytes}

theorem urlDecode_encodeTarget (path : Bytes) : urlDecode (encodeTarget path) = .ok path := by
  induction path with
  | nil => rfl
  | cons c path ih =>
    have split : encodeTarget (c :: path) =
        (if c = ascii '/' then [c] else urlEncode [c]) ++ encodeTarget path := rfl
    rw [split]
    split_ifs with slash
    · rw [List.singleton_append, urlDecode_cons_plain (by rw [slash]; decide), ih]
      rfl
    · rw [urlDecode_urlEncode_append, ih]
      rfl

/-- Every character of an encoded text may stand in a target. -/
theorem isUrlChar_of_encoded {text : Bytes} (encoded : Encoded text) :
    ∀ d ∈ text, isUrlChar d = true := by
  have unreserved : ∀ c, isUnreserved c = true → isUrlChar c = true :=
    forall_byte (P := fun c => isUnreserved c = true → isUrlChar c = true) (by decide +kernel)
  have hex : ∀ c, isHex c = true → isUrlChar c = true :=
    forall_byte (P := fun c => isHex c = true → isUrlChar c = true) (by decide +kernel)
  exact encoded.forall_mem unreserved hex (by decide)

theorem isUrlChar_of_mem_encodeTarget {d : Byte} (mem : d ∈ encodeTarget path) :
    isUrlChar d = true := by
  obtain ⟨c, -, there⟩ := List.mem_flatMap.mp mem
  split_ifs at there with slash
  · rw [List.mem_singleton.mp there, slash]
    decide
  · exact isUrlChar_of_encoded (encoded_urlEncode [c]) d there

/-- The parser stays in the path as long as it reads its characters. -/
theorem foldl_parseUrlChar_path {target : Bytes} (plain : ∀ d ∈ target, isUrlChar d = true) :
    target.foldl parseUrlChar .reqPath = .reqPath := by
  have byte : ∀ d, isUrlChar d = true → parseUrlChar .reqPath d = .reqPath :=
    forall_byte (P := fun d => isUrlChar d = true → parseUrlChar .reqPath d = .reqPath)
      (by decide +kernel)
  induction target with
  | nil => rfl
  | cons d target ih =>
    rw [List.forall_mem_cons] at plain
    rw [List.foldl_cons, byte d plain.1, ih plain.2]

theorem foldl_parseUrlChar_encodeTarget (absolute : path.head? = some (ascii '/')) :
    (encodeTarget path).foldl parseUrlChar .reqSpacesBeforeUrl = .reqPath := by
  cases path with
  | nil => cases absolute
  | cons c path =>
    obtain rfl := Option.some.inj absolute
    exact foldl_parseUrlChar_path fun d => isUrlChar_of_mem_encodeTarget

end Target

/-! ## The fields -/

section Fields

variable {fields : List (Bytes × Bytes)} {body : Bytes} {calls : List Callback}

theorem Sendable.acceptable (h : Sendable fields body) (short : body.length < 2 ^ 31) :
    ∀ field ∈ fields, Acceptable field := by
  intro field mem
  refine ⟨h.nonempty field mem, h.tokens field mem, h.lines field mem, h.starts field mem,
    h.transferEncoding field mem, h.upgrade field mem, fun same => ?_⟩
  rw [(h.lengths field mem same).1]
  exact ⟨numeral_toText _, by rwa [decimalNumber_toText]⟩

/-- Content lengths that are all the same are read as that one. -/
theorem foldl_lengthAfter {n : ℕ} (start : ℕ)
    (same : ∀ field ∈ fields, SameName field.1 contentLengthField → decimalNumber field.2 = n) :
    fields.foldl lengthAfter start =
      if ∃ field ∈ fields, SameName field.1 contentLengthField then n else start := by
  induction fields generalizing start with
  | nil => simp
  | cons field fields ih =>
    rw [List.forall_mem_cons] at same
    rw [List.foldl_cons, ih _ same.2, lengthAfter]
    simp only [List.exists_mem_cons_iff]
    by_cases length : SameName field.1 contentLengthField
    · rw [if_pos length, same.1 length, ite_self, if_pos (.inl length)]
    · rw [if_neg length]
      simp only [length, false_or]

/-- The length that the parser finds is that of the body, if there is one. -/
theorem Sendable.contentLength (h : Sendable fields body) :
    fields.foldl lengthAfter ullongMax = if body = [] then ullongMax else body.length := by
  have same : ∀ field ∈ fields, SameName field.1 contentLengthField →
      decimalNumber field.2 = body.length := by
    intro field mem name
    rw [(h.lengths field mem name).1, decimalNumber_toText]
  rw [foldl_lengthAfter ullongMax same]
  by_cases empty : body = []
  · rw [if_pos empty, if_neg]
    rintro ⟨field, mem, name⟩
    exact (h.lengths field mem name).2 empty
  · rw [if_neg empty, if_pos ⟨_, h.length empty, rfl⟩]

/-- Callbacks that are not about fields write to none. -/
theorem harvest_eq_empty {name : Bytes} (other : ∀ call ∈ calls, call.isValue = false) :
    harvest name calls = ∅ := by
  induction calls generalizing name with
  | nil => rfl
  | cons call calls ih =>
    rw [List.forall_mem_cons] at other
    cases call with
    | onHeaderValue value => cases other.1
    | _ => exact ih other.2

/-- Fields with distinct names are gathered into the map that holds just them. -/
theorem lookup_harvest_fieldCalls (distinct : (fields.map Prod.fst).Nodup)
    (other : ∀ call ∈ calls, call.isValue = false) (start name value : Bytes) :
    (harvest start (fields.flatMap fieldCalls ++ calls)).lookup name = some value ↔
      (name, value) ∈ fields := by
  induction fields generalizing start with
  | nil =>
    rw [List.flatMap_nil, List.nil_append, harvest_eq_empty other]
    simp
  | cons field fields ih =>
    rw [List.map_cons, List.nodup_cons] at distinct
    have gathered : harvest start ((field :: fields).flatMap fieldCalls ++ calls) =
        Finmap.singleton field.1 field.2 ∪ harvest field.1 (fields.flatMap fieldCalls ++ calls) :=
      rfl
    rw [gathered, List.mem_cons]
    by_cases same : name = field.1
    · subst same
      rw [Finmap.lookup_union_left (by simp), Finmap.lookup_singleton_eq, Option.some_inj]
      refine ⟨fun same => .inl (Prod.ext rfl same.symm), fun mem => ?_⟩
      rcases mem with same | later
      · exact (congrArg Prod.snd same).symm
      · exact absurd (List.mem_map_of_mem later) distinct.1
    · rw [Finmap.lookup_union_right (by simp [same]), ih distinct.2]
      refine ⟨.inr, fun mem => mem.resolve_left fun first => ?_⟩
      exact same (congrArg Prod.fst first)

end Fields

/-! ## The whole request -/

section Whole

variable {hm : HttpMethod} {m : Method} {target path body : Bytes} {fields : List (Bytes × Bytes)}

/-- What is reported behind a head. -/
def bodyCalls (body : Bytes) : List Callback :=
  if body = [] then [.onMessageComplete] else [.onBody body, .onMessageComplete]

/-- The callbacks of a request that is framed by its content length. -/
def requestCalls (hm : HttpMethod) (target : Bytes) (fields : List (Bytes × Bytes)) (body : Bytes) :
    List Callback :=
  headCalls target fields ++ .onHeadersComplete 1 1 hm :: bodyCalls body

/-- What the parser reports on a request whose content length is that of its body. -/
theorem report_request (known : (methodOf hm).isSome = true) (other : hm ≠ .connect)
    (accepted : (target.foldl parseUrlChar .reqSpacesBeforeUrl).endsTarget = true)
    (sendable : Sendable fields body) (short : body.length < 2 ^ 31)
    (room : (requestHead hm target fields).length ≤ httpMaxHeaderSize) :
    report (requestHead hm target fields ++ body) = requestCalls hm target fields body := by
  obtain ⟨q, k, head, framing, length⟩ :=
    foldl_requestHead (ne_msearch known) other accepted (sendable.acceptable short) room
  have call : headerCall q = .onHeadersComplete 1 1 hm :=
    congrArg headerCall framing
  rw [sendable.contentLength] at length
  have ended : ∃ k', body.foldl step (headEnd q (headCalls target fields) k) =
      between { q with upgrade := false, contentLength := if body = [] then ullongMax else 0 }
        (newMessage q) 0 (headCalls target fields ++ headerCall q :: bodyCalls body) k' := by
    by_cases empty : body = []
    · rw [if_pos empty] at length
      refine ⟨k, ?_⟩
      rw [empty, List.foldl_nil, headEnd, if_pos (.inr length), bodyCalls, if_pos rfl, if_pos rfl,
        ← length]
    · rw [if_neg empty] at length
      have inside : ¬ (q.contentLength = 0 ∨ q.contentLength = ullongMax) := by
        have positive := List.length_pos_of_ne_nil empty
        rw [length, ullongMax]
        omega
      obtain ⟨k', read⟩ := foldl_body (p := { q with upgrade := false })
        (headCalls target fields ++ [headerCall q]) empty length rfl k
      refine ⟨k', ?_⟩
      rw [headEnd, if_neg inside, read, List.append_assoc, bodyCalls, if_neg empty, if_neg empty]
      rfl
  obtain ⟨k', ended⟩ := ended
  rw [report_eq, scan_append, scan, head, ended, call]
  rfl

theorem methodOf_of_mem (named : (httpMethodStr hm, m) ∈ methodMap) : methodOf hm = some m := by
  have all : ∀ entry ∈ methodMap, methodMap.lookup entry.1 = some entry.2 := by decide
  exact all _ named

/-- A printed length is announced as it was. -/
theorem announced_toText {n : ℕ} (small : n < 2 ^ 31) : announced (toText n) = n := by
  obtain ⟨nonempty, nums⟩ := numeral_toText n
  have digits : (toText n).takeWhile isNum = toText n := List.takeWhile_eq_self_iff.mpr nums
  have start : ((toText n).head?.any isNum) = true := by
    cases text : toText n with
    | nil => exact absurd text nonempty
    | cons c rest => exact nums c (by simp [text])
  rw [announced_of_lt start (by rwa [digits, decimalNumber_toText]), digits, decimalNumber_toText]

theorem mem_fieldCalls {call : Callback} (mem : call ∈ fields.flatMap fieldCalls) :
    call.isField = true ∨ call.isValue = true := by
  obtain ⟨field, -, there⟩ := List.mem_flatMap.mp mem
  rw [fieldCalls, List.mem_pair] at there
  rcases there with rfl | rfl
  · exact .inl rfl
  · exact .inr rfl

theorem mem_bodyCalls {call : Callback} (mem : call ∈ bodyCalls body) :
    call = .onBody body ∨ call = .onMessageComplete := by
  unfold bodyCalls at mem
  split_ifs at mem
  · exact .inr (List.mem_singleton.mp mem)
  · exact List.mem_pair.mp mem

/-- Its target is the one URL that is reported, and no member that was never set is called. -/
theorem harmless_requestCalls {settings : UnsetCallbacks} (decodable : Decodable target) :
    ∀ call ∈ requestCalls hm target fields body, Harmless settings call := by
  simp only [requestCalls, headCalls, List.forall_mem_append, List.forall_mem_cons]
  refine ⟨⟨⟨trivial, decodable, by simp⟩, fun call mem => ?_⟩, trivial, fun call mem => ?_⟩
  · cases call with
    | onHeaderField | onHeaderValue => trivial
    | _ => simpa [Callback.isField, Callback.isValue] using mem_fieldCalls mem
  · rcases mem_bodyCalls mem with rfl | rfl <;> trivial

/-- What is written by the URL or at the end of the head. -/
theorem lastOf_requestCalls {α : Type} {written : Callback → Option α}
    (field : ∀ call, call.isField = true ∨ call.isValue = true → written call = none)
    (others : written .onMessageBegin = none ∧ written .onMessageComplete = none ∧
      written (.onBody body) = none) :
    lastOf written (requestCalls hm target fields body) =
      (written (.onHeadersComplete 1 1 hm)).or (written (.onUrl target)) := by
  have fieldsNone : (fields.flatMap fieldCalls).filterMap written = [] :=
    List.filterMap_eq_nil_iff.mpr fun call mem => field call (mem_fieldCalls mem)
  have bodyNone : (bodyCalls body).filterMap written = [] := by
    refine List.filterMap_eq_nil_iff.mpr fun call mem => ?_
    rcases mem_bodyCalls mem with rfl | rfl
    · exact others.2.2
    · exact others.2.1
  have fieldsLast : lastOf written (fields.flatMap fieldCalls) = none := by
    rw [lastOf, fieldsNone]
    rfl
  have bodyLast : lastOf written (bodyCalls body) = none := by
    rw [lastOf, bodyNone]
    rfl
  rw [requestCalls, headCalls, lastOf_append, lastOf_append, lastOf_cons, fieldsLast, bodyLast]
  simp only [lastOf_cons, lastOf_nil, others.1, Option.none_or, Option.or_none]

theorem bodyOf_requestCalls : bodyOf (requestCalls hm target fields body) = body := by
  have fieldsNone : bodyOf (fields.flatMap fieldCalls) = [] := by
    refine List.flatMap_eq_nil_iff.mpr fun call mem => ?_
    cases call with
    | onBody text => simpa [Callback.isField, Callback.isValue] using mem_fieldCalls mem
    | _ => rfl
  have bodyAll : bodyOf (bodyCalls body) = body := by
    unfold bodyCalls
    split_ifs with empty
    · rw [empty]
      rfl
    · exact List.append_nil body
  rw [requestCalls, headCalls, bodyOf_append, bodyOf_append, fieldsNone]
  exact bodyAll

/-- The header is the map of the fields. -/
theorem lookup_fieldsOf_requestCalls (distinct : (fields.map Prod.fst).Nodup) (name value : Bytes) :
    (fieldsOf (requestCalls hm target fields body)).lookup name = some value ↔
      (name, value) ∈ fields := by
  have quiet : ∀ call ∈ Callback.onHeadersComplete 1 1 hm :: bodyCalls body,
      call.isValue = false := by
    refine List.forall_mem_cons.mpr ⟨rfl, fun call mem => ?_⟩
    rcases mem_bodyCalls mem with rfl | rfl <;> rfl
  have gathered := lookup_harvest_fieldCalls distinct quiet [] name value
  rw [← gathered, requestCalls, headCalls, List.append_assoc]
  rfl

/-- What the callbacks make of a request. -/
theorem after_requestCalls (r : Request) (fields : List (Bytes × Bytes)) (body : Bytes)
    (known : methodOf hm = some m) (decoded : urlDecode target = .ok path) :
    r.after (requestCalls hm target fields body) =
      ⟨m, ⟨1, 1⟩, r.header ∪ fieldsOf (requestCalls hm target fields body), path,
        r.body ++ body⟩ := by
  have field : ∀ call : Callback, call.isField = true ∨ call.isValue = true →
      call.method = none ∧ call.version = none ∧ call.url = none := by
    intro call either
    cases call with
    | onHeaderField | onHeaderValue => exact ⟨rfl, rfl, rfl⟩
    | _ => simp [Callback.isField, Callback.isValue] at either
  rw [Request.after, lastOf_requestCalls (fun call h => (field call h).1) ⟨rfl, rfl, rfl⟩,
    lastOf_requestCalls (fun call h => (field call h).2.1) ⟨rfl, rfl, rfl⟩,
    lastOf_requestCalls (fun call h => (field call h).2.2) ⟨rfl, rfl, rfl⟩, bodyOf_requestCalls]
  simp only [Callback.method, Callback.version, Callback.url, known, decoded, Option.some_or,
    Option.none_or, Option.getD_some, Except.toOption]

/-- A request whose target the parser accepts and that arrives in one read. -/
theorem receive_target (heap : Indeterminate) (method : methodOf hm = some m)
    (other : hm ≠ .connect) (decoded : urlDecode target = .ok path)
    (accepted : (target.foldl parseUrlChar .reqSpacesBeforeUrl).endsTarget = true)
    (sendable : Sendable fields body) (short : body.length < 2 ^ 31)
    (room : (requestHead hm target fields).length ≤ httpMaxHeaderSize) :
    ∃ c, (Context.new heap).receive (requestHead hm target fields ++ body) = .ok c ∧
      c.complete = true ∧ c.request.method = m ∧ c.request.url = path ∧
      (∀ name value, c.request.header.lookup name = some value ↔ (name, value) ∈ fields) ∧
      c.request.body = body := by
  have reported := report_request (by rw [method]; rfl) other accepted sendable short room
  obtain ⟨c, received⟩ : ∃ c,
      (Context.new heap).receive (requestHead hm target fields ++ body) = .ok c := by
    refine Context.receive_isOk_iff.mpr ?_
    show ∀ call ∈ report (requestHead hm target fields ++ body), _
    rw [reported]
    exact harmless_requestCalls ((decodable_iff _).mp ⟨path, decoded⟩)
  have receives := Context.receive_receives received
  have request : c.request = ⟨m, ⟨1, 1⟩, fieldsOf (requestCalls hm target fields body), path,
      body⟩ := by
    have after := after_requestCalls (Context.new heap).request fields body method decoded
    rw [receives.request, Context.received]
    show Request.after _ (report (requestHead hm target fields ++ body)) = _
    rw [reported]
    refine after.trans ?_
    simp only [Context.new, Finmap.empty_union, List.nil_append]
  have header : ∀ name value, c.request.header.lookup name = some value ↔
      (name, value) ∈ fields := by
    intro name value
    rw [request]
    exact @lookup_fieldsOf_requestCalls hm target body fields sendable.distinct name value
  refine ⟨c, received, ?_, by rw [request], by rw [request], header, by rw [request]⟩
  -- A content length that is there announces the length of the body.
  by_contra incomplete
  rw [receives.complete, Bool.not_eq_true, isComplete_eq_false] at incomplete
  obtain ⟨-, value, there, more⟩ := incomplete
  obtain ⟨same, -⟩ := sendable.lengths _ ((header _ _).mp there) rfl
  obtain rfl : value = toText body.length := congrArg Prod.snd same
  rw [announced_toText short, request] at more
  exact lt_irrefl _ more

/-- A request that arrives in one read, as it was written. -/
theorem receive_request (heap : Indeterminate) (named : (httpMethodStr hm, m) ∈ methodMap)
    (absolute : path.head? = some (ascii '/')) (sendable : Sendable fields body)
    (short : body.length < 2 ^ 31)
    (room : (requestHead hm (encodeTarget path) fields).length ≤ httpMaxHeaderSize) :
    ∃ c, (Context.new heap).receive (requestHead hm (encodeTarget path) fields ++ body) = .ok c ∧
      c.complete = true ∧ c.request.method = m ∧ c.request.url = path ∧
      (∀ name value, c.request.header.lookup name = some value ↔ (name, value) ∈ fields) ∧
      c.request.body = body := by
  have method := methodOf_of_mem named
  have other : hm ≠ .connect := by
    rintro rfl
    cases method
  refine receive_target heap method other (urlDecode_encodeTarget path) ?_ sendable short room
  rw [foldl_parseUrlChar_encodeTarget absolute]
  rfl

theorem receive_request_put :
    let fields := [(bytes "Host", bytes "localhost"), (contentLengthField, toText 5)]
    ∃ c, (Context.new ⟨.get, ⟨1, 0⟩, ⟨true, true⟩⟩).receive
        (requestHead .put (encodeTarget (bytes "/a b/%")) fields ++ bytes "hello") = .ok c ∧
      c.complete = true ∧ c.request.method = .put ∧ c.request.url = bytes "/a b/%" ∧
      (∀ name value, c.request.header.lookup name = some value ↔ (name, value) ∈ fields) ∧
      c.request.body = bytes "hello" :=
  receive_request _ (by decide) (by decide)
    ⟨by decide, by decide, by decide +kernel, by decide +kernel, by decide +kernel,
      by decide +kernel, by decide +kernel, by decide +kernel, by decide +kernel⟩
    (by decide) (by decide +kernel)

end Whole

end Viking.Http
