/-
# The length of a reply

`Framed` says that what is queued behind the header block of a reply is as long as its
`Content-Length` says, and nothing for a `HEAD` request. The length is computed from the
body, and the ending is sent as well: `framed_iff` says what follows.
-/

import Viking.Http.Answers

namespace Viking.Io

variable {ρ : Type}

/-- The number of bytes that a buffer is queued with; a future has none yet. -/
def Buffer.size : Buffer ρ → Nat
  | memory b => b.data.length
  | file f => f.sizeLeft
  | async _ => 0

/-- The number of bytes that an item is queued with. -/
def ScheduleItem.size (item : ScheduleItem ρ) : Nat := (item.buffers.map Buffer.size).sum

end Viking.Io

namespace Viking.Http

open Io

variable {ρ : Type} {site : Site} {routes : List (Route ρ)} {r : Request} {response : Response}
  {item : ScheduleItem ρ}

/-- The `Content-Length` of the response is a numeral for `n`. -/
def Announces (response : Response) (n : Nat) : Prop :=
  ∃ value, response.get contentLengthField true = some value ∧ Numeral value ∧
    decimalNumber value = n

/-- Behind the header block the item has as many bytes as its `Content-Length` says, and
none in answer to `HEAD`. -/
def Framed (traversal : Traversal) (r : Request) (response : Response) (item : ScheduleItem ρ) :
    Prop :=
  ∃ header count, Serializer.makeHeader traversal response = .ok header ∧
    item.size = header.length + count ∧
    if r.method = .head then count = 0 else Announces response count

/-- The length field counts the ending. -/
def CountsEnding (response : Response) : Prop :=
  ∃ body, response.body = .ok body ∧
    Announces response (body.length + Serializer.makeEnding.length)

/-- A route handler has answered with the response. -/
def Routed (routes : List (Route ρ)) (r : Request) (response : Response) : Prop :=
  ∃ handler, handlerFor routes r = some handler ∧ handler r = .ok (.sync response)

/-! ## The lengths that the constructors set -/

/-- The length field is the length of the body. -/
def Measured (response : Response) : Prop :=
  ∃ body, response.body = .ok body ∧
    response.get contentLengthField true = some (toText body.length)

/-- The number that is printed is the number announced. -/
theorem announces_toText {n m : Nat}
    (length : response.get contentLengthField true = some (toText n))
    (announces : Announces response m) : n = m := by
  obtain ⟨value, there, -, number⟩ := announces
  obtain rfl := Option.some.inj (length.symm.trans there)
  rw [← number, decimalNumber_toText]

theorem Measured.set (h : Measured response) {field value : Bytes}
    (other : field ≠ contentLengthField) : Measured (response.set field value) := by
  obtain ⟨body, there, length⟩ := h
  refine ⟨body, there, ?_⟩
  rw [Response.get_set, if_neg other.symm]
  exact length

theorem measured_make {platform : Platform} {config : Configuration} {code : StatusCode}
    {type : ResponseType} {res : Resource} {text : Bytes} {file : Option UnixFile}
    (body : type ≠ .file) : Measured (.make platform config r code type res text file) := by
  have kept : (Response.make platform config r code type res text file).type = type :=
    Response.sameKind_init.2
  cases type with
  | file => exact absurd rfl body
  | text =>
    have there := Response.body_text kept
    exact ⟨_, there, Response.init_contentLength there⟩
  | resource =>
    have there := Response.body_resource kept
    exact ⟨_, there, Response.init_contentLength there⟩

theorem Own.measured (own : Own site r response) : Measured response := by
  cases own with
  | notFound => exact (measured_make (by simp)).set (by decide)
  | found => exact ((measured_make (by simp)).set (by decide)).set (by decide)
  | listing text => exact ((measured_make (by simp)).set (by decide)).set (by decide)
  | resource resource => exact (measured_make (by simp)).set (by decide)

/-- What is measured does not count the ending. -/
theorem Measured.not_countsEnding (h : Measured response) : ¬ CountsEnding response := by
  obtain ⟨body, there, length⟩ := h
  rintro ⟨body', there', length'⟩
  obtain rfl := Except.ok.inj (there.symm.trans there')
  have same := announces_toText length length'
  have ending : Serializer.makeEnding.length = 4 := rfl
  omega

/-! ## The two ways to assemble a reply -/

/-- A response that is serialised: the body and the ending follow the header. -/
theorem framed_serialized {text : Bytes} {keep : Bool}
    (serialized : Serializer.serialize site.platform.traversal response = .ok text) :
    Framed site.platform.traversal r response (.ofData text keep : ScheduleItem ρ) ↔
      r.method ≠ .head ∧ CountsEnding response := by
  obtain ⟨header, made, rest⟩ := Machine.bind_eq_ok.mp serialized
  obtain ⟨body, bodied, rest⟩ := Machine.bind_eq_ok.mp rest
  simp only [pure, Except.pure, Except.ok.injEq] at rest
  have there : response.body = .ok body := noexcept_eq_ok.mp bodied
  have ending : Serializer.makeEnding.length = 4 := rfl
  have size : (ScheduleItem.ofData text keep : ScheduleItem ρ).size =
      header.length + (body.length + Serializer.makeEnding.length) := by
    simp only [ScheduleItem.size, ScheduleItem.ofData, List.map_cons, List.map_nil, Buffer.size,
      MemoryBuffer.new, List.sum_cons, List.sum_nil, ← rest, List.length_append]
    omega
  constructor
  · rintro ⟨header', count, made', total, framed⟩
    obtain rfl := Except.ok.inj (made.symm.trans made')
    have counted : count = body.length + Serializer.makeEnding.length := by omega
    split_ifs at framed with head
    · omega
    · exact ⟨head, body, there, counted ▸ framed⟩
  · rintro ⟨head, body', there', length⟩
    obtain rfl := Except.ok.inj (there.symm.trans there')
    exact ⟨header, _, made, size, by rw [if_neg head]; exact length⟩

/-- A file goes out between its header and the ending, and only the file is counted. -/
theorem not_framed_file {file : UnixFile} {header : Bytes} {keep : Bool} (fresh : file.offset = 0)
    (made : Serializer.makeHeader site.platform.traversal
      (.ofFile site.platform site.config r (some file)) = .ok header) :
    ¬ Framed site.platform.traversal r (.ofFile site.platform site.config r (some file))
      (⟨[.memory (.new header), .file file, .memory (.new Serializer.makeEnding)], keep⟩ :
        ScheduleItem ρ) := by
  have length : (Response.ofFile site.platform site.config r (some file)).get contentLengthField
      true = some (toText file.size) := by
    rw [Response.ofFile]
    exact (Response.get_set ..).trans (if_pos rfl)
  have ending : Serializer.makeEnding.length = 4 := rfl
  rintro ⟨header', count, made', total, framed⟩
  obtain rfl := Except.ok.inj (made.symm.trans made')
  have counted : count = file.size + Serializer.makeEnding.length := by
    simp only [ScheduleItem.size, List.map_cons, List.map_nil, Buffer.size, MemoryBuffer.new,
      List.sum_cons, List.sum_nil, UnixFile.sizeLeft, fresh] at total
    omega
  split_ifs at framed
  · omega
  · have same := announces_toText length framed
    omega

/-- Whichever way a request is answered. -/
theorem framed_of_answers (answers : Answers site routes r response item) :
    Framed site.platform.traversal r response item ↔
      r.method ≠ .head ∧ Routed routes r response ∧ CountsEnding response := by
  cases answers with
  | routed routed handled serialized =>
    have routed : Routed routes r response := ⟨_, routed, handled⟩
    rw [framed_serialized serialized]
    simp only [routed, true_and]
  | own unrouted own serialized =>
    have never := own.measured.not_countsEnding
    rw [framed_serialized serialized]
    simp only [never, and_false]
  | closing unrouted serialized =>
    have never : ¬ CountsEnding (notFoundResponse site r) := Own.notFound.measured.not_countsEnding
    rw [framed_serialized serialized]
    simp only [never, and_false]
  | file unrouted fresh made =>
    refine iff_of_false (not_framed_file fresh made) ?_
    rintro ⟨-, -, body, there, -⟩
    rw [Response.body_file Response.sameKind_init.2] at there
    cases there

/-- An item that is returned at once is made from a response, and is framed iff a route
handler has set a length that counts the ending, in answer to another request than `HEAD`. -/
theorem framed_iff (site : Site) (routes : List (Route ρ)) (r : Request) (w : World Call.Answer)
    (s s' : Record Call Cache.Caches) (item : ScheduleItem ρ)
    (returned : processRequest site routes r w s = (.ok item, s'))
    (sync : item.isFrontAsync = false) :
    (∃ response, Answers site routes r response item) ∧
      ∀ response, Answers site routes r response item →
        (Framed site.platform.traversal r response item ↔
          r.method ≠ .head ∧ Routed routes r response ∧ CountsEnding response) := by
  refine ⟨?_, fun response => framed_of_answers⟩
  rcases yields_processRequest site routes r w s item (by rw [returned]) with answered | awaits
  · exact answered
  · -- a future has no bytes yet
    obtain ⟨_, future, keep, -, -, rfl⟩ := awaits
    cases sync

/-- A handler that counts the four bytes of the ending. -/
theorem framed_iff_counted :
    let site : Site :=
      ⟨⟨bytes "now", id, id, fun _ => none, fun _ => [], .byName⟩, ⟨bytes "/srv", 300, false⟩, ⟨12⟩⟩
    let answer : Handler Unit := fun r => .ok (.sync
      ((Response.ofText site.platform site.config r (bytes "hello")).set contentLengthField
        (bytes "9")))
    let r : Request := ⟨.get, ⟨1, 1⟩, ∅, bytes "/", []⟩
    ∃ item s' response,
      processRequest site [⟨.get, fun _ => true, some answer⟩] r (unreadable .notFound)
        ⟨[], .empty⟩ = (.ok item, s') ∧
      Framed site.platform.traversal r response item := by
  intro site answer r
  have runs : ((processRequest site [⟨.get, fun _ => true, some answer⟩] r (unreadable .notFound)
      ⟨[], .empty⟩).1.map ScheduleItem.isFrontAsync) = .ok false := by decide +kernel
  rcases returned : processRequest site [⟨.get, fun _ => true, some answer⟩] r
    (unreadable .notFound) ⟨[], .empty⟩ with ⟨result, s'⟩
  rw [returned] at runs
  obtain ⟨item, rfl, sync⟩ := Machine.exists_ok_of_map runs
  obtain ⟨⟨response, answers⟩, framed⟩ := framed_iff site _ r _ _ s' item returned sync
  refine ⟨item, s', response, rfl, (framed response answers).mpr ?_⟩
  -- the only route is the one that answers
  cases answers with
  | routed routed handled serialized =>
    cases routed
    cases handled
    refine ⟨by decide, ⟨_, rfl, rfl⟩, bytes "hello", rfl, bytes "9", ?_,
      by decide +kernel, by decide +kernel⟩
    exact (Response.get_set ..).trans (if_pos rfl)
  | own unrouted | closing unrouted | file unrouted => cases unrouted

/-- A file that is not there: the reply has no body, and four bytes behind its header. -/
theorem ending_not_counted :
    ¬ ∀ (site : Site) (r : Request) (w : World Call.Answer) (item : ScheduleItem Unit)
      (s' : Record Call Cache.Caches),
      processRequest site [] r w ⟨[], .empty⟩ = (.ok item, s') → item.isFrontAsync = false →
      ∃ response, Answers site [] r response item ∧
        Framed site.platform.traversal r response item := by
  intro all
  let site : Site :=
    ⟨⟨bytes "now", id, id, fun _ => none, fun _ => [], .byName⟩, ⟨bytes "/srv", 300, false⟩, ⟨12⟩⟩
  let r : Request := ⟨.get, ⟨1, 1⟩, ∅, bytes "/missing", []⟩
  have runs : ((processRequest (ρ := Unit) site [] r (unreadable .notFound)
      ⟨[], .empty⟩).1.map ScheduleItem.isFrontAsync) = .ok false := by decide +kernel
  rcases returned : processRequest (ρ := Unit) site [] r (unreadable .notFound)
    ⟨[], .empty⟩ with ⟨result, s'⟩
  rw [returned] at runs
  obtain ⟨item, rfl, sync⟩ := Machine.exists_ok_of_map runs
  obtain ⟨response, answers, framed⟩ := all site r _ item s' returned sync
  obtain ⟨-, ⟨handler, routed, -⟩, -⟩ := (framed_of_answers answers).mp framed
  cases routed

end Viking.Http
