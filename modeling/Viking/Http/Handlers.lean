/-
# What handlers return

A route's handler and the configured `folder_cb` return a `resolution`, with a response that they
have built or a future of one. There are three places where such a response is serialised, and
the serializer cannot do that to a file; a resolution with a future holds a response for a file
in the place of the one to come.

`served_iff` says at each of the three places which resolutions are served there. The others end
the process.
-/

import Viking.Http.Answers
import Viking.Http.Assignments

namespace Viking.Http

open Io Cache Asking

/-! ## Resolutions -/

/-- A request that was value-initialized. -/
def noRequest : Request := ⟨.delete, ⟨0, 0⟩, ∅, [], []⟩

/-- `resolution::get_response`. With a future it is the one that was made of `{}` and a null
pointer, which the constructor for files takes. -/
def Resolution.getResponse {ρ : Type} (platform : Platform) (config : Configuration) :
    Resolution ρ → Response
  | .sync response => response
  | .async _ _ => .ofFile platform config noRequest none

variable {ρ : Type} (site : Site)

/-- `take_folder` with any `folder_cb`. -/
def takeFolderBy (folderCb : Request → Serving (Resolution ρ)) (request : Request) :
    Serving (ScheduleItem ρ) := do
  let resolution ← folderCb request
  itemOf site (resolution.getResponse site.platform site.config)

/-- The callback that `configuration` sets. -/
theorem takeFolder_eq (request : Request) :
    (takeFolder site request : Serving (ScheduleItem ρ)) =
      takeFolderBy site (fun r => do return .sync (← listDirectory site r)) request := by
  funext w s
  rw [takeFolder, takeFolderBy, bind_run, bind_run, bind_run]
  rcases listDirectory site request w s with ⟨r, s'⟩
  cases r <;> rfl

/-- `handle_barrier`, when the future is ready. -/
def handleBarrier (r : AsyncBuffer Response) : Except Fault MemoryBuffer :=
  noexcept do
    let text ← Serializer.serialize site.platform.traversal r.value
    return .new text

/-! ## Responses that a handler can build -/

/-- The enumerators of `status_code`. -/
def StatusCode.enumerators : List StatusCode :=
  [.ok, .found, .badRequest, .notFound, .unsupportedMediaType, .internalServerError]

/-- The setters of a response other than those in `Assignment`, and its public members. -/
inductive Setter
  | setCode (code : StatusCode)
  | setType (type : ResponseType)
  | setFile (file : Option UnixFile)
  | set (field value : Bytes)
  | setRequest (value : Request)
  | version (value : HttpVersion)
  | fields (value : Fields)

def Setter.apply (r : Response) : Setter → Response
  | .setCode code => { r with code := code }
  | .setType type => { r with type := type }
  | .setFile file => { r with file := file, type := .file }
  | .set field value => r.set field value
  | .setRequest value => { r with req := value }
  | .version value => { r with version := value }
  | .fields value => { r with fields := value }

/-- A code, where one is given, is an enumerator. -/
def Construction.Enumerated : Construction → Prop
  | .code given => given ∈ StatusCode.enumerators
  | .request | .file _ | .text _ | .resource _ => True

def Assignment.Enumerated : Assignment → Prop
  | .code _ given => given ∈ StatusCode.enumerators
  | .text _ _ | .resource _ _ | .setText _ | .setResource _ => True

def Setter.Enumerated : Setter → Prop
  | .setCode code => code ∈ StatusCode.enumerators
  | .setType _ | .setFile _ | .set _ _ | .setRequest _ | .version _ | .fields _ => True

/-- The response was made by the public constructors, assignments and setters, and the codes
that it was given are enumerators. -/
inductive Built (platform : Platform) (config : Configuration) : Response → Prop
  | construct (now : Bytes) (req : Request) (construction : Construction)
    (enumerated : construction.Enumerated) :
    Built platform config (Assigned.start { platform with now } config req construction).response
  | assign {s : Assigned} (built : Built platform config s.response) (assignment : Assignment)
    (enumerated : assignment.Enumerated) :
    Built platform config (s.step platform config assignment).response
  | set {r : Response} (built : Built platform config r) (setter : Setter)
    (enumerated : setter.Enumerated) : Built platform config (setter.apply r)

/-- The response of a resolution, or the one that its future yields, is built. -/
def Resolution.Built (platform : Platform) (config : Configuration) :
    Resolution Response → Prop
  | .sync response => Http.Built platform config response
  | .async future _ => Http.Built platform config future.value

/-- Every enumerator has a reason phrase. -/
theorem known_of_enumerated {code : StatusCode} (enumerated : code ∈ StatusCode.enumerators) :
    (statusCodes.lookup code).isSome := by
  revert code
  decide

section Built

variable {platform : Platform} {config : Configuration} {r : Response}

theorem make_code (req : Request) (code : StatusCode) (type : ResponseType) (res : Resource)
    (text : Bytes) (file : Option UnixFile) :
    (Response.make platform config req code type res text file).code = code :=
  Response.sameKind_init.1

/-- The code of a built response is in the table. -/
theorem Built.known (built : Built platform config r) : (statusCodes.lookup r.code).isSome := by
  induction built with
  | construct now req construction enumerated =>
    cases construction with
    | code code =>
      show (statusCodes.lookup (Response.make ..).code).isSome
      rw [make_code]
      exact known_of_enumerated enumerated
    | file file =>
      have code : (Response.ofFile { platform with now } config req file).code = .ok := by
        cases file <;> exact make_code ..
      show (statusCodes.lookup (Response.ofFile ..).code).isSome
      rw [code]
      decide
    | request | text | resource =>
      show (statusCodes.lookup (Response.make ..).code).isSome
      rw [make_code]
      decide
  | assign built assignment enumerated ih =>
    cases assignment with
    | code now code =>
      show (statusCodes.lookup (Response.init ..).code).isSome
      rw [Response.sameKind_init.1]
      exact known_of_enumerated enumerated
    | text now str | resource now resource =>
      show (statusCodes.lookup (Response.init ..).code).isSome
      rw [Response.sameKind_init.1]
      exact ih
    | setText | setResource => exact ih
  | set built setter enumerated ih =>
    cases setter with
    | setCode code => exact known_of_enumerated enumerated
    | setType | setFile | set | setRequest | version | fields => exact ih

/-- A built response can be serialised unless it is for a file. -/
theorem Built.sendable_iff (built : Built platform config r) : r.Sendable ↔ r.type ≠ .file := by
  rw [Response.Sendable, and_iff_right built.known, Response.bodyAvailable]
  cases r.type <;> simp

end Built

/-! ## Where they are served -/

/-- The item has the bytes of the response that the resolution holds, or its future. -/
inductive Carries : Resolution ρ → ScheduleItem ρ → Prop
  | sync {response : Response} {text : Bytes}
    (serialized : Serializer.serialize site.platform.traversal response = .ok text) :
    Carries (.sync response) (.ofData text response.getKeepAlive)
  | async (future : AsyncBuffer ρ) (keep : Bool) :
    Carries (.async future keep) (.ofFuture future keep)

/-- The bytes of a reply with the code of an error. -/
def ErrorReply (item : ScheduleItem ρ) : Prop :=
  ∃ response text keep, 400 ≤ response.code ∧
    Serializer.serialize site.platform.traversal response = .ok text ∧ item = .ofData text keep

/-- The resolution is sent, or an error is. -/
def Serves (resolution : Resolution ρ) (outcome : Except Fault (ScheduleItem ρ)) : Prop :=
  ∃ item, outcome = .ok item ∧ (Carries site resolution item ∨ ErrorReply site item)

/-- `pass_request` serves it, whatever the request. -/
def PassesOn (resolution : Resolution ρ) : Prop :=
  ∀ req h w s, h req = .ok resolution → Serves site resolution (passRequest site req h w s).1

/-- `take_folder` serves it when `folder_cb` has returned it. What is not serialised yet cannot
be sent there. -/
def TakesFolder (resolution : Resolution ρ) : Prop :=
  ∀ folderCb request w s s', folderCb request w s = (.ok resolution, s') →
    Serves site resolution (takeFolderBy site folderCb request w s).1

/-- `handle_barrier` serialises what the future yields. -/
def PassesBarrier (resolution : Resolution Response) : Prop :=
  ∀ future keep, resolution = .async future keep → ∃ text,
    Serializer.serialize site.platform.traversal future.value = .ok text ∧
      handleBarrier site future = .ok (.new text)

section Serving

variable {site} {response : Response} {w : World Call.Answer} {s s' : Record Call Caches}

theorem itemOf_run (site : Site) (response : Response) (w : World Call.Answer)
    (s : Record Call Caches) :
    (itemOf site response : Serving (ScheduleItem ρ)) w s =
      ((Serializer.serialize site.platform.traversal response).map
        fun text => .ofData text response.getKeepAlive, s) := by
  rw [itemOf, bind_run, ofExcept_run]
  cases Serializer.serialize site.platform.traversal response <;> rfl

/-- What is serialised is sent. -/
theorem map_serialize_eq_ok {item : ScheduleItem ρ} :
    (Serializer.serialize site.platform.traversal response).map
        (fun text => ScheduleItem.ofData text response.getKeepAlive) = .ok item ↔
      ∃ text, Serializer.serialize site.platform.traversal response = .ok text ∧
        item = .ofData text response.getKeepAlive := by
  cases Serializer.serialize site.platform.traversal response <;> simp [Except.map, eq_comm]

theorem passRequest_run {req : Request} {h : Handler ρ}
    (returned : h req = .ok (.sync response)) :
    (passRequest site req h w s).1 = noexcept ((Serializer.serialize site.platform.traversal
      response).map fun text => .ofData text response.getKeepAlive) := by
  have first : (ofExcept (h req) : Serving (Resolution ρ)) w s = (.ok (.sync response), s) := by
    rw [ofExcept_run, returned]
  rw [passRequest, nothrow, through, bind_run_ok first]
  exact congrArg (fun outcome => noexcept outcome.1) (itemOf_run site response w s)

theorem takeFolderBy_run {folderCb : Request → Serving (Resolution ρ)} {request : Request}
    {resolution : Resolution ρ} (returned : folderCb request w s = (.ok resolution, s')) :
    takeFolderBy site folderCb request w s =
      itemOf site (resolution.getResponse site.platform site.config) w s' := by
  rw [takeFolderBy, bind_run_ok returned]

theorem serve_sync (site : Site) (sendable : response.Sendable) :
    ∃ text, Serializer.serialize site.platform.traversal response = .ok text ∧
      Carries site (.sync response : Resolution ρ) (.ofData text response.getKeepAlive) := by
  obtain ⟨text, serialized⟩ := Serializer.serialize_isOk_iff.mpr sendable
  exact ⟨text, serialized, .sync serialized⟩

/-- `pass_request` serves futures, and responses that can be serialised. -/
theorem passesOn_iff {resolution : Resolution ρ} :
    PassesOn site resolution ↔ ∀ response, resolution = .sync response → response.Sendable := by
  constructor
  · rintro passes response rfl
    obtain ⟨item, returned, -⟩ :=
      passes noRequest (fun _ => .ok (.sync response)) (unreadable .notFound) ⟨[], .empty⟩ rfl
    rw [passRequest_run rfl, noexcept_eq_ok, map_serialize_eq_ok] at returned
    obtain ⟨text, serialized, -⟩ := returned
    exact Serializer.serialize_isOk_iff.mp ⟨text, serialized⟩
  · intro sendable req h w s returned
    cases resolution with
    | sync response =>
      obtain ⟨text, serialized, carries⟩ := serve_sync site (sendable response rfl)
      refine ⟨_, ?_, .inl carries⟩
      rw [passRequest_run returned, noexcept_eq_ok, map_serialize_eq_ok]
      exact ⟨text, serialized, rfl⟩
    | async future keep =>
      refine ⟨_, ?_, .inl (.async future keep)⟩
      rw [passRequest, nothrow, through, returned]
      rfl

/-- `take_folder` serves responses that can be serialised, and no future. -/
theorem takesFolder_iff {resolution : Resolution ρ} :
    TakesFolder site resolution ↔ ∃ response, resolution = .sync response ∧ response.Sendable := by
  constructor
  · intro takes
    obtain ⟨item, returned, -⟩ := takes (fun _ => pure resolution) noRequest
      (unreadable .notFound) ⟨[], .empty⟩ _ rfl
    rw [takeFolderBy_run rfl, itemOf_run, map_serialize_eq_ok] at returned
    obtain ⟨text, serialized, -⟩ := returned
    have sendable := Serializer.serialize_isOk_iff.mp ⟨text, serialized⟩
    cases resolution with
    | sync response => exact ⟨response, rfl, sendable⟩
    | async future keep =>
      -- the response in the place of the one to come is for a file
      have type : (Response.ofFile site.platform site.config noRequest none).type = .file :=
        Response.sameKind_init.2
      have none := sendable.2
      rw [Resolution.getResponse, Response.bodyAvailable, type] at none
      cases none
  · rintro ⟨response, rfl, sendable⟩ folderCb request w s s' returned
    obtain ⟨text, serialized, carries⟩ := serve_sync site sendable
    refine ⟨_, ?_, .inl carries⟩
    rw [takeFolderBy_run returned, itemOf_run, map_serialize_eq_ok]
    exact ⟨text, serialized, rfl⟩

theorem passesBarrier_iff {resolution : Resolution Response} :
    PassesBarrier site resolution ↔
      ∀ future keep, resolution = .async future keep → future.value.Sendable := by
  constructor
  · intro passes future keep same
    obtain ⟨text, serialized, -⟩ := passes future keep same
    exact Serializer.serialize_isOk_iff.mp ⟨text, serialized⟩
  · intro sendable future keep same
    obtain ⟨text, serialized⟩ := Serializer.serialize_isOk_iff.mpr (sendable future keep same)
    refine ⟨text, serialized, ?_⟩
    rw [handleBarrier, serialized]
    rfl

end Serving

/-- A route's handler may return a future or a response that is not for a file, `folder_cb` a
response that is not for a file, and a future must yield such a response. -/
theorem served_iff (resolution : Resolution Response)
    (built : resolution.Built site.platform site.config) :
    (PassesOn site resolution ↔ ∀ response, resolution = .sync response → response.type ≠ .file) ∧
    (TakesFolder site resolution ↔
      ∃ response, resolution = .sync response ∧ response.type ≠ .file) ∧
    (PassesBarrier site resolution ↔
      ∀ future keep, resolution = .async future keep → future.value.type ≠ .file) := by
  rw [passesOn_iff, takesFolder_iff, passesBarrier_iff]
  cases resolution with
  | sync response =>
    have sendable : response.Sendable ↔ response.type ≠ .file := Built.sendable_iff built
    simp [sendable]
  | async future keep =>
    have sendable : future.value.Sendable ↔ future.value.type ≠ .file := Built.sendable_iff built
    simpa using sendable

/-- A text is served everywhere, with the code that was set. -/
theorem served_iff_text :
    let site : Site :=
      ⟨⟨bytes "now", id, id, fun _ => none, fun _ => [], .byName⟩, ⟨bytes "/srv", 300, false⟩, ⟨12⟩⟩
    let response := (Setter.setCode .badRequest).apply
      (.ofText site.platform site.config noRequest (bytes "hello"))
    let returned : Resolution Response := .sync response
    let awaited : Resolution Response := .async ⟨0, response⟩ false
    PassesOn site returned ∧ TakesFolder site returned ∧ PassesBarrier site awaited := by
  intro site response returned awaited
  have badRequest : StatusCode.badRequest ∈ StatusCode.enumerators := by decide
  have built : Built site.platform site.config response :=
    .set (.construct (bytes "now") noRequest (.text (bytes "hello")) trivial) (.setCode .badRequest)
      badRequest
  obtain ⟨passes, takes, -⟩ := served_iff site returned built
  obtain ⟨-, -, barrier⟩ := served_iff site awaited built
  have text : response.type ≠ .file := by decide
  refine ⟨passes.mpr ?_, takes.mpr ⟨response, rfl, text⟩, barrier.mpr ?_⟩
  · intro other same
    rwa [← Resolution.sync.inj same]
  · intro future keep same
    rwa [← (Resolution.async.inj same).1]

/-- A response for an open file ends the process wherever it is returned, and so does the future
of a text that `folder_cb` returns. -/
theorem file_not_served :
    let site : Site :=
      ⟨⟨bytes "now", id, id, fun _ => none, fun _ => [], .byName⟩, ⟨bytes "/srv", 300, false⟩, ⟨12⟩⟩
    let file : UnixFile := ⟨bytes "/srv/a.txt", 5, 3, 0, by decide, by decide⟩
    let response := Response.ofFile site.platform site.config noRequest (some file)
    let text := Response.ofText site.platform site.config noRequest (bytes "hello")
    let returned : Resolution Response := .sync response
    let awaited : Response → Resolution Response := fun r => .async ⟨0, r⟩ false
    Built site.platform site.config response ∧ Built site.platform site.config text ∧
      ¬ PassesOn site returned ∧ ¬ TakesFolder site returned ∧
      ¬ PassesBarrier site (awaited response) ∧ ¬ TakesFolder site (awaited text) ∧
      handleBarrier site ⟨0, response⟩ = .error .terminated := by
  intro site file response text returned awaited
  have unsendable : ¬ response.Sendable := by
    rintro ⟨-, available⟩
    exact Bool.false_ne_true available
  rw [passesOn_iff, takesFolder_iff, takesFolder_iff, passesBarrier_iff]
  refine ⟨.construct (bytes "now") noRequest (.file (some file)) trivial,
    .construct (bytes "now") noRequest (.text (bytes "hello")) trivial, ?_, ?_, ?_, ?_, ?_⟩
  · exact fun sendable => unsendable (sendable response rfl)
  · rintro ⟨other, same, sendable⟩
    rw [← Resolution.sync.inj same] at sendable
    exact unsendable sendable
  · exact fun sendable => unsendable (sendable _ _ rfl)
  · rintro ⟨_, ⟨⟩, -⟩
  · decide

end Viking.Http
