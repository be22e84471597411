/-
# The receiving context

`Context` is `http::context`: the bytes received so far and the request that the
parser's callbacks have written to. Each call of `operator()` parses the whole
buffer again with a fresh parser, into the request as the earlier calls left it.

The members that the constructor leaves alone hold whatever the allocation held
before: the request's method and version, and the two callbacks of the settings
that are never set. `Indeterminate` is that content, as far as it matters.

After the definitions, `Context.absorb` is what a callback does when it does not
fail, `Harmless` says when it does not, and the request after any number of calls
is given in closed form by what the parser reported in them.
-/

import Viking.Lib.Machine
import Viking.Http.Request
import Viking.Http.ParserReports

namespace Viking.Http

/-- Whether the members of `http_parser_settings` that are never set hold a non-null
value. -/
structure UnsetCallbacks where
  onChunkHeader : Bool
  onChunkComplete : Bool
  deriving DecidableEq, Repr

/-- What the members of a new context hold that its constructor does not set. -/
structure Indeterminate where
  method : Method
  version : HttpVersion
  settings : UnsetCallbacks
  deriving DecidableEq, Repr

/-- `http::context`. The parser member is set up anew in each call. -/
structure Context where
  settings : UnsetCallbacks
  request : Request
  buffer : Bytes
  headerField : Bytes
  complete : Bool
  deriving DecidableEq

namespace Context

/-- `new http::context{..}` on memory with the content `heap`. -/
def new (heap : Indeterminate) : Context where
  settings := heap.settings
  request := ⟨heap.method, heap.version, ∅, [], []⟩
  buffer := []
  headerField := []
  complete := false

/-- `context::assign_method` -/
def assignMethod (c : Context) (methodNumeric : HttpMethod) : Context :=
  match methodOf methodNumeric with
  | some method => { c with request := { c.request with method := method } }
  -- a method the parser knows and the server does not leaves the member as it was
  | none => c

/-- The call of a callback through `settings_`. -/
def invoke (c : Context) : Callback → Except Fault Context
  | .onMessageBegin => .ok c
  | .onMessageComplete => .ok c
  | .onHeadersComplete httpMajor httpMinor method =>
    .ok (assignMethod { c with request := { c.request with version := ⟨httpMajor, httpMinor⟩ } }
      method)
  | .onUrl text => do
    let url ← urlDecode text
    return { c with request := { c.request with url := url } }
  | .onHeaderField text => .ok { c with headerField := text }
  | .onHeaderValue value => .ok { c with
      request := { c.request with header := c.request.header.insert c.headerField value } }
  | .onBody text => .ok { c with request := { c.request with body := c.request.body ++ text } }
  | .onChunkHeader =>
    if c.settings.onChunkHeader then .error (.undefined .unsetCallback) else .ok c
  | .onChunkComplete =>
    if c.settings.onChunkComplete then .error (.undefined .unsetCallback) else .ok c

/-- `context::operator()`, with what `read_some` returned. -/
def receive (c : Context) (chunk : Bytes) : Except Fault Context := do
  let c := { c with buffer := c.buffer ++ chunk }
  -- the whole buffer again, with a fresh parser, into the request as it stands; the
  -- result of `http_parser_execute` is ignored
  let c ← (httpParserExecute httpParserInit c.buffer).callbacks.foldlM invoke c
  return { c with complete := isComplete c.request }

/-! ## Callbacks that do not fail -/

/-- What a callback writes when it does not fail. -/
def absorb (c : Context) : Callback → Context
  | .onMessageBegin | .onMessageComplete | .onChunkHeader | .onChunkComplete => c
  | .onHeadersComplete httpMajor httpMinor method =>
    assignMethod { c with request := { c.request with version := ⟨httpMajor, httpMinor⟩ } } method
  | .onUrl text => { c with request := { c.request with url := (urlDecode text).toOption.getD [] } }
  | .onHeaderField text => { c with headerField := text }
  | .onHeaderValue value => { c with
      request := { c.request with header := c.request.header.insert c.headerField value } }
  | .onBody text => { c with request := { c.request with body := c.request.body ++ text } }

end Context

/-- The callback does not fail: a URL decodes, and no member that was never set is
called. -/
def Harmless (settings : UnsetCallbacks) : Callback → Prop
  | .onUrl text => Decodable text
  | .onChunkHeader => settings.onChunkHeader = false
  | .onChunkComplete => settings.onChunkComplete = false
  | _ => True

instance (settings : UnsetCallbacks) : DecidablePred (Harmless settings)
  | .onUrl text => inferInstanceAs (Decidable (Decodable text))
  | .onChunkHeader => inferInstanceAs (Decidable (_ = _))
  | .onChunkComplete => inferInstanceAs (Decidable (_ = _))
  | .onMessageBegin | .onMessageComplete | .onHeadersComplete .. | .onHeaderField _
  | .onHeaderValue _ | .onBody _ => isTrue trivial

/-- Nothing the parser reports on the buffer makes a callback fail. -/
def HarmlessOn (settings : UnsetCallbacks) (buffer : Bytes) : Prop :=
  ∀ call ∈ report buffer, Harmless settings call

instance (settings : UnsetCallbacks) : DecidablePred (HarmlessOn settings) := fun buffer =>
  inferInstanceAs (Decidable (∀ call ∈ report buffer, _))

/-! ## What a list of callbacks leaves in a request -/

/-- The text a URL callback writes. -/
def Callback.url : Callback → Option Bytes
  | .onUrl text => some ((urlDecode text).toOption.getD [])
  | _ => none

def Callback.version : Callback → Option HttpVersion
  | .onHeadersComplete httpMajor httpMinor _ => some ⟨httpMajor, httpMinor⟩
  | _ => none

def Callback.method : Callback → Option Method
  | .onHeadersComplete _ _ method => methodOf method
  | _ => none

def Callback.body : Callback → Bytes
  | .onBody text => text
  | _ => []

def Callback.field : Callback → Option Bytes
  | .onHeaderField text => some text
  | _ => none

/-- The last value that any of the callbacks writes. -/
def lastOf {α : Type} (written : Callback → Option α) (calls : List Callback) : Option α :=
  (calls.filterMap written).getLast?

/-- The header that the callbacks fill, when `field` is the name before the first one. -/
def harvest (field : Bytes) : List Callback → Fields
  | [] => ∅
  | .onHeaderField text :: calls => harvest text calls
  | .onHeaderValue value :: calls => Finmap.singleton field value ∪ harvest field calls
  | _ :: calls => harvest field calls

/-- The header in a list of callbacks. -/
def fieldsOf (calls : List Callback) : Fields := harvest [] calls

/-- The body in a list of callbacks. -/
def bodyOf (calls : List Callback) : Bytes := calls.flatMap Callback.body

/-- The request `r` once the callbacks have written to it. -/
def Request.after (r : Request) (calls : List Callback) : Request where
  method := (lastOf Callback.method calls).getD r.method
  version := (lastOf Callback.version calls).getD r.version
  header := r.header ∪ fieldsOf calls
  url := (lastOf Callback.url calls).getD r.url
  body := r.body ++ bodyOf calls

section Calls

variable {α : Type} (written : Callback → Option α) (field : Bytes) (call : Callback)
  (calls calls' : List Callback)

@[simp] theorem lastOf_nil : lastOf written [] = none := rfl

theorem lastOf_append :
    lastOf written (calls ++ calls') = (lastOf written calls').or (lastOf written calls) := by
  simp [lastOf, List.filterMap_append, List.getLast?_append]

theorem lastOf_cons :
    lastOf written (call :: calls) = (lastOf written calls).or (written call) := by
  cases h : written call <;> simp [lastOf, h, List.getLast?_cons]

@[simp] theorem bodyOf_append : bodyOf (calls ++ calls') = bodyOf calls ++ bodyOf calls' :=
  List.flatMap_append

@[simp] theorem bodyOf_cons : bodyOf (call :: calls) = call.body ++ bodyOf calls := rfl

theorem harvest_append :
    harvest field (calls ++ calls') =
      harvest field calls ∪ harvest ((lastOf Callback.field calls).getD field) calls' := by
  induction calls generalizing field with
  | nil => simp [harvest]
  | cons call calls ih =>
    cases call <;> simp [harvest, ih, lastOf_cons, Callback.field, Finmap.union_assoc]

/-- The header does not depend on a name that was left over. -/
theorem harvest_eq_fieldsOf (first : FieldFirst calls) : harvest field calls = fieldsOf calls := by
  unfold fieldsOf
  induction calls with
  | nil => rfl
  | cons call calls ih =>
    -- A field replaces the name that was left over before any value can use it.
    cases call <;> simp_all [harvest, FieldFirst, Callback.isField, Callback.isValue]

theorem fieldsOf_append (first : FieldFirst calls') :
    fieldsOf (calls ++ calls') = fieldsOf calls ∪ fieldsOf calls' := by
  rw [fieldsOf, harvest_append, harvest_eq_fieldsOf _ _ first]
  rfl

end Calls

namespace Request

@[simp] theorem after_nil (r : Request) : r.after [] = r := by
  simp [after, fieldsOf, harvest, bodyOf]

theorem after_append {r : Request} {calls calls' : List Callback} (first : FieldFirst calls') :
    r.after (calls ++ calls') = (r.after calls).after calls' := by
  have assign : ∀ {α : Type} (x y : Option α) (z : α), (y.or x).getD z = y.getD (x.getD z) := by
    intro α x y z
    cases y <;> rfl
  simp only [after, lastOf_append, assign, bodyOf_append, fieldsOf_append _ _ first,
    Finmap.union_assoc, List.append_assoc]

end Request

namespace Context

variable {c c' : Context} {calls : List Callback} {chunk : Bytes}

theorem absorb_settings (c : Context) (call : Callback) :
    (c.absorb call).settings = c.settings := by
  cases call <;> simp only [absorb, assignMethod]
  split <;> rfl

theorem invoke_of_harmless {call : Callback} (harmless : Harmless c.settings call) :
    c.invoke call = .ok (c.absorb call) := by
  cases call with
  | onUrl text =>
    obtain ⟨url, decoded⟩ := (decodable_iff text).mpr harmless
    simp [invoke, absorb, decoded, bind, Except.bind, pure, Except.pure, Except.toOption]
  | onChunkHeader => simp_all [invoke, absorb, Harmless]
  | onChunkComplete => simp_all [invoke, absorb, Harmless]
  | _ => rfl

theorem invoke_of_not_harmless {call : Callback} (harmful : ¬ Harmless c.settings call) :
    ∃ fault, c.invoke call = .error fault := by
  cases call with
  | onUrl text =>
    rw [Harmless, ← decodable_iff] at harmful
    cases decoded : urlDecode text with
    | ok url => exact absurd ⟨url, decoded⟩ harmful
    | error fault => exact ⟨fault, by simp [invoke, decoded, bind, Except.bind]⟩
  | onChunkHeader => simp_all [invoke, Harmless]
  | onChunkComplete => simp_all [invoke, Harmless]
  | _ => exact absurd trivial harmful

/-- What the callbacks write, all at once. -/
theorem foldl_absorb (c : Context) (calls : List Callback) :
    calls.foldl absorb c = { c with
      request := { c.request.after calls with
        header := c.request.header ∪ harvest c.headerField calls }
      headerField := (lastOf Callback.field calls).getD c.headerField } := by
  induction calls generalizing c with
  | nil => simp [harvest]
  | cons call calls ih =>
    rw [List.foldl_cons, ih]
    cases call with
    | onHeadersComplete httpMajor httpMinor method =>
      -- An unknown method counts as no method written.
      cases known : methodOf method <;>
        simp [absorb, assignMethod, Request.after, lastOf_cons, harvest, Callback.method,
          Callback.version, Callback.url, Callback.body, Callback.field, known]
    | _ =>
      simp [absorb, Request.after, lastOf_cons, harvest, Callback.method, Callback.version,
        Callback.url, Callback.body, Callback.field, Fields.insert, Finmap.union_assoc]

theorem absorb_keeps_settings (settings : UnsetCallbacks) (d : Context) (call : Callback)
    (h : d.settings = settings) : (d.absorb call).settings = settings :=
  (absorb_settings d call).trans h

theorem foldlM_invoke_isOk_iff :
    (∃ c', calls.foldlM invoke c = .ok c') ↔ ∀ call ∈ calls, Harmless c.settings call :=
  Machine.foldlM_isOk_iff (fun d => d.settings = c.settings) (absorb_keeps_settings c.settings)
    (fun _ _ h harmless => invoke_of_harmless (h ▸ harmless))
    (fun _ _ h harmful => invoke_of_not_harmless (h ▸ harmful)) rfl

theorem foldlM_invoke (harmless : ∀ call ∈ calls, Harmless c.settings call) :
    calls.foldlM invoke c = .ok (calls.foldl absorb c) :=
  Machine.foldlM_eq_ok (fun d => d.settings = c.settings) (absorb_keeps_settings c.settings)
    (fun _ _ h harmless => invoke_of_harmless (h ▸ harmless)) rfl harmless

/-! ## One call -/

/-- The request after a call of `operator()` that returns. -/
def received (c : Context) (chunk : Bytes) : Request :=
  c.request.after (report (c.buffer ++ chunk))

/-- A call returns iff nothing the parser reports makes a callback fail. -/
theorem receive_isOk_iff :
    (∃ c', c.receive chunk = .ok c') ↔ HarmlessOn c.settings (c.buffer ++ chunk) := by
  unfold HarmlessOn
  -- The callbacks are all that can fail; completion is computed afterwards.
  rw [show c.settings = ({ c with buffer := c.buffer ++ chunk } : Context).settings from rfl,
    ← foldlM_invoke_isOk_iff]
  simp only [receive, Machine.bind_eq_ok, report]
  constructor
  · rintro ⟨_, d, h, -⟩
    exact ⟨d, h⟩
  · rintro ⟨d, h⟩
    exact ⟨_, d, h, rfl⟩

/-- What a call that returns leaves behind. -/
structure Receives (c : Context) (chunk : Bytes) (c' : Context) : Prop where
  settings : c'.settings = c.settings
  buffer : c'.buffer = c.buffer ++ chunk
  request : c'.request = c.received chunk
  complete : c'.complete = isComplete c'.request

theorem receive_receives (h : c.receive chunk = .ok c') : c.Receives chunk c' := by
  have harmless := receive_isOk_iff.mp ⟨c', h⟩
  have first := report_fieldFirst (c.buffer ++ chunk)
  simp only [receive, Machine.bind_eq_ok, pure, Except.pure, Except.ok.injEq] at h
  obtain ⟨d, hd, rfl⟩ := h
  have folded := foldlM_invoke (c := { c with buffer := c.buffer ++ chunk }) harmless
  obtain rfl := Except.ok.inj (folded.symm.trans hd)
  rw [foldl_absorb]
  refine ⟨rfl, rfl, ?_, rfl⟩
  -- The field name left by an earlier call is overwritten first, so it is not seen.
  simp only [received, Request.after, harvest_eq_fieldsOf _ _ first]

end Context

end Viking.Http
