/-
# Receiving requests

`handleConnection` is what `dispatcher_impl::handle_connection` does up to the call
of `process_request`: it takes the context that hangs off the channel's cookie, or a
new one, lets it receive, and when the request is complete hands it over and deletes
the context with whatever else was in its buffer. `serve` is that step as a machine
over the arrivals of one connection.

The first results say what a run over arrivals can do to the server and what a
complete request is worth: `harmless_run_iff` is about exceptions and calls through
unset members, `complete_sound_iff` about completion. Both are about what the parser
reports on the bytes that have arrived, `report`.
-/

import Viking.Http.Engine

namespace Viking.Http

/-- What `read_some` does: it returns some bytes, or throws when there are none. -/
inductive ReadSome
  | closed
  | data (chunk : Bytes) (nonempty : chunk ≠ [])

/-- A read event on a connection, with what a new context would be built on. -/
structure Arrival where
  heap : Indeterminate
  read : ReadSome

/-- `handle_connection` up to `process_request`: the request it passes, if any, and
the cookie it leaves. -/
def handleConnection (heap : Indeterminate) (cookie : Option Context) (read : ReadSome) :
    Except Fault (Option Request × Option Context) :=
  -- a connection without a context gets one before its bytes are read
  let context := cookie.getD (Context.new heap)
  match read with
  | .closed => .error (.thrown .connectionClosedByPeer)
  | .data chunk _ => do
    let context ← context.receive chunk
    return if context.complete then (some context.request, none) else (none, some context)

/-- One arrival on the connection. -/
def serve (cookie : Option Context) (arrival : Arrival) :
    Except Fault (Option Request × Option Context) :=
  handleConnection arrival.heap cookie arrival.read

/-- The context that an arrival goes to. -/
def Arrival.context (arrival : Arrival) (cookie : Option Context) : Context :=
  cookie.getD (Context.new arrival.heap)

/-! ## Faults -/

/-- The exception that `process_read` expects. -/
def ClosedByPeer (fault : Fault) : Prop := fault = .thrown .connectionClosedByPeer

/-- Nothing reported on the bytes of the current request, with those that arrive,
makes a callback fail. -/
def Arrival.Harmless (cookie : Option Context) (arrival : Arrival) : Prop :=
  match arrival.read with
  | .closed => True
  | .data chunk _ =>
    HarmlessOn (arrival.context cookie).settings ((arrival.context cookie).buffer ++ chunk)

theorem Context.invoke_not_closedByPeer {c : Context} {call : Callback} {fault : Fault}
    (h : c.invoke call = .error fault) : ¬ ClosedByPeer fault := by
  cases call with
  | onUrl text =>
    cases decoded : urlDecode text with
    | ok url => simp [invoke, decoded, bind, Except.bind, pure, Except.pure] at h
    | error e =>
      -- `url_decode` throws a `std::runtime_error`, which is not the expected exception.
      simp only [invoke, decoded, bind, Except.bind, Except.error.injEq] at h
      rw [← h, urlDecode_eq_error decoded]
      simp [ClosedByPeer]
  | onChunkHeader | onChunkComplete =>
    simp only [invoke] at h
    split_ifs at h
    simp only [Except.error.injEq] at h
    simp [← h, ClosedByPeer]
  | _ => cases h

theorem Context.receive_not_closedByPeer {c : Context} {chunk : Bytes} {fault : Fault}
    (h : c.receive chunk = .error fault) : ¬ ClosedByPeer fault := by
  simp only [receive, bind, Except.bind] at h
  split at h
  · rename_i e he
    -- Parsing itself returns; the fault is that of the first callback that fails.
    simp only [Except.error.injEq] at h
    obtain ⟨d, call, invoked⟩ := Machine.foldlM_eq_error he
    exact h ▸ invoke_not_closedByPeer invoked
  · cases h

theorem serve_errors_iff (cookie : Option Context) (arrival : Arrival) :
    (∀ fault, serve cookie arrival = .error fault → ClosedByPeer fault) ↔
      arrival.Harmless cookie := by
  obtain ⟨heap, read⟩ := arrival
  cases read with
  | closed => simp [serve, handleConnection, Arrival.Harmless, ClosedByPeer]
  | data chunk nonempty =>
    simp only [serve, handleConnection, Arrival.Harmless, Arrival.context,
      ← Context.receive_isOk_iff]
    cases h : (cookie.getD (Context.new heap)).receive chunk with
    | ok c => simp [bind, Except.bind, pure, Except.pure]
    | error fault =>
      have unexpected := Context.receive_not_closedByPeer h
      -- Nothing that goes wrong in a callback is a closed connection.
      simpa [bind, Except.bind] using unexpected

/-- On a connection no exception but the expected one comes out of
`handle_connection`, and no member that was never set is called, iff at each read
what the parser reports on the bytes of the current request is harmless. -/
theorem harmless_run_iff (arrivals : List Arrival) :
    (∀ fault, Machine.run serve none arrivals = .error fault → ClosedByPeer fault) ↔
      Machine.Along serve (fun cookie arrival => arrival.Harmless cookie) none arrivals :=
  Machine.run_errors_iff_along (fun _ _ _ _ _ _ => trivial) (fun s i _ => serve_errors_iff s i)
    trivial

/-- A malformed escape in a URL ends in another exception. -/
theorem malformed_escape_faults :
    ¬ ∀ (arrivals : List Arrival) (fault : Fault),
      Machine.run serve none arrivals = .error fault → ClosedByPeer fault := by
  intro all
  let arrival : Arrival := ⟨⟨.get, ⟨1, 1⟩, ⟨false, false⟩⟩,
    .data (bytes "GET /%zz HTTP/1.1\r\n\r\n") (by decide)⟩
  have fails : (Machine.run serve none [arrival]).map (fun _ => ()) =
      .error (.thrown (.runtimeError "stream decode failure")) := by decide +kernel
  exact absurd (all [arrival] _ (Machine.eq_error_of_map fails)) (by simp [ClosedByPeer])

/-! ## Several reads into one context -/

/-- The buffers that successive chunks make of a buffer. -/
def buffers (start : Bytes) : List Bytes → List Bytes
  | [] => []
  | chunk :: chunks => (start ++ chunk) :: buffers (start ++ chunk) chunks

@[simp] theorem buffers_nil (start : Bytes) : buffers start [] = [] := rfl

theorem buffers_append (start : Bytes) (chunks chunks' : List Bytes) :
    buffers start (chunks ++ chunks') =
      buffers start chunks ++ buffers (start ++ chunks.flatten) chunks' := by
  induction chunks generalizing start with
  | nil => simp
  | cons chunk chunks ih => simp [buffers, ih]

theorem prefix_of_mem_buffers_self {start b : Bytes} {chunks : List Bytes}
    (h : b ∈ buffers start chunks) : start <+: b := by
  induction chunks generalizing start with
  | nil => simp at h
  | cons chunk chunks ih =>
    rcases List.mem_cons.mp h with rfl | later
    · exact List.prefix_append ..
    · exact (List.prefix_append start chunk).trans (ih later)

/-- Everything the parser reported on a list of buffers, one after the other. -/
def reports (buffers : List Bytes) : List Callback := buffers.flatMap report

theorem reports_cons (b : Bytes) (bs : List Bytes) : reports (b :: bs) = report b ++ reports bs :=
  rfl

theorem reports_append (bs cs : List Bytes) : reports (bs ++ cs) = reports bs ++ reports cs :=
  List.flatMap_append

theorem reports_fieldFirst (bs : List Bytes) : FieldFirst (reports bs) := by
  induction bs with
  | nil => trivial
  | cons b bs ih =>
    rw [reports_cons, fieldFirst_append]
    exact ⟨report_fieldFirst b, .inr ih⟩

theorem buffers_snoc_request (r : Request) (chunks : List Bytes) (chunk : Bytes) :
    r.after (reports (buffers [] (chunks ++ [chunk]))) =
      (r.after (reports (buffers [] chunks))).after (report (chunks.flatten ++ chunk)) := by
  have single : reports [chunks.flatten ++ chunk] = report (chunks.flatten ++ chunk) := by
    simp [reports]
  rw [buffers_append, reports_append, List.nil_append, buffers, buffers_nil, single,
    Request.after_append (report_fieldFirst _)]

namespace Context

variable {c c' : Context} {chunks : List Bytes}

/-- What is left of a context after calls that all return. -/
structure ReceivesAll (c : Context) (chunks : List Bytes) (c' : Context) : Prop where
  settings : c'.settings = c.settings
  buffer : c'.buffer = c.buffer ++ chunks.flatten
  request : c'.request = c.request.after (reports (buffers c.buffer chunks))
  complete : chunks ≠ [] → c'.complete = isComplete c'.request

theorem foldlM_receive (h : chunks.foldlM receive c = .ok c') : c.ReceivesAll chunks c' := by
  induction chunks generalizing c with
  | nil =>
    simp only [List.foldlM_nil, pure, Except.pure, Except.ok.injEq] at h
    subst h
    exact ⟨rfl, by simp, by simp [reports], fun h => absurd rfl h⟩
  | cons chunk chunks ih =>
    rw [List.foldlM_cons, Machine.bind_eq_ok] at h
    obtain ⟨d, hd, rest⟩ := h
    have first := receive_receives hd
    have later := ih rest
    refine ⟨later.settings.trans first.settings, ?_, ?_, fun _ => ?_⟩
    · rw [later.buffer, first.buffer, List.append_assoc, List.flatten_cons]
    -- What the later chunks write comes on top of what the first one wrote.
    · rw [later.request, first.request, first.buffer, received, buffers, reports_cons,
        Request.after_append (reports_fieldFirst _)]
    · cases chunks with
      | nil =>
        simp only [List.foldlM_nil, pure, Except.pure, Except.ok.injEq] at rest
        exact rest ▸ first.complete
      | cons chunk' chunks => exact later.complete (by simp)

end Context

/-- Earlier callbacks do not matter to a value that the later ones write. -/
theorem lastOf_append_of_covered {α : Type} {written : Callback → Option α}
    {calls calls' : List Callback}
    (covered : ∀ call ∈ calls, written call ≠ none → ∃ call' ∈ calls', written call' ≠ none) :
    lastOf written (calls ++ calls') = lastOf written calls' := by
  rw [lastOf_append]
  cases later : lastOf written calls' with
  | some value => rfl
  | none =>
    -- If the later callbacks write nothing, the earlier ones cannot have written either.
    simp only [lastOf, List.getLast?_eq_none_iff, List.filterMap_eq_nil_iff] at later
    simp only [Option.none_or, lastOf, List.getLast?_eq_none_iff, List.filterMap_eq_nil_iff]
    intro call hcall
    by_contra written
    obtain ⟨call', hcall', written'⟩ := covered call hcall written
    exact written' (later call' hcall')

/-- What a notification wrote on a buffer it writes on every longer one. -/
theorem lastOf_reports {α : Type} {written : Callback → Option α} {bs : List Bytes} {b : Bytes}
    (notified : ∀ call, written call ≠ none → call.isNotification = true)
    (shorter : ∀ a ∈ bs, a <+: b) :
    lastOf written (reports bs ++ report b) = lastOf written (report b) := by
  refine lastOf_append_of_covered fun call hcall wrote => ?_
  obtain ⟨a, ha, reported⟩ := List.mem_flatMap.mp hcall
  obtain ⟨c, rfl⟩ := shorter a ha
  exact ⟨call, mem_report_append (notified call wrote) reported c, wrote⟩

theorem method_notified (call : Callback) (h : call.method ≠ none) :
    call.isNotification = true := by
  cases call <;> first | rfl | exact absurd rfl h

theorem version_notified (call : Callback) (h : call.version ≠ none) :
    call.isNotification = true := by
  cases call <;> first | rfl | exact absurd rfl h

/-! ## Completion -/

/-- The content length that was reported first on a list of buffers. -/
def firstContentLength (buffers : List Bytes) : Option Bytes :=
  (buffers.filterMap fun b => (fieldsOf (report b)).lookup contentLengthField).head?

/-- The number of body bytes reported on a list of buffers, all reports together. -/
def bodyReported (buffers : List Bytes) : Nat :=
  (buffers.map fun b => (bodyOf (report b)).length).sum

/-- `is_complete` holds a request back after these buffers: the method of the last
one, or the one the allocation held, may have a body, and the content length seen
first announces more than all the body bytes reported on all the buffers. -/
def Withheld (heap : Indeterminate) (buffers : List Bytes) : Prop :=
  canHaveBody ((((buffers.getLast?).bind fun b => lastOf Callback.method (report b))).getD
    heap.method) = true ∧
  ∃ value, firstContentLength buffers = some value ∧ bodyReported buffers < announced value

theorem lookup_fieldsOf_reports (bs : List Bytes) :
    (fieldsOf (reports bs)).lookup contentLengthField = firstContentLength bs := by
  induction bs with
  | nil => simp [reports, fieldsOf, harvest, firstContentLength]
  | cons b bs ih =>
    rw [reports_cons, fieldsOf_append _ _ (reports_fieldFirst bs)]
    cases here : (fieldsOf (report b)).lookup contentLengthField with
    | none =>
      have absent := Finmap.lookup_eq_none.mp here
      rw [Finmap.lookup_union_right absent, ih]
      simp [firstContentLength, here]
    | some value =>
      have present : contentLengthField ∈ fieldsOf (report b) :=
        Finmap.mem_of_lookup_eq_some here
      rw [Finmap.lookup_union_left present, here]
      simp [firstContentLength, here]

theorem length_bodyOf_reports (bs : List Bytes) :
    (bodyOf (reports bs)).length = bodyReported bs := by
  induction bs with
  | nil => rfl
  | cons b bs ih => simp [reports_cons, ih, bodyReported]

theorem buffers_pairwise (start : Bytes) (chunks : List Bytes) :
    (buffers start chunks).Pairwise (· <+: ·) := by
  induction chunks generalizing start with
  | nil => exact List.Pairwise.nil
  | cons chunk chunks ih =>
    exact List.Pairwise.cons (fun b hb => prefix_of_mem_buffers_self hb) (ih _)

/-- The request of a new context is held back iff the reports withhold it. -/
theorem isComplete_after_reports (heap : Indeterminate) {bs : List Bytes}
    (growing : bs.Pairwise (· <+: ·)) :
    isComplete ((Context.new heap).request.after (reports bs)) = false ↔ Withheld heap bs := by
  -- A method seen on some buffer is seen on the last one, the longest.
  have method : lastOf Callback.method (reports bs) =
      bs.getLast?.bind fun b => lastOf Callback.method (report b) := by
    rcases List.eq_nil_or_concat bs with rfl | ⟨init, last, rfl⟩
    · rfl
    · rw [List.concat_eq_append] at growing ⊢
      have shorter : ∀ a ∈ init, a <+: last := fun a ha =>
        (List.pairwise_append.mp growing).2.2 a ha last (List.mem_singleton_self last)
      have single : reports [last] = report last := by simp [reports]
      rw [reports_append, single, lastOf_reports method_notified shorter]
      simp
  rw [isComplete_eq_false]
  simp only [Request.after, Context.new, method, Withheld, Finmap.empty_union,
    lookup_fieldsOf_reports, List.nil_append, length_bodyOf_reports]

/-! ## Runs of `handle_connection` -/

/-- The bytes of the current request once the arrival is read. -/
def Arrival.bytes (arrival : Arrival) (cookie : Option Context) : Bytes :=
  match arrival.read with
  | .closed => (arrival.context cookie).buffer
  | .data chunk _ => (arrival.context cookie).buffer ++ chunk

/-- Whatever request the arrival makes `handle_connection` pass on, the parser has
reported the end of a message on its bytes. -/
def Arrival.PassesComplete (cookie : Option Context) (arrival : Arrival) : Prop :=
  ∀ request cookie', serve cookie arrival = .ok (some request, cookie') →
    .onMessageComplete ∈ report (arrival.bytes cookie)

/-- The end of a message is reported, or a callback fails, or the request is held
back by its content length. -/
def Arrival.Guarded (cookie : Option Context) (arrival : Arrival) : Prop :=
  match arrival.read with
  | .closed => True
  | .data chunk _ =>
    let context := arrival.context cookie
    let calls := report (context.buffer ++ chunk)
    .onMessageComplete ∈ calls ∨ ¬ HarmlessOn context.settings (context.buffer ++ chunk) ∨
      canHaveBody ((lastOf Callback.method calls).getD context.request.method) = true ∧
        ∃ value, (context.request.header ∪ fieldsOf calls).lookup contentLengthField = some value ∧
          (context.request.body ++ bodyOf calls).length < announced value

theorem passesComplete_iff (cookie : Option Context) (arrival : Arrival) :
    arrival.PassesComplete cookie ↔ arrival.Guarded cookie := by
  obtain ⟨heap, read⟩ := arrival
  cases read with
  | closed => simp [Arrival.PassesComplete, Arrival.Guarded, serve, handleConnection]
  | data chunk nonempty =>
    simp only [Arrival.PassesComplete, Arrival.Guarded, serve, handleConnection, Arrival.context,
      Arrival.bytes]
    -- Only what is in the context matters, not where it comes from.
    generalize cookie.getD (Context.new heap) = context
    cases h : context.receive chunk with
    | error fault =>
      have harmful : ¬ HarmlessOn context.settings (context.buffer ++ chunk) := by
        simp [← Context.receive_isOk_iff, h]
      simp [bind, Except.bind, harmful]
    | ok c =>
      have received := Context.receive_receives h
      have harmless := Context.receive_isOk_iff.mp ⟨c, h⟩
      have held := isComplete_eq_false (context.received chunk)
      simp only [Context.received, Request.after] at held
      simp only [harmless, not_true, false_or, ← held]
      simp only [bind, Except.bind, pure, Except.pure, received.complete, received.request,
        Context.received, Request.after]
      split_ifs with complete
      · simp [complete]
      · simp [complete]

/-- Completion of a context that received `chunks`, and of whole connections. -/
theorem complete_sound_iff (heap : Indeterminate) (chunks : List Bytes) (nonempty : chunks ≠ [])
    (c : Context) (h : chunks.foldlM Context.receive (Context.new heap) = .ok c)
    (arrivals : List Arrival) :
    ((c.complete = true → .onMessageComplete ∈ report chunks.flatten) ↔
      .onMessageComplete ∈ report chunks.flatten ∨ Withheld heap (buffers [] chunks)) ∧
    (Machine.Along serve (fun cookie arrival => arrival.PassesComplete cookie) none arrivals ↔
      Machine.Along serve (fun cookie arrival => arrival.Guarded cookie) none arrivals) := by
  refine ⟨?_, Machine.along_congr passesComplete_iff⟩
  -- The flag is that of the last call, and the request is the one of all calls.
  have all := Context.foldlM_receive h
  have held := isComplete_after_reports heap (buffers_pairwise [] chunks)
  rw [all.complete nonempty, all.request, ← held]
  simp only [Context.new]
  cases isComplete _ <;> simp

/-- A request line without its end completes, when the memory of a new context happens
to name a method without a body. -/
theorem unfinished_request_completes :
    ¬ ∀ (heap : Indeterminate) (chunks : List Bytes) (c : Context), chunks ≠ [] →
      chunks.foldlM Context.receive (Context.new heap) = .ok c → c.complete = true →
      .onMessageComplete ∈ report chunks.flatten := by
  intro all
  let heap : Indeterminate := ⟨.get, ⟨1, 1⟩, ⟨false, false⟩⟩
  have early : ([bytes "GET / HT"].foldlM Context.receive (Context.new heap)).map
      Context.complete = .ok true := by decide +kernel
  obtain ⟨c, received, complete⟩ := Machine.exists_ok_of_map early
  exact absurd (all heap _ c (by decide) received complete) (by decide +kernel)

/-- The theorem at a request whose body is a byte short. -/
theorem complete_sound_iff_short_body :
    ∃ c, [bytes "POST / HTTP/1.1\r\nContent-Length: 2\r\n\r\nx"].foldlM Context.receive
        (Context.new ⟨.get, ⟨1, 1⟩, ⟨false, false⟩⟩) = .ok c ∧
      ((c.complete = true → .onMessageComplete ∈
          report (bytes "POST / HTTP/1.1\r\nContent-Length: 2\r\n\r\nx")) ↔
        .onMessageComplete ∈ report (bytes "POST / HTTP/1.1\r\nContent-Length: 2\r\n\r\nx") ∨
          Withheld ⟨.get, ⟨1, 1⟩, ⟨false, false⟩⟩
            [bytes "POST / HTTP/1.1\r\nContent-Length: 2\r\n\r\nx"]) := by
  obtain ⟨c, received⟩ : ∃ c,
      [bytes "POST / HTTP/1.1\r\nContent-Length: 2\r\n\r\nx"].foldlM Context.receive
        (Context.new ⟨.get, ⟨1, 1⟩, ⟨false, false⟩⟩) = .ok c :=
    Machine.exists_ok_of_toBool (by decide +kernel)
  refine ⟨c, received, ?_⟩
  have at_ := (complete_sound_iff _ _ (by decide) c received []).1
  rwa [List.flatten_singleton] at at_

end Viking.Http
