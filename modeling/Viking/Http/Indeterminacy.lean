/-
# What a new context is built on

A new context does not set its method and its version. Two contexts on different memory
get the same reads here, and `firstPassed` says which read completes the first request and
what is passed to `process_request`.

`heap_unseen_iff` says when the two agree: whatever is passed reads the method, so the
first read has to write it.
-/

import Viking.Http.Fragmentation

namespace Viking.Http

/-- The bytes of a read. -/
def ReadSome.bytes : ReadSome → Bytes
  | .closed => []
  | .data chunk _ => chunk

/-- Which of the reads makes `handle_connection` pass a request for the first time, and the
request. -/
def firstPassed (heap : Indeterminate) :
    Option Context → List ReadSome → Except Fault (Option (Nat × Request))
  | _, [] => .ok none
  | cookie, read :: reads => do
    match ← handleConnection heap cookie read with
    | (some request, _) => return some (0, request)
    | (none, cookie) => return (← firstPassed heap cookie reads).map fun (n, r) => (n + 1, r)

/-- The first read makes a callback fail, or the parser reports in it the end of the header
block and a method that the server's table holds. -/
def Settled (settings : UnsetCallbacks) : List ReadSome → Prop
  | .data chunk _ :: _ =>
    ¬ HarmlessOn settings chunk ∨ ∃ call ∈ report chunk, call.method ≠ none
  | _ => True

/-! ## Failing callbacks -/

namespace Context

variable {c d : Context}

/-- Whether and how a callback fails is seen from the settings alone. -/
theorem invoke_alike (same : c.settings = d.settings) (call : Callback) :
    (c.invoke call).map Context.settings = (d.invoke call).map Context.settings := by
  cases call with
  | onHeadersComplete httpMajor httpMinor method =>
    simp only [invoke, assignMethod, Except.map]
    cases methodOf method <;> exact congrArg Except.ok same
  | onUrl text =>
    simp only [invoke, bind, Except.bind]
    cases urlDecode text with
    | error fault => rfl
    | ok url => exact congrArg Except.ok same
  | onChunkHeader | onChunkComplete =>
    simp only [invoke, same]
    split_ifs
    · rfl
    · exact congrArg Except.ok same
  | _ => exact congrArg Except.ok same

theorem foldlM_invoke_alike (same : c.settings = d.settings) (calls : List Callback) :
    (calls.foldlM invoke c).map Context.settings =
      (calls.foldlM invoke d).map Context.settings := by
  induction calls generalizing c d with
  | nil => exact congrArg Except.ok same
  | cons call calls ih =>
    have here := invoke_alike same call
    rw [List.foldlM_cons, List.foldlM_cons]
    cases hc : c.invoke call with
    | error fault =>
      rw [hc] at here
      rw [Machine.eq_error_of_map here.symm]
    | ok c' =>
      rw [hc] at here
      obtain ⟨d', hd, after⟩ := Machine.exists_ok_of_map here.symm
      rw [hd]
      exact ih after.symm

/-- A call that fails fails with the same fault on any memory. -/
theorem receive_eq_error {chunk : Bytes} {fault : Fault} (settings : c.settings = d.settings)
    (buffer : c.buffer = d.buffer) (failed : c.receive chunk = .error fault) :
    d.receive chunk = .error fault := by
  have alike := foldlM_invoke_alike (c := { c with buffer := c.buffer ++ chunk })
    (d := { d with buffer := c.buffer ++ chunk }) settings
      (httpParserExecute httpParserInit (c.buffer ++ chunk)).callbacks
  simp only [receive, bind, Except.bind, ← buffer] at failed ⊢
  split at failed
  · rename_i e stopped
    rw [stopped] at alike
    rw [Machine.eq_error_of_map alike.symm]
    exact failed
  · cases failed

/-- What a call leaves that does not fail. -/
theorem receive_eq_ok {chunk : Bytes} (harmless : HarmlessOn c.settings (c.buffer ++ chunk)) :
    c.receive chunk = .ok
      { settings := c.settings
        request := c.received chunk
        buffer := c.buffer ++ chunk
        headerField := (lastOf Callback.field (report (c.buffer ++ chunk))).getD c.headerField
        complete := isComplete (c.received chunk) } := by
  have folded := foldlM_invoke (c := { c with buffer := c.buffer ++ chunk }) harmless
  have first := report_fieldFirst (c.buffer ++ chunk)
  rw [foldl_absorb] at folded
  simp only [receive, received, report, bind, Except.bind, pure, Except.pure] at folded first ⊢
  rw [folded]
  simp only [Request.after, harvest_eq_fieldsOf _ _ first]

end Context

/-! ## The first read -/

section Reads

variable {settings : UnsetCallbacks} {heap heap' : Indeterminate}

/-- Once there is a context, the memory of another one does not matter. -/
theorem firstPassed_some (c : Context) (reads : List ReadSome) :
    firstPassed heap (some c) reads = firstPassed heap' (some c) reads := by
  induction reads generalizing c with
  | nil => rfl
  | cons read reads ih =>
    have here : handleConnection heap (some c) read = handleConnection heap' (some c) read := rfl
    simp only [firstPassed, here]
    cases served : handleConnection heap' (some c) read with
    | error fault => rfl
    | ok outcome =>
      obtain ⟨request, cookie⟩ := outcome
      cases request with
      | some request => rfl
      | none =>
        -- A read that passes nothing leaves a context for the reads after it.
        cases read with
        | closed => cases served
        | data chunk nonempty =>
          obtain ⟨context, -, left⟩ := Machine.bind_eq_ok.mp served
          simp only [pure, Except.pure, Except.ok.injEq] at left
          split_ifs at left
          · cases left
          · cases left
            simp only [bind, Except.bind, ih]

/-- What the reads after the first one see of it. -/
theorem firstPassed_of_receive {chunk : Bytes} {nonempty : chunk ≠ []}
    (reads : List ReadSome)
    (same : (Context.new heap).receive chunk = (Context.new heap').receive chunk) :
    firstPassed heap none (.data chunk nonempty :: reads) =
      firstPassed heap' none (.data chunk nonempty :: reads) := by
  simp only [firstPassed, handleConnection, Option.getD_none, same]
  cases (Context.new heap').receive chunk with
  | error fault => rfl
  | ok c =>
    simp only [bind, Except.bind, pure, Except.pure]
    split_ifs
    · rfl
    · have later : firstPassed heap (some c) reads = firstPassed heap' (some c) reads :=
        firstPassed_some c reads
      simp only [later]

/-- A method that some callback has written is the last one written, and the version came
with it. -/
theorem after_of_written (r r' : Request) {calls : List Callback}
    (written : ∃ call ∈ calls, call.method ≠ none) (header : r.header = r'.header)
    (url : r.url = r'.url) (body : r.body = r'.body) : r.after calls = r'.after calls := by
  obtain ⟨call, mem, some⟩ := written
  have method : lastOf Callback.method calls ≠ none := by
    simp only [lastOf, ne_eq, List.getLast?_eq_none_iff, List.filterMap_eq_nil_iff, not_forall]
    exact ⟨call, mem, some⟩
  have version : lastOf Callback.version calls ≠ none := by
    simp only [lastOf, ne_eq, List.getLast?_eq_none_iff, List.filterMap_eq_nil_iff, not_forall]
    refine ⟨call, mem, ?_⟩
    -- `on_headers_complete` writes both.
    cases call <;> first | exact absurd rfl some | simp [Callback.version]
  obtain ⟨m, hm⟩ := Option.ne_none_iff_exists'.mp method
  obtain ⟨v, hv⟩ := Option.ne_none_iff_exists'.mp version
  simp only [Request.after, hm, hv, header, url, body, Option.getD_some]

/-- Nothing has written the method, so it is the one that was there. -/
theorem after_method_of_unwritten {r : Request} {calls : List Callback}
    (unwritten : ¬ ∃ call ∈ calls, call.method ≠ none) : (r.after calls).method = r.method := by
  have none : lastOf Callback.method calls = none := by
    simp only [lastOf, List.getLast?_eq_none_iff, List.filterMap_eq_nil_iff]
    simpa using unwritten
  simp only [Request.after, none, Option.getD_none]

/-- A first read without a method completes on memory that names a method without a body,
and that method is passed on. -/
theorem firstPassed_of_unwritten {chunk : Bytes} (nonempty : chunk ≠ []) (method : Method)
    (version : HttpVersion) (reads : List ReadSome) (harmless : HarmlessOn settings chunk)
    (unwritten : ¬ ∃ call ∈ report chunk, call.method ≠ none)
    (bodyless : canHaveBody method = false) :
    ∃ request, firstPassed ⟨method, version, settings⟩ none (.data chunk nonempty :: reads) =
      .ok (some (0, request)) ∧ request.method = method := by
  let c := Context.new ⟨method, version, settings⟩
  have unchanged : (c.received chunk).method = method := after_method_of_unwritten unwritten
  have complete : isComplete (c.received chunk) = true := by
    rw [isComplete, unchanged, bodyless]
    rfl
  refine ⟨c.received chunk, ?_, unchanged⟩
  have harmless : HarmlessOn c.settings (c.buffer ++ chunk) := harmless
  have received := Context.receive_eq_ok harmless
  simp only [firstPassed, handleConnection, Option.getD_none]
  rw [received]
  simp only [bind, Except.bind, pure, Except.pure, complete, if_true]

/-- A settled read does the same to a context on any memory. -/
theorem receive_of_settled {chunk : Bytes}
    (settled : ¬ HarmlessOn settings chunk ∨ ∃ call ∈ report chunk, call.method ≠ none)
    (method method' : Method) (version version' : HttpVersion) :
    (Context.new ⟨method, version, settings⟩).receive chunk =
      (Context.new ⟨method', version', settings⟩).receive chunk := by
  by_cases harmless : HarmlessOn settings chunk
  · -- the read does not fail, so it has written what the memory held
    have written := settled.resolve_left (not_not.mpr harmless)
    rw [Context.receive_eq_ok harmless, Context.receive_eq_ok harmless]
    have request := after_of_written (Context.new ⟨method, version, settings⟩).request
      (Context.new ⟨method', version', settings⟩).request written rfl rfl rfl
    simp only [Context.received, Context.new, List.nil_append] at request ⊢
    rw [request]
  · cases failed : (Context.new ⟨method, version, settings⟩).receive chunk with
    | ok c => exact absurd (Context.receive_isOk_iff.mp ⟨c, failed⟩) harmless
    | error fault =>
      have failed' : (Context.new ⟨method', version', settings⟩).receive chunk = .error fault :=
        Context.receive_eq_error (c := .new ⟨method, version, settings⟩) rfl rfl failed
      rw [failed']

end Reads

/-- On any two memories the same read completes the first request, and the same request is
passed to `process_request`, iff the first read writes the method or ends in a fault. -/
theorem heap_unseen_iff (settings : UnsetCallbacks) (reads : List ReadSome) :
    (∀ method method' version version',
      firstPassed ⟨method, version, settings⟩ none reads =
        firstPassed ⟨method', version', settings⟩ none reads) ↔ Settled settings reads := by
  cases reads with
  | nil => exact iff_of_true (fun _ _ _ _ => rfl) trivial
  | cons read reads =>
    cases read with
    | closed => exact iff_of_true (fun _ _ _ _ => rfl) trivial
    | data chunk nonempty =>
      simp only [Settled]
      constructor
      · intro alike
        by_contra unsettled
        rw [not_or, not_not] at unsettled
        -- Both of these methods are without a body, and both are passed on at once.
        obtain ⟨get, passed, isGet⟩ := firstPassed_of_unwritten nonempty .get ⟨1, 1⟩ reads
          unsettled.1 unsettled.2 rfl
        obtain ⟨head, passed', isHead⟩ := firstPassed_of_unwritten nonempty .head ⟨1, 1⟩ reads
          unsettled.1 unsettled.2 rfl
        have same := alike .get .head ⟨1, 1⟩ ⟨1, 1⟩
        rw [passed, passed'] at same
        cases same
        cases isGet.symm.trans isHead
      · intro settled method method' version version'
        apply firstPassed_of_receive
        exact receive_of_settled settled method method' version version'

/-- A request whose method the server's table does not hold is passed on with the method
that the memory held. -/
theorem unlisted_method_is_indeterminate :
    ¬ ∀ (settings : UnsetCallbacks) (reads : List ReadSome) (method method' : Method)
      (version version' : HttpVersion), AcceptsOne (reads.flatMap ReadSome.bytes) →
      firstPassed ⟨method, version, settings⟩ none reads =
        firstPassed ⟨method', version', settings⟩ none reads := by
  intro all
  let reads : List ReadSome := [.data (bytes "PATCH / HTTP/1.1\r\n\r\n") (by decide)]
  have accepts : AcceptsOne (reads.flatMap ReadSome.bytes) :=
    ⟨by decide +kernel, by decide +kernel, by decide +kernel, by decide +kernel⟩
  -- Over memory that holds GET or POST, the one read passes a GET or a POST.
  have differ : (firstPassed ⟨.get, ⟨1, 1⟩, ⟨false, false⟩⟩ none reads).map
      (Option.map fun p => p.2.method) ≠
      (firstPassed ⟨.post, ⟨1, 1⟩, ⟨false, false⟩⟩ none reads).map
        (Option.map fun p => p.2.method) := by decide +kernel
  exact differ (congrArg _ (all _ reads .get .post ⟨1, 1⟩ ⟨1, 1⟩ accepts))

end Viking.Http
