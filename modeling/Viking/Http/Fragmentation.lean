/-
# One message, many reads

A message that a single read would bring may arrive in pieces. Every read parses the
whole buffer again into the same request, so what the pieces leave behind decides
whether the request passed at the end is the one a single read gives, and whether it
is passed at the end at all.

`passed_iff` says exactly when it is: `Undisturbed` is the condition on the cuts.
`pipelined` is its consequence for a connection that carries several messages, when
what a read brings of another message is nothing that the parser would report.
-/

import Viking.Http.Reception

namespace Viking.Http

/-- A read that brings bytes, with what a new context would be built on. -/
structure Delivery where
  heap : Indeterminate
  chunk : Bytes
  nonempty : chunk ≠ []

def Delivery.arrival (d : Delivery) : Arrival := ⟨d.heap, .data d.chunk d.nonempty⟩

/-- The bytes of some reads. -/
def bytesOf (ds : List Delivery) : Bytes := (ds.map Delivery.chunk).flatten

/-- What `handle_connection` passes to `process_request` at each read of a new connection. -/
def passed (ds : List Delivery) : Except Fault (List (Option Request)) :=
  (Machine.run serve none (ds.map Delivery.arrival)).map Prod.fst

/-- All the bytes of some reads in a single read. -/
def whole (first : Delivery) (rest : List Delivery) : Delivery where
  heap := first.heap
  chunk := bytesOf (first :: rest)
  nonempty := by simp [bytesOf, first.nonempty]

/-- The parser accepts the bytes as exactly one message, which ends with the last byte. -/
structure AcceptsOne (msg : Bytes) : Prop where
  accepted : (httpParserExecute httpParserInit msg).parser.httpErrno = .ok
  consumed : (httpParserExecute httpParserInit msg).parsed = msg.length
  complete : (report msg).count .onMessageComplete = 1
  tight : .onMessageComplete ∉ report msg.dropLast

/-- The buffers that are parsed before the last read. -/
def cuts (ds : List Delivery) : List Bytes := (buffers [] (ds.map Delivery.chunk)).dropLast

/-- Every field has the same value in the larger header. -/
def Agrees (fields larger : Fields) : Prop :=
  ∀ name value, fields.lookup name = some value → larger.lookup name = some value

/-- The cuts of a message that leave no trace in its request: at each of them nothing
makes a callback fail, no byte of the body has come, the fields seen have their whole
values and the method, or what stands in for it until the header block is complete,
may have a body; and the first of them comes after a content length that announces
something. -/
structure Undisturbed (heap : Indeterminate) (msg : Bytes) (cuts : List Bytes) : Prop where
  harmless : ∀ b ∈ cuts, HarmlessOn heap.settings b
  bodyless : ∀ b ∈ cuts, bodyOf (report b) = []
  agrees : ∀ b ∈ cuts, Agrees (fieldsOf (report b)) (fieldsOf (report msg))
  bodied : ∀ b ∈ cuts,
    canHaveBody ((lastOf Callback.method (report b)).getD heap.method) = true
  awaited : ∀ b, cuts.head? = some b →
    ∃ value, (fieldsOf (report b)).lookup contentLengthField = some value ∧ 0 < announced value

/-! ## Headers of growing buffers -/

theorem lookup_union (a b : Fields) (name : Bytes) :
    (a ∪ b).lookup name = (a.lookup name).or (b.lookup name) := by
  cases h : a.lookup name with
  | none => rw [Finmap.lookup_union_right (Finmap.lookup_eq_none.mp h), Option.none_or]
  | some value =>
    rw [Finmap.lookup_union_left (Finmap.mem_of_lookup_eq_some h), h, Option.some_or]

theorem union_eq_right_iff {a b : Fields} : a ∪ b = b ↔ Agrees a b := by
  constructor
  · intro h name value found
    rw [← h, lookup_union, found, Option.some_or]
  · intro agrees
    refine Finmap.ext_lookup fun name => ?_
    rw [lookup_union]
    cases found : a.lookup name with
    | none => exact Option.none_or
    | some value => rw [Option.some_or, agrees name value found]

theorem agrees_of_union {a b c : Fields} (h : Agrees (a ∪ b) c) : Agrees a c :=
  fun name value found => h name value (by rw [lookup_union, found, Option.some_or])

theorem lookup_fieldsOf_append (calls more : List Callback) (name : Bytes) :
    (fieldsOf (calls ++ more)).lookup name =
      ((fieldsOf calls).lookup name).or
        ((harvest ((lastOf Callback.field calls).getD []) more).lookup name) := by
  rw [fieldsOf, harvest_append, lookup_union]
  rfl

/-- The value of a field on a buffer is a prefix of its value on a longer one. -/
theorem lookup_prefix {b c : Bytes} {name value value' : Bytes}
    (short : (fieldsOf (report b)).lookup name = some value)
    (long : (fieldsOf (report (b ++ c))).lookup name = some value') : value <+: value' := by
  rcases report_append b c with ⟨more, extended⟩ | ⟨calls, m, t, cut, after⟩
  · rw [← extended, lookup_fieldsOf_append, short, Option.some_or, Option.some.injEq] at long
    -- The longer buffer reports the same and more: the first value of a field stays.
    exact long ▸ List.prefix_rfl
  · rw [cut, lookup_fieldsOf_append] at short
    cases earlier : (fieldsOf calls).lookup name with
    | some w =>
      rw [earlier, Option.some_or, Option.some.injEq] at short
      rcases after with ⟨u, rest, -, extended⟩ | ⟨same, -⟩
      · rw [extended, lookup_fieldsOf_append, earlier, Option.some_or, Option.some.injEq] at long
        rw [← short, ← long]
      · rw [same, earlier, Option.some.injEq] at long
        rw [← short, ← long]
    | none =>
      -- The value comes from the text that the end of the buffer cuts.
      rw [earlier, Option.none_or] at short
      cases m with
      | headerValue =>
        simp only [Mark.callback, harvest, Finmap.union_empty] at short
        rcases after with ⟨u, rest, -, extended⟩ | ⟨same, -⟩
        · rw [extended, lookup_fieldsOf_append, earlier, Option.none_or] at long
          simp only [Mark.callback, harvest, lookup_union] at long
          -- It is the value of the last field named: no other field is at stake.
          by_cases here : name = (lastOf Callback.field calls).getD []
          · subst here
            rw [Finmap.lookup_singleton_eq] at short long
            simp only [Option.some.injEq, Option.some_or] at short long
            rw [← short, ← long]
            exact List.prefix_append ..
          · rw [Finmap.lookup_eq_none.mpr (by simpa using here)] at short
            cases short
        · simp [same, earlier] at long
      | _ => simp [Mark.callback, harvest] at short

/-- A URL reported on a buffer is reported, perhaps longer, on every accepted one. -/
theorem url_reported {b msg : Bytes} (shorter : b <+: msg)
    (accepted : (httpParserExecute httpParserInit msg).parser.httpErrno = .ok) {call : Callback}
    (reported : call ∈ report b) (url : call.url ≠ none) :
    ∃ call' ∈ report msg, call'.url ≠ none := by
  obtain ⟨c, rfl⟩ := shorter
  rcases report_append b c with extended | ⟨calls, m, t, cut, ⟨u, rest, -, after⟩ | ⟨-, failed⟩⟩
  · exact ⟨call, extended.subset reported, url⟩
  -- The cut text is reported again, longer; it is a URL if and only if it was one.
  · rw [cut, List.mem_append, List.mem_singleton] at reported
    rcases reported with old | rfl
    · exact ⟨call, by simp [after, old], url⟩
    · refine ⟨m.callback (t ++ u), by simp [after], ?_⟩
      cases m <;> simp_all [Mark.callback, Callback.url]
  -- Only an error loses text, and the message is accepted.
  · exact absurd accepted failed

/-! ## The request that cuts leave -/

theorem lastOf_url_reports {bs : List Bytes} {msg : Bytes} (shorter : ∀ b ∈ bs, b <+: msg)
    (accepted : (httpParserExecute httpParserInit msg).parser.httpErrno = .ok) :
    lastOf Callback.url (reports bs ++ report msg) = lastOf Callback.url (report msg) := by
  refine lastOf_append_of_covered fun call hcall wrote => ?_
  obtain ⟨b, hb, reported⟩ := List.mem_flatMap.mp hcall
  exact url_reported (shorter b hb) accepted reported wrote

/-- Once an accepted message is whole, only the header and the body of its request can
still show where it was cut. -/
theorem after_reports_eq_iff {r : Request} {bs : List Bytes} {msg : Bytes} (empty : r.header = ∅)
    (shorter : ∀ b ∈ bs, b <+: msg)
    (accepted : (httpParserExecute httpParserInit msg).parser.httpErrno = .ok) :
    r.after (reports bs ++ report msg) = r.after (report msg) ↔
      Agrees (fieldsOf (reports bs)) (fieldsOf (report msg)) ∧ bodyOf (reports bs) = [] := by
  have first := report_fieldFirst msg
  -- Method, version and URL are overwritten by the whole message; what is left of the
  -- cuts is the union of their fields and the bodies in front of the last one.
  rw [Request.after, Request.after, lastOf_reports method_notified shorter,
    lastOf_reports version_notified shorter, lastOf_url_reports shorter accepted,
    fieldsOf_append _ _ first, empty, Finmap.empty_union, Finmap.empty_union, bodyOf_append]
  simp only [Request.mk.injEq, true_and, union_eq_right_iff]
  simp

theorem fieldsOf_reports_cons (b : Bytes) (bs : List Bytes) :
    fieldsOf (reports (b :: bs)) = fieldsOf (report b) ∪ fieldsOf (reports bs) := by
  rw [reports_cons, fieldsOf_append _ _ (reports_fieldFirst bs)]

theorem exists_of_lookup_reports {bs : List Bytes} {name value : Bytes}
    (h : (fieldsOf (reports bs)).lookup name = some value) :
    ∃ b ∈ bs, (fieldsOf (report b)).lookup name = some value := by
  induction bs with
  | nil => simp [reports, fieldsOf, harvest] at h
  | cons b bs ih =>
    rw [fieldsOf_reports_cons, lookup_union] at h
    cases here : (fieldsOf (report b)).lookup name with
    | some w =>
      rw [here, Option.some_or] at h
      exact ⟨b, List.mem_cons_self, here.trans h⟩
    | none =>
      rw [here, Option.none_or] at h
      obtain ⟨b', hb', found⟩ := ih h
      exact ⟨b', List.mem_cons_of_mem b hb', found⟩

/-- The fields left by all cuts agree with the message iff those of each cut do: a
value that a later cut shows differently lies between two equal ones. -/
theorem agrees_reports_iff {bs : List Bytes} {msg : Bytes} (growing : bs.Pairwise (· <+: ·))
    (shorter : ∀ b ∈ bs, b <+: msg) :
    Agrees (fieldsOf (reports bs)) (fieldsOf (report msg)) ↔
      ∀ b ∈ bs, Agrees (fieldsOf (report b)) (fieldsOf (report msg)) := by
  induction bs with
  | nil => simp [Agrees, reports, fieldsOf, harvest]
  | cons b bs ih =>
    obtain ⟨below, growing⟩ := List.pairwise_cons.mp growing
    obtain ⟨shorter_b, shorter⟩ := List.forall_mem_cons.mp shorter
    rw [fieldsOf_reports_cons, List.forall_mem_cons, ← ih growing shorter]
    constructor
    · intro agrees
      refine ⟨agrees_of_union agrees, fun name value found => ?_⟩
      cases here : (fieldsOf (report b)).lookup name with
      | none => exact agrees name value (by rw [lookup_union, here, Option.none_or, found])
      | some w =>
        have final : (fieldsOf (report msg)).lookup name = some w :=
          agrees name w (by rw [lookup_union, here, Option.some_or])
        -- `b` has the final value `w` and a later cut `b'` shows `value`; prefixes squeeze it.
        obtain ⟨b', hb', found'⟩ := exists_of_lookup_reports found
        obtain ⟨c, hc⟩ := below b' hb'
        obtain ⟨d, hd⟩ := shorter b' hb'
        have low : w <+: value := lookup_prefix here (hc ▸ found')
        have high : value <+: w := lookup_prefix found' (hd ▸ final)
        rw [final, low.eq_of_length_le high.length_le]
    · rintro ⟨agrees_b, agrees⟩ name value found
      rw [lookup_union] at found
      cases here : (fieldsOf (report b)).lookup name with
      | some w =>
        rw [here, Option.some_or] at found
        exact agrees_b name value (here.trans found)
      | none =>
        rw [here, Option.none_or] at found
        exact agrees name value found

theorem bodyOf_reports_eq_nil {bs : List Bytes} :
    bodyOf (reports bs) = [] ↔ ∀ b ∈ bs, bodyOf (report b) = [] := by
  induction bs with
  | nil => simp [reports, bodyOf]
  | cons b bs ih => simp [reports_cons, ih]

/-! ## Reads that pass nothing -/

/-- After each of the buffers nothing has failed and the request is held back. -/
def Waits (heap : Indeterminate) (bs : List Bytes) : Prop :=
  ∀ init b, init ++ [b] <+: bs → HarmlessOn heap.settings b ∧
    isComplete ((Context.new heap).request.after (reports (init ++ [b]))) = false

/-- The cookie that `chunks` leave when nothing was passed on. -/
def Gathered (heap : Indeterminate) (chunks : List Bytes) : Option Context → Prop
  | none => chunks = []
  | some c => chunks ≠ [] ∧ (Context.new heap).ReceivesAll chunks c

theorem Gathered.context {heap : Indeterminate} {chunks : List Bytes} {cookie : Option Context}
    {d : Delivery} (gathered : Gathered heap chunks cookie) (same : chunks = [] → d.heap = heap) :
    (Context.new heap).ReceivesAll chunks (d.arrival.context cookie) := by
  cases cookie with
  | none =>
    obtain rfl : chunks = [] := gathered
    simp only [Arrival.context, Delivery.arrival, Option.getD_none, same rfl]
    exact ⟨rfl, by simp, by simp [reports], fun h => absurd rfl h⟩
  | some c => exact gathered.2

section Read

variable {heap : Indeterminate} {chunks : List Bytes} {cookie : Option Context} {d : Delivery}

/-- The request that stands after `chunks` and one more. -/
def requestOf (heap : Indeterminate) (chunks : List Bytes) : Request :=
  (Context.new heap).request.after (reports (buffers [] chunks))

/-- A read on a connection that has passed nothing on yet. -/
theorem serve_eq (all : (Context.new heap).ReceivesAll chunks (d.arrival.context cookie))
    (harmless : HarmlessOn heap.settings (chunks.flatten ++ d.chunk)) :
    ∃ c, (Context.new heap).ReceivesAll (chunks ++ [d.chunk]) c ∧
      serve cookie d.arrival = .ok
        (if isComplete (requestOf heap (chunks ++ [d.chunk])) = true then
          (some (requestOf heap (chunks ++ [d.chunk])), none) else (none, some c)) := by
  -- The parse does not fault, so the context receives and holds all the bytes so far.
  obtain ⟨c, received⟩ := Context.receive_isOk_iff.mpr
    (show HarmlessOn (d.arrival.context cookie).settings
      ((d.arrival.context cookie).buffer ++ d.chunk) by
      rw [all.settings, all.buffer]
      exact harmless)
  have receives := Context.receive_receives received
  have request : c.request = requestOf heap (chunks ++ [d.chunk]) := by
    rw [receives.request, Context.received, all.request, all.buffer, requestOf,
      buffers_snoc_request]
    rfl
  refine ⟨c, ⟨receives.settings.trans all.settings, ?_, request, fun _ => receives.complete⟩, ?_⟩
  · rw [receives.buffer, all.buffer]
    simp
  · have step : serve cookie d.arrival =
        ((d.arrival.context cookie).receive d.chunk).map fun context =>
          if context.complete then (some context.request, none) else (none, some context) := rfl
    rw [step, received, Except.map, receives.complete, request]

theorem serve_harmful (all : (Context.new heap).ReceivesAll chunks (d.arrival.context cookie))
    (harmful : ¬ HarmlessOn heap.settings (chunks.flatten ++ d.chunk)) :
    ∃ fault, serve cookie d.arrival = .error fault := by
  cases h : (d.arrival.context cookie).receive d.chunk with
  | error fault =>
    have step : serve cookie d.arrival =
        ((d.arrival.context cookie).receive d.chunk).map fun context =>
          if context.complete then (some context.request, none) else (none, some context) := rfl
    exact ⟨fault, by rw [step, h, Except.map]⟩
  | ok c =>
    have harmless := Context.receive_isOk_iff.mp ⟨c, h⟩
    rw [all.settings, all.buffer] at harmless
    exact absurd harmless harmful

/-- A read passes nothing on iff it does no harm and the request is held back. -/
theorem serve_none_iff (all : (Context.new heap).ReceivesAll chunks (d.arrival.context cookie)) :
    (∃ cookie', serve cookie d.arrival = .ok (none, cookie')) ↔
      HarmlessOn heap.settings (chunks.flatten ++ d.chunk) ∧
        isComplete (requestOf heap (chunks ++ [d.chunk])) = false := by
  by_cases harmless : HarmlessOn heap.settings (chunks.flatten ++ d.chunk)
  · obtain ⟨c, -, step⟩ := serve_eq all harmless
    rw [step]
    cases h : isComplete (requestOf heap (chunks ++ [d.chunk])) <;> simp [harmless]
  · obtain ⟨fault, step⟩ := serve_harmful all harmless
    simp [step, harmless]

theorem serve_none_gathered
    (all : (Context.new heap).ReceivesAll chunks (d.arrival.context cookie))
    {cookie' : Option Context} (h : serve cookie d.arrival = .ok (none, cookie')) :
    Gathered heap (chunks ++ [d.chunk]) cookie' := by
  have harmless := ((serve_none_iff all).mp ⟨cookie', h⟩).1
  obtain ⟨c, gathered, step⟩ := serve_eq all harmless
  rw [step] at h
  split_ifs at h
  · simp at h
  · simp only [Except.ok.injEq, Prod.mk.injEq, true_and] at h
    exact h ▸ ⟨by simp, gathered⟩

/-- A read passes a request on iff it does no harm and the request is complete. -/
theorem serve_some_iff (all : (Context.new heap).ReceivesAll chunks (d.arrival.context cookie))
    {r : Request} {cookie' : Option Context} :
    serve cookie d.arrival = .ok (some r, cookie') ↔
      HarmlessOn heap.settings (chunks.flatten ++ d.chunk) ∧
        isComplete (requestOf heap (chunks ++ [d.chunk])) = true ∧
        requestOf heap (chunks ++ [d.chunk]) = r ∧ cookie' = none := by
  by_cases harmless : HarmlessOn heap.settings (chunks.flatten ++ d.chunk)
  · obtain ⟨c, -, step⟩ := serve_eq all harmless
    rw [step]
    cases h : isComplete (requestOf heap (chunks ++ [d.chunk])) <;> simp [harmless, eq_comm]
  · obtain ⟨fault, step⟩ := serve_harmful all harmless
    simp [step, harmless]

end Read

/-! ## Runs that pass nothing -/

theorem waits_append_singleton {heap : Indeterminate} {bs : List Bytes} {b : Bytes} :
    Waits heap (bs ++ [b]) ↔ Waits heap bs ∧ HarmlessOn heap.settings b ∧
      isComplete ((Context.new heap).request.after (reports (bs ++ [b]))) = false := by
  constructor
  · intro waits
    exact ⟨fun init c h => waits init c (h.trans (List.prefix_append ..)),
      waits bs b List.prefix_rfl⟩
  · rintro ⟨waits, last⟩ init c h
    -- `init ++ [c]` is all of the buffers or stops before the new one.
    rcases List.prefix_concat_iff.mp (by simpa using h) with same | shorter
    · obtain ⟨rfl, rfl⟩ : init = bs ∧ c = b := by simpa using same
      exact last
    · exact waits init c shorter

theorem run_snoc_quiet {ds : List Delivery} {d : Delivery} {o : Option Request}
    {cookie' : Option Context} :
    Machine.run serve none ((ds ++ [d]).map Delivery.arrival) =
        .ok (List.replicate ds.length none ++ [o], cookie') ↔
      ∃ cookie, Machine.run serve none (ds.map Delivery.arrival) =
          .ok (List.replicate ds.length none, cookie) ∧
        serve cookie d.arrival = .ok (o, cookie') := by
  rw [List.map_append, List.map_singleton, Machine.run_snoc_eq_ok]
  constructor
  · rintro ⟨os, o', cookie, quiet, step, same⟩
    obtain ⟨rfl, last⟩ := List.append_inj' same rfl
    obtain rfl : o = o' := by simpa using last
    exact ⟨cookie, quiet, step⟩
  · rintro ⟨cookie, quiet, step⟩
    exact ⟨_, o, cookie, quiet, step, rfl⟩

/-- The reads `ds` of a new connection pass nothing on iff their buffers wait. -/
theorem run_quiet {heap : Indeterminate} {ds : List Delivery}
    (head : ∀ d, ds.head? = some d → d.heap = heap) :
    ((∃ cookie, Machine.run serve none (ds.map Delivery.arrival) =
        .ok (List.replicate ds.length none, cookie)) ↔
      Waits heap (buffers [] (ds.map Delivery.chunk))) ∧
    ∀ cookie, Machine.run serve none (ds.map Delivery.arrival) =
        .ok (List.replicate ds.length none, cookie) →
      Gathered heap (ds.map Delivery.chunk) cookie := by
  induction ds using List.reverseRecOn with
  | nil =>
    refine ⟨⟨fun _ init b h => by simp at h, fun _ => ⟨none, rfl⟩⟩, fun cookie h => ?_⟩
    simp only [List.map_nil, Machine.run_nil, Except.ok.injEq, Prod.mk.injEq] at h
    exact h.2 ▸ rfl
  | append_singleton ds d ih =>
    have head_ds : ∀ d', ds.head? = some d' → d'.heap = heap := fun d' h =>
      head d' (by simp [h])
    have head_d : ds.map Delivery.chunk = [] → d.heap = heap := fun h => by
      obtain rfl := List.map_eq_nil_iff.mp h
      exact head d rfl
    obtain ⟨waits, gathered⟩ := ih head_ds
    have length : List.replicate (ds ++ [d]).length (none : Option Request) =
        List.replicate ds.length none ++ [none] := by simp [List.replicate_succ']
    have last : buffers [] ((ds ++ [d]).map Delivery.chunk) =
        buffers [] (ds.map Delivery.chunk) ++ [(ds.map Delivery.chunk).flatten ++ d.chunk] := by
      simp [buffers_append, buffers]
    have request : (Context.new heap).request.after
        (reports (buffers [] (ds.map Delivery.chunk) ++
          [(ds.map Delivery.chunk).flatten ++ d.chunk])) =
        requestOf heap (ds.map Delivery.chunk ++ [d.chunk]) := by
      rw [requestOf, ← last, List.map_append, List.map_singleton]
    simp only [length, run_snoc_quiet]
    rw [last, waits_append_singleton, ← waits, request]
    constructor
    · constructor
      · rintro ⟨cookie', cookie, quiet, step⟩
        have all := (gathered cookie quiet).context head_d
        exact ⟨⟨cookie, quiet⟩, (serve_none_iff all).mp ⟨cookie', step⟩⟩
      · rintro ⟨⟨cookie, quiet⟩, next⟩
        have all := (gathered cookie quiet).context head_d
        obtain ⟨cookie', step⟩ := (serve_none_iff all).mpr next
        exact ⟨cookie', cookie, quiet, step⟩
    -- What the run leaves in the cookie has received every chunk.
    · rintro cookie' ⟨cookie, quiet, step⟩
      have all := (gathered cookie quiet).context head_d
      rw [List.map_append, List.map_singleton]
      exact serve_none_gathered all step

/-! ## The message passed at its last read -/

theorem passed_eq_ok {ds : List Delivery} {os : List (Option Request)} :
    passed ds = .ok os ↔
      ∃ cookie, Machine.run serve none (ds.map Delivery.arrival) = .ok (os, cookie) := by
  unfold passed
  cases h : Machine.run serve none (ds.map Delivery.arrival) with
  | error fault => simp [Except.map]
  | ok r =>
    simp only [Except.map, Except.ok.injEq]
    exact ⟨fun same => ⟨r.2, by rw [← same]⟩, fun ⟨_, same⟩ => by rw [same]⟩

theorem passed_last_iff (heap : Indeterminate) (init : List Delivery) (last : Delivery)
    {r : Request} (head : ∀ d, (init ++ [last]).head? = some d → d.heap = heap) :
    passed (init ++ [last]) = .ok (List.replicate init.length none ++ [some r]) ↔
      Waits heap (buffers [] (init.map Delivery.chunk)) ∧
        HarmlessOn heap.settings (bytesOf (init ++ [last])) ∧
        isComplete (requestOf heap ((init ++ [last]).map Delivery.chunk)) = true ∧
        requestOf heap ((init ++ [last]).map Delivery.chunk) = r := by
  have head_init : ∀ d, init.head? = some d → d.heap = heap := fun d h => head d (by simp [h])
  have head_last : init.map Delivery.chunk = [] → last.heap = heap := fun h => by
    obtain rfl := List.map_eq_nil_iff.mp h
    exact head last rfl
  obtain ⟨waits, gathered⟩ := run_quiet head_init
  have bytes : bytesOf (init ++ [last]) = (init.map Delivery.chunk).flatten ++ last.chunk := by
    simp [bytesOf]
  simp only [passed_eq_ok, run_snoc_quiet]
  rw [← waits, bytes, List.map_append, List.map_singleton]
  constructor
  · rintro ⟨cookie', cookie, quiet, step⟩
    have all := (gathered cookie quiet).context head_last
    obtain ⟨harmless, complete, same, -⟩ := (serve_some_iff all).mp step
    exact ⟨⟨cookie, quiet⟩, harmless, complete, same⟩
  · rintro ⟨⟨cookie, quiet⟩, harmless, complete, same⟩
    have all := (gathered cookie quiet).context head_last
    exact ⟨none, cookie, quiet, (serve_some_iff all).mpr ⟨harmless, complete, same, rfl⟩⟩

theorem bodyReported_eq_zero {bs : List Bytes} (bodyless : ∀ b ∈ bs, bodyOf (report b) = []) :
    bodyReported bs = 0 := by
  rw [← length_bodyOf_reports, bodyOf_reports_eq_nil.mpr bodyless, List.length_nil]

theorem firstContentLength_of_head {bs : List Bytes} {b value : Bytes} (head : bs.head? = some b)
    (found : (fieldsOf (report b)).lookup contentLengthField = some value) :
    firstContentLength bs = some value := by
  cases bs with
  | nil => cases head
  | cons b' bs =>
    obtain rfl : b' = b := by simpa using head
    simp [firstContentLength, found]

/-- Cuts that leave no trace are the ones that wait and leave the request of the whole. -/
theorem undisturbed_iff {heap : Indeterminate} {msg : Bytes} {bs : List Bytes}
    (growing : bs.Pairwise (· <+: ·)) (shorter : ∀ b ∈ bs, b <+: msg)
    (accepted : (httpParserExecute httpParserInit msg).parser.httpErrno = .ok) :
    Undisturbed heap msg bs ↔ Waits heap bs ∧
      (Context.new heap).request.after (reports bs ++ report msg) =
        (Context.new heap).request.after (report msg) := by
  rw [after_reports_eq_iff rfl shorter accepted, agrees_reports_iff growing shorter,
    bodyOf_reports_eq_nil]
  constructor
  · rintro ⟨harmless, bodyless, agrees, bodied, awaited⟩
    -- No body has come, so a positive length that was announced first is still awaited.
    refine ⟨?_, agrees, bodyless⟩
    rintro init b ⟨later, rfl⟩
    obtain ⟨first, head⟩ : ∃ first, (init ++ [b]).head? = some first := by
      cases init <;> simp
    obtain ⟨value, found, positive⟩ := awaited first (by
      rw [List.head?_append, head, Option.some_or])
    have none_reported : bodyReported (init ++ [b]) = 0 :=
      bodyReported_eq_zero fun b' hb' => bodyless b' (List.mem_append_left later hb')
    refine ⟨harmless b (by simp), ?_⟩
    rw [isComplete_after_reports heap (List.pairwise_append.mp growing).1]
    refine ⟨by simpa using bodied b (by simp), value, firstContentLength_of_head head found, ?_⟩
    rwa [none_reported]
  · rintro ⟨waits, agrees, bodyless⟩
    -- Each cut is the last of some initial run of cuts, and there the request is held back.
    have withheld : ∀ init b, init ++ [b] <+: bs → Withheld heap (init ++ [b]) := fun init b h =>
      (isComplete_after_reports heap (growing.sublist h.sublist)).mp (waits init b h).2
    have at_cut : ∀ b ∈ bs, ∃ init, init ++ [b] <+: bs := fun b hb => by
      obtain ⟨init, later, rfl⟩ := List.append_of_mem hb
      exact ⟨init, later, by simp⟩
    refine ⟨fun b hb => ?_, bodyless, agrees, fun b hb => ?_, fun b head => ?_⟩
    · obtain ⟨init, h⟩ := at_cut b hb
      exact (waits init b h).1
    · obtain ⟨init, h⟩ := at_cut b hb
      simpa using (withheld init b h).1
    · obtain ⟨later, rfl⟩ : ∃ later, bs = b :: later := by
        cases bs <;> simp_all
      obtain ⟨-, value, found, short⟩ := withheld [] b ⟨later, rfl⟩
      simp only [List.nil_append, firstContentLength, List.filterMap_cons] at found
      refine ⟨value, ?_, by omega⟩
      cases here : (fieldsOf (report b)).lookup contentLengthField <;> simp_all

theorem buffers_snoc (init : List Delivery) (last : Delivery) :
    buffers [] ((init ++ [last]).map Delivery.chunk) =
      buffers [] (init.map Delivery.chunk) ++ [bytesOf (init ++ [last])] := by
  simp [buffers_append, buffers, bytesOf]

theorem cuts_snoc (init : List Delivery) (last : Delivery) :
    cuts (init ++ [last]) = buffers [] (init.map Delivery.chunk) := by
  rw [cuts, buffers_snoc, List.dropLast_concat]

/-- The request that a single read of the bytes gives. -/
def requestIn (heap : Indeterminate) (msg : Bytes) : Request :=
  (Context.new heap).request.after (report msg)

theorem passed_whole_iff {first : Delivery} {rest : List Delivery} {r : Request} :
    passed [whole first rest] = .ok [some r] ↔
      HarmlessOn first.heap.settings (bytesOf (first :: rest)) ∧
        isComplete (requestIn first.heap (bytesOf (first :: rest))) = true ∧
        requestIn first.heap (bytesOf (first :: rest)) = r := by
  have single := passed_last_iff first.heap [] (whole first rest) (r := r) (by simp [whole])
  have bytes : bytesOf ([] ++ [whole first rest]) = bytesOf (first :: rest) := by
    simp [bytesOf, whole]
  have request : requestOf first.heap (([] ++ [whole first rest]).map Delivery.chunk) =
      requestIn first.heap (bytesOf (first :: rest)) := by
    simp [requestOf, requestIn, whole, buffers, reports]
  have waits : Waits first.heap (buffers [] (([] : List Delivery).map Delivery.chunk)) :=
    fun init b h => by simp at h
  rw [bytes, request] at single
  exact ⟨fun h => (single.mp h).2, fun h => single.mpr ⟨waits, h⟩⟩

/-- The core of the matter, for reads with a last one. -/
theorem passed_last_undisturbed {heap : Indeterminate} {init : List Delivery} {last : Delivery}
    (head : ∀ d, (init ++ [last]).head? = some d → d.heap = heap)
    (accepted :
      (httpParserExecute httpParserInit (bytesOf (init ++ [last]))).parser.httpErrno = .ok)
    (harmless : HarmlessOn heap.settings (bytesOf (init ++ [last])))
    (complete : isComplete (requestIn heap (bytesOf (init ++ [last]))) = true) :
    passed (init ++ [last]) = .ok (List.replicate init.length none ++
        [some (requestIn heap (bytesOf (init ++ [last])))]) ↔
      Undisturbed heap (bytesOf (init ++ [last])) (cuts (init ++ [last])) := by
  have growing := buffers_pairwise [] ((init ++ [last]).map Delivery.chunk)
  rw [buffers_snoc, List.pairwise_append] at growing
  have shorter : ∀ b ∈ buffers [] (init.map Delivery.chunk), b <+: bytesOf (init ++ [last]) :=
    fun b hb => growing.2.2 b hb _ (List.mem_singleton_self _)
  -- The last buffer is the message itself; the ones before it are the cuts.
  have request : requestOf heap ((init ++ [last]).map Delivery.chunk) =
      (Context.new heap).request.after (reports (buffers [] (init.map Delivery.chunk)) ++
        report (bytesOf (init ++ [last]))) := by
    rw [requestOf, buffers_snoc, reports_append]
    simp [reports]
  rw [passed_last_iff heap init last head, cuts_snoc,
    undisturbed_iff growing.1 shorter accepted, request]
  constructor
  · rintro ⟨waits, -, -, same⟩
    exact ⟨waits, same⟩
  · rintro ⟨waits, same⟩
    exact ⟨waits, harmless, by rw [same]; exact complete, same⟩

theorem exists_last (first : Delivery) (rest : List Delivery) :
    ∃ init last, first :: rest = init ++ [last] ∧ rest.length = init.length ∧
      ∀ d, (init ++ [last]).head? = some d → d.heap = first.heap := by
  refine ⟨_, _, (List.dropLast_append_getLast (List.cons_ne_nil first rest)).symm, by simp,
    fun d h => ?_⟩
  rw [List.dropLast_append_getLast, List.head?_cons, Option.some.injEq] at h
  rw [h]

/-- **Fragmentation.** When a single read of a message passes a request on, the same
message in pieces passes that request on, at its last read and nothing before, iff
its cuts leave no trace. -/
theorem passed_iff (first : Delivery) (rest : List Delivery) (r : Request)
    (accepts : AcceptsOne (bytesOf (first :: rest)))
    (single : passed [whole first rest] = .ok [some r]) :
    passed (first :: rest) = .ok (List.replicate rest.length none ++ [some r]) ↔
      Undisturbed first.heap (bytesOf (first :: rest)) (cuts (first :: rest)) := by
  obtain ⟨harmless, complete, rfl⟩ := passed_whole_iff.mp single
  obtain ⟨init, last, split, length, head⟩ := exists_last first rest
  rw [split] at accepts harmless complete ⊢
  rw [length]
  exact passed_last_undisturbed head accepts.accepted harmless complete

/-- The theorem at a request whose body comes in a read of its own. -/
theorem passed_iff_body_apart :
    passed
      [⟨⟨.get, ⟨1, 1⟩, ⟨false, false⟩⟩, bytes "POST / HTTP/1.1\r\nContent-Length: 2\r\n\r\n",
          by decide⟩,
        ⟨⟨.get, ⟨1, 1⟩, ⟨false, false⟩⟩, bytes "xy", by decide⟩] =
      .ok [none, some (requestIn ⟨.get, ⟨1, 1⟩, ⟨false, false⟩⟩
        (bytes "POST / HTTP/1.1\r\nContent-Length: 2\r\n\r\nxy"))] := by
  let heap : Indeterminate := ⟨.get, ⟨1, 1⟩, ⟨false, false⟩⟩
  let head : Bytes := bytes "POST / HTTP/1.1\r\nContent-Length: 2\r\n\r\n"
  let first : Delivery := ⟨heap, head, by decide⟩
  let second : Delivery := ⟨heap, bytes "xy", by decide⟩
  have fields : fieldsOf (report ([] ++ head)) = fieldsOf (report (bytesOf [first, second])) := by
    decide +kernel
  have accepts : AcceptsOne (bytesOf [first, second]) :=
    ⟨by decide +kernel, by decide +kernel, by decide +kernel, by decide +kernel⟩
  have single : passed [whole first [second]] =
      .ok [some (requestIn heap (bytesOf [first, second]))] :=
    passed_whole_iff.mpr ⟨by decide +kernel, by decide +kernel, rfl⟩
  refine (passed_iff first [second] _ accepts single).mpr {
    harmless := by decide +kernel
    bodyless := by decide +kernel
    agrees := fun b hb => ?_
    bodied := by decide +kernel
    awaited := fun b h => ?_ }
  · rw [List.mem_singleton.mp hb]
    exact fun name value found => fields ▸ found
  · rw [← Option.some.inj h]
    exact ⟨bytes "2", by decide +kernel, by decide +kernel⟩

/-- A request line in two reads is passed on at the first. -/
theorem split_request_line_passes_early :
    ¬ ∀ (first : Delivery) (rest : List Delivery) (r : Request),
      AcceptsOne (bytesOf (first :: rest)) → passed [whole first rest] = .ok [some r] →
      passed (first :: rest) = .ok (List.replicate rest.length none ++ [some r]) := by
  intro all
  let heap : Indeterminate := ⟨.get, ⟨1, 1⟩, ⟨false, false⟩⟩
  let first : Delivery := ⟨heap, bytes "GET / HT", by decide⟩
  let second : Delivery := ⟨heap, bytes "TP/1.1\r\n\r\n", by decide⟩
  have accepts : AcceptsOne (bytesOf [first, second]) :=
    ⟨by decide +kernel, by decide +kernel, by decide +kernel, by decide +kernel⟩
  have single : passed [whole first [second]] =
      .ok [some (requestIn heap (bytesOf [first, second]))] :=
    passed_whole_iff.mpr ⟨by decide +kernel, by decide +kernel, rfl⟩
  -- At "GET / HT" nothing announces a body, so the request counts as complete.
  have early : (passed [first, second]).map (fun os => os.map Option.isSome) =
      .ok [true, true] := by decide +kernel
  rw [all first [second] _ accepts single] at early
  simp [Except.map] at early

/-! ## Several messages -/

/-- The parser reports the same request on both: the same method, version and URL, the
same fields and the same body. -/
structure ReportsAlike (b msg : Bytes) : Prop where
  method : lastOf Callback.method (report b) = lastOf Callback.method (report msg)
  version : lastOf Callback.version (report b) = lastOf Callback.version (report msg)
  url : lastOf Callback.url (report b) = lastOf Callback.url (report msg)
  fields : fieldsOf (report b) = fieldsOf (report msg)
  body : bodyOf (report b) = bodyOf (report msg)

/-- Some reads bring one message. The parser reports on their bytes the request of the
message alone, so that anything else they hold, such as the line break another message
begins with, is passed over in silence; nothing makes a callback fail, no content length
holds the message back and its cuts leave no trace. -/
structure Brings (first : Delivery) (rest : List Delivery) (msg : Bytes) : Prop where
  accepted : (httpParserExecute httpParserInit (bytesOf (first :: rest))).parser.httpErrno = .ok
  alike : ReportsAlike (bytesOf (first :: rest)) msg
  harmless : HarmlessOn first.heap.settings (bytesOf (first :: rest))
  answered : ¬ Withheld first.heap [msg]
  undisturbed : Undisturbed first.heap msg (cuts (first :: rest))

/-- The reads of a connection, the messages that they bring one after the other, and the
requests that these messages are. -/
inductive Aligned : List Delivery → List Bytes → List Request → Prop
  | nil : Aligned [] [] []
  | message {first : Delivery} {rest ds : List Delivery} {msg : Bytes} {msgs : List Bytes}
      {rs : List Request} (brings : Brings first rest msg) (later : Aligned ds msgs rs) :
      Aligned (first :: rest ++ ds) (msg :: msgs) (requestIn first.heap msg :: rs)

theorem ReportsAlike.requestIn {heap : Indeterminate} {b msg : Bytes}
    (alike : ReportsAlike b msg) : requestIn heap b = requestIn heap msg := by
  obtain ⟨method, version, url, fields, body⟩ := alike
  simp only [Http.requestIn, Request.after, method, version, url, fields, body]

theorem Undisturbed.congr {heap : Indeterminate} {b msg : Bytes} {bs : List Bytes}
    (undisturbed : Undisturbed heap msg bs) (alike : ReportsAlike b msg) :
    Undisturbed heap b bs :=
  { undisturbed with agrees := alike.fields ▸ undisturbed.agrees }

/-- A message on its own is complete iff its content length does not hold it back. -/
theorem isComplete_requestIn {heap : Indeterminate} {msg : Bytes} :
    isComplete (requestIn heap msg) = true ↔ ¬ Withheld heap [msg] := by
  have held := isComplete_after_reports heap (List.pairwise_singleton (· <+: ·) msg)
  have single : reports [msg] = report msg := by simp [reports]
  rw [single] at held
  rw [← held, Bool.not_eq_false, requestIn]

theorem serve_some_cookie {cookie cookie' : Option Context} {arrival : Arrival} {r : Request}
    (h : serve cookie arrival = .ok (some r, cookie')) : cookie' = none := by
  unfold serve handleConnection at h
  split at h
  · cases h
  · simp only [Machine.bind_eq_ok, pure, Except.pure, Except.ok.injEq] at h
    obtain ⟨c, -, h⟩ := h
    split_ifs at h
    · simp_all
    · simp at h

/-- The reads of one message, when its cuts leave no trace, leave no context either. -/
theorem run_message {first : Delivery} {rest : List Delivery} {msg : Bytes}
    (brings : Brings first rest msg) :
    Machine.run serve none ((first :: rest).map Delivery.arrival) =
      .ok (List.replicate rest.length none ++ [some (requestIn first.heap msg)], none) := by
  obtain ⟨accepted, alike, harmless, answered, undisturbed⟩ := brings
  have same : requestIn first.heap (bytesOf (first :: rest)) = requestIn first.heap msg :=
    alike.requestIn
  have complete : isComplete (requestIn first.heap (bytesOf (first :: rest))) = true := by
    rw [same]
    exact isComplete_requestIn.mpr answered
  have cut := undisturbed.congr alike
  rw [← same]
  obtain ⟨init, last, split, length, head⟩ := exists_last first rest
  rw [split] at accepted harmless complete cut ⊢
  rw [length]
  obtain ⟨cookie', ran⟩ := passed_eq_ok.mp
    ((passed_last_undisturbed head accepted harmless complete).mpr cut)
  -- The read that passes the request on drops the context.
  obtain ⟨cookie, -, step⟩ := run_snoc_quiet.mp ran
  rwa [serve_some_cookie step] at ran

/-- **Pipelining.** Messages that the reads bring one after the other are passed on in
order, each at its last read, and each as the request that it is on its own. -/
theorem pipelined {ds : List Delivery} {msgs : List Bytes} {rs : List Request}
    (aligned : Aligned ds msgs rs) :
    ∃ os, passed ds = .ok os ∧ os.filterMap id = rs := by
  have ran : ∃ os, Machine.run serve none (ds.map Delivery.arrival) = .ok (os, none) ∧
      os.filterMap id = rs := by
    induction aligned with
    | nil => exact ⟨[], rfl, rfl⟩
    | @message first rest ds msg msgs rs brings later ih =>
      obtain ⟨os, ran, order⟩ := ih
      refine ⟨(List.replicate rest.length none ++ [some (requestIn first.heap msg)]) ++ os, ?_, ?_⟩
      -- The next message starts without a context, as the first one did.
      · rw [List.map_append, Machine.run_append_eq_ok]
        exact ⟨none, _, os, run_message brings, ran, rfl⟩
      · rw [List.filterMap_append, order]
        simp [List.filterMap_append, List.filterMap_replicate_of_none]
  obtain ⟨os, ran, order⟩ := ran
  exact ⟨os, passed_eq_ok.mpr ⟨none, ran⟩, order⟩

/-- Two messages, the second of which begins with a line break that comes with the first. -/
theorem pipelined_two_reads :
    ∃ os, passed
        [⟨⟨.get, ⟨1, 1⟩, ⟨false, false⟩⟩, bytes "GET /a HTTP/1.1\r\n\r\n\r\n", by decide⟩,
          ⟨⟨.post, ⟨1, 0⟩, ⟨true, true⟩⟩, bytes "GET /b HTTP/1.1\r\n\r\n", by decide⟩] = .ok os ∧
      os.filterMap id =
        [requestIn ⟨.get, ⟨1, 1⟩, ⟨false, false⟩⟩ (bytes "GET /a HTTP/1.1\r\n\r\n"),
          requestIn ⟨.post, ⟨1, 0⟩, ⟨true, true⟩⟩ (bytes "\r\nGET /b HTTP/1.1\r\n\r\n")] := by
  let a : Delivery :=
    ⟨⟨.get, ⟨1, 1⟩, ⟨false, false⟩⟩, bytes "GET /a HTTP/1.1\r\n\r\n\r\n", by decide⟩
  let b : Delivery := ⟨⟨.post, ⟨1, 0⟩, ⟨true, true⟩⟩, bytes "GET /b HTTP/1.1\r\n\r\n", by decide⟩
  have uncut : ∀ (d : Delivery) (msg : Bytes), Undisturbed d.heap msg (cuts [d]) := fun d msg =>
    ⟨by simp [cuts, buffers], by simp [cuts, buffers], by simp [cuts, buffers],
      by simp [cuts, buffers], by simp [cuts, buffers]⟩
  have first : Brings a [] (bytes "GET /a HTTP/1.1\r\n\r\n") := {
    accepted := by decide +kernel
    alike := ⟨by decide +kernel, by decide +kernel, by decide +kernel, by decide +kernel,
      by decide +kernel⟩
    harmless := by decide +kernel
    answered := isComplete_requestIn.mp (by decide +kernel)
    undisturbed := uncut a _ }
  have second : Brings b [] (bytes "\r\nGET /b HTTP/1.1\r\n\r\n") := {
    accepted := by decide +kernel
    alike := ⟨by decide +kernel, by decide +kernel, by decide +kernel, by decide +kernel,
      by decide +kernel⟩
    harmless := by decide +kernel
    answered := isComplete_requestIn.mp (by decide +kernel)
    undisturbed := uncut b _ }
  exact pipelined (.message first (.message second .nil))

/-- Two messages in one read are passed on as one. -/
theorem messages_in_one_read_merge :
    ¬ ∀ (heap : Indeterminate) (msgs : List Bytes) (ds : List Delivery),
      (∀ d ∈ ds, d.heap = heap) → bytesOf ds = msgs.flatten →
      (∀ msg ∈ msgs, AcceptsOne msg ∧ HarmlessOn heap.settings msg ∧
        isComplete (requestIn heap msg) = true) →
      ∃ os, passed ds = .ok os ∧ os.filterMap id = msgs.map (requestIn heap) := by
  intro all
  let heap : Indeterminate := ⟨.get, ⟨1, 1⟩, ⟨false, false⟩⟩
  let msg : Bytes := bytes "GET / HTTP/1.1\r\n\r\n"
  let both : Delivery := ⟨heap, msg ++ msg, by decide⟩
  have accepts : AcceptsOne msg :=
    ⟨by decide +kernel, by decide +kernel, by decide +kernel, by decide +kernel⟩
  have each : ∀ m ∈ [msg, msg], AcceptsOne m ∧ HarmlessOn heap.settings m ∧
      isComplete (requestIn heap m) = true := fun m hm => by
    obtain rfl : m = msg := by simpa using hm
    exact ⟨accepts, by decide +kernel, by decide +kernel⟩
  obtain ⟨os, ran, order⟩ := all heap [msg, msg] [both] (by simp [both]) (by simp [bytesOf, both])
    each
  -- One read passes at most one request, and there are two messages.
  have one : (passed [both]).map List.length = .ok 1 := by decide +kernel
  rw [ran] at one
  have two := congrArg List.length order
  have bound := List.length_filterMap_le id os
  simp only [Except.map, Except.ok.injEq] at one
  simp only [List.length_map, List.length_cons, List.length_nil] at two
  omega

end Viking.Http
