/-
# Targets that are reported

A request line that is cut at its blanks is read by the parser as far as it goes: a target
that is reported is one that `parse_url_char` accepts from its first byte on. `LineRead` is
where the execution stands in a line of which no byte ends a line, and `foldl_lineRead` says
that it stands there whatever the bytes are. What is reported on a request with a bad target
is therefore never that target.
-/

import Viking.Http.Decoding

namespace Viking.Http

open Execution

/-- `parse_url_char` accepts the target, and the target may end here. -/
def AcceptedTarget (target : Bytes) : Prop :=
  (target.foldl parseUrlChar .reqSpacesBeforeUrl).endsTarget = true

instance : DecidablePred AcceptedTarget := fun _ => inferInstanceAs (Decidable (_ = _))

/-! ## Targets without escapes -/

section Plain

variable {target url : Bytes}

theorem urlDecode_of_plain (plain : ascii '%' ∉ target) : urlDecode target = .ok target := by
  induction target with
  | nil => rfl
  | cons c target ih =>
    rw [List.mem_cons, not_or] at plain
    rw [urlDecode_cons_plain (Ne.symm plain.1), ih plain.2]
    rfl

/-- What is decoded is no longer than its text. -/
theorem length_urlDecode (decoded : urlDecode target = .ok url) : url.length ≤ target.length := by
  induction target using urlDecode.induct generalizing url with
  | case1 =>
    cases decoded
    exact le_rfl
  | case2 =>
    cases decoded
    exact le_rfl
  | case3 a =>
    simp only [urlDecode, if_pos] at decoded
    obtain ⟨c, -, same⟩ := Machine.bind_eq_ok.mp decoded
    cases same
    simp
  | case4 a b rest ih =>
    simp only [urlDecode, if_pos] at decoded
    obtain ⟨c, -, decoded⟩ := Machine.bind_eq_ok.mp decoded
    obtain ⟨url', decoded', same⟩ := Machine.bind_eq_ok.mp decoded
    cases same
    have shorter := ih decoded'
    simp only [List.length_cons]
    omega
  | case5 c rest other ih =>
    rw [urlDecode_cons_plain other] at decoded
    cases decoded' : urlDecode rest with
    | error fault =>
      rw [decoded'] at decoded
      cases decoded
    | ok url' =>
      rw [decoded'] at decoded
      cases decoded
      exact Nat.succ_le_succ (ih decoded')

/-- Only a text without escapes is decoded to itself. -/
theorem plain_of_urlDecode_self (decoded : urlDecode target = .ok target) :
    ascii '%' ∉ target := by
  induction target using urlDecode.induct with
  | case1 => exact List.not_mem_nil
  | case2 => exact absurd decoded (by decide)
  | case3 a =>
    simp only [urlDecode, if_pos] at decoded
    obtain ⟨c, -, same⟩ := Machine.bind_eq_ok.mp decoded
    cases same
  | case4 a b rest ih =>
    -- The two digits are missing from what is decoded.
    simp only [urlDecode, if_pos] at decoded
    obtain ⟨c, -, decoded⟩ := Machine.bind_eq_ok.mp decoded
    obtain ⟨url, decoded', same⟩ := Machine.bind_eq_ok.mp decoded
    have shorter := length_urlDecode decoded'
    have length := congrArg List.length (Except.ok.inj same)
    simp only [List.length_cons] at length
    omega
  | case5 c rest other ih =>
    rw [urlDecode_cons_plain other] at decoded
    cases decoded' : urlDecode rest with
    | error fault =>
      rw [decoded'] at decoded
      cases decoded
    | ok url =>
      rw [decoded'] at decoded
      obtain ⟨-, rfl⟩ := List.cons.inj (Except.ok.inj decoded)
      rw [List.mem_cons, not_or]
      exact ⟨Ne.symm other, ih decoded'⟩

end Plain

/-! ## Reading a request line -/

/-- The states between the target and the end of the line. -/
def State.inVersion : State → Bool
  | .reqHttpStart | .reqHttpH | .reqHttpHT | .reqHttpHTT | .reqHttpHTTP
  | .reqFirstHttpMajor | .reqHttpMajor | .reqFirstHttpMinor | .reqHttpMinor => true
  | _ => false

/-- Every target that is reported is accepted, and has no escape. -/
def AcceptedUrls (calls : List Callback) : Prop :=
  ∀ target, .onUrl target ∈ calls → AcceptedTarget target ∧ ascii '%' ∉ target

/-- Where an execution stands that has read part of a line behind its method, with `n` bytes
of the head read. -/
inductive LineRead (p : HttpParser) (calls : List Callback) (n : ℕ) : Execution → Prop
  | failed {e : Execution} (returned : e.returned = true) (urls : AcceptedUrls e.callbacks) :
    LineRead p calls n e
  | before (k : ℕ) : LineRead p calls n (between p .reqSpacesBeforeUrl n calls k)
  | target {t : Bytes} (k : ℕ)
    (url : (t.foldl parseUrlChar .reqSpacesBeforeUrl).mark = some .url) (plain : ascii '%' ∉ t) :
    LineRead p calls n
      (within p (t.foldl parseUrlChar .reqSpacesBeforeUrl) n .url t calls k)
  | version {q : HttpParser} {s : State} {t : Bytes} (k : ℕ) (simple : Simple q)
    (length : q.contentLength = p.contentLength) (state : s.inVersion = true)
    (accepted : AcceptedTarget t) (plain : ascii '%' ∉ t) :
    LineRead p calls n (between q s n (calls ++ [.onUrl t]) k)

section Line

variable {p : HttpParser} {calls : List Callback} {n : ℕ} {e : Execution} {c : Byte}
  {text : Bytes}

/-- A byte that ends the parse in an error. -/
theorem step_error {x : Execution} {err : HttpErrno} (live : e.returned = false)
    (outer : e.inner = none) (head : e.parser.state.parsingHeader = true)
    (room : e.parser.nread < httpMaxHeaderSize)
    (goes : dispatch { e with parser := { e.parser with nread := e.parser.nread + 1 } } c =
      x.error err) : e.step c = x.error err := by
  have consumed : e.consume c = x.error err := (consume_head outer head room).trans goes
  simp only [step, live, consumed, Bool.false_eq_true, if_false]
  exact if_pos rfl

theorem lineRead_error (x : Execution) (err : HttpErrno) (live : e.returned = false)
    (outer : e.inner = none) (head : e.parser.state.parsingHeader = true)
    (room : e.parser.nread < httpMaxHeaderSize) (urls : AcceptedUrls x.callbacks)
    (goes : dispatch { e with parser := { e.parser with nread := e.parser.nread + 1 } } c =
      x.error err) : LineRead p calls (n + 1) (e.step c) := by
  rw [step_error live outer head room goes]
  exact .failed rfl urls

theorem urlChar_dead {s : State} {m : Mark} {t : Bytes} {k : ℕ} (dead : parseUrlChar s c = .dead) :
    (within p s n m t calls k).urlChar c = (within p .dead n m t calls k).error .invalidUrl := by
  show (if parseUrlChar s c = .dead then
    ((within p s n m t calls k).updateState (parseUrlChar s c)).error .invalidUrl else _) = _
  rw [if_pos dead, dead]
  rfl

/-- A target cannot begin with the byte. -/
theorem dispatch_refusedStart {k : ℕ} (method : p.method ≠ .connect) (blank : c ≠ ascii ' ')
    (dead : parseUrlChar .reqSpacesBeforeUrl c = .dead) :
    (between p .reqSpacesBeforeUrl n calls k).dispatch c =
      (within p .dead n .url [] calls k).error .invalidUrl := by
  show (between _ _ _ _ _).reqSpacesBeforeUrl c = _
  have other : (between p .reqSpacesBeforeUrl n calls k).parser.method ≠ .connect := method
  simp only [reqSpacesBeforeUrl, if_neg blank]
  rw [if_neg (by exact other)]
  exact urlChar_dead dead

/-- Nor can it go on with it. -/
theorem dispatch_refused {s : State} {t : Bytes} {k : ℕ} (url : s.mark = some .url)
    (dead : parseUrlChar s c = .dead) (blank : c ≠ ascii ' ') (line : c ≠ cr ∧ c ≠ lf) :
    (within p s n .url t calls k).dispatch c =
      (within p .dead n .url t calls k).error .invalidUrl := by
  have refused := @urlChar_dead p calls n c s .url t k dead
  cases s with
  | reqSchema | reqSchemaSlash | reqSchemaSlashSlash | reqServerStart =>
    show (within _ _ _ _ _ _ _).reqSchema c = _
    rw [reqSchema, if_neg (by simp [blank, line.1, line.2])]
    exact refused
  | reqServer | reqServerWithAt | reqPath | reqQueryStringStart | reqQueryString
  | reqFragmentStart | reqFragment =>
    show (within _ _ _ _ _ _ _).reqUrl c = _
    rw [reqUrl, if_neg blank, if_neg (by simp [line.1, line.2])]
    exact refused
  | _ => simp [State.mark] at url

/-- A scheme without a server cannot end a target. -/
theorem dispatch_unended {s : State} {t : Bytes} {k : ℕ} (url : s.mark = some .url)
    (ends : s.endsTarget = false) (stop : c = ascii ' ' ∨ c = cr) :
    (within p s n .url t calls k).dispatch c =
      (within p s n .url t calls k).error .invalidUrl := by
  cases s with
  | reqSchema | reqSchemaSlash | reqSchemaSlashSlash | reqServerStart =>
    rcases stop with rfl | rfl <;> rfl
  | _ => simp [State.mark, State.endsTarget] at url ends

theorem Simple.setVersion (h : Simple p) (major minor : ℕ) :
    Simple { p with httpMajor := major, httpMinor := minor } :=
  ⟨h.trailing, h.chunked, h.skipBody, h.upgrade, h.method⟩

/-- The version goes on in `next`, or there is an error. -/
def VersionGoesOn (p : HttpParser) (n : ℕ) (calls : List Callback) (k : ℕ) (next : Execution) :
    Prop :=
  (∃ (x : Execution) (err : HttpErrno), next = x.error err ∧ x.callbacks = calls) ∨
    ∃ (q : HttpParser) (s : State), Simple q ∧ q.contentLength = p.contentLength ∧
      s.inVersion = true ∧ next = between q s n calls k

/-- Behind the target a byte goes on with the version or is an error. -/
theorem dispatch_version {s : State} {k : ℕ} (simple : Simple p) (state : s.inVersion = true)
    (line : c ≠ cr ∧ c ≠ lf) :
    VersionGoesOn p n calls k (dispatch (between p s n calls k) c) := by
  have expected (want : Byte) {s' : State} (state' : s'.inVersion = true)
      (goes : dispatch (between p s n calls k) c =
        (between p s n calls k).expect c want s') :
      VersionGoesOn p n calls k (dispatch (between p s n calls k) c) := by
    rw [goes, expect]
    split_ifs
    · exact .inl ⟨_, _, rfl, rfl⟩
    · exact .inr ⟨p, s', simple, rfl, state', rfl⟩
  cases s with
  | reqHttpH => exact expected (ascii 'T') rfl rfl
  | reqHttpHT => exact expected (ascii 'T') rfl rfl
  | reqHttpHTT => exact expected (ascii 'P') rfl rfl
  | reqHttpHTTP => exact expected (ascii '/') rfl rfl
  | reqHttpStart =>
    have goes : dispatch (between p .reqHttpStart n calls k) c =
        (between p .reqHttpStart n calls k).reqHttpStart c := rfl
    rw [goes, reqHttpStart]
    split_ifs
    · exact .inr ⟨p, .reqHttpH, simple, rfl, rfl, rfl⟩
    · exact .inr ⟨p, .reqHttpStart, simple, rfl, rfl, rfl⟩
    · exact .inl ⟨_, _, rfl, rfl⟩
  | reqFirstHttpMajor =>
    have goes : dispatch (between p .reqFirstHttpMajor n calls k) c =
        (between p .reqFirstHttpMajor n calls k).reqFirstHttpMajor c := rfl
    rw [goes, reqFirstHttpMajor]
    split_ifs
    · exact .inl ⟨_, _, rfl, rfl⟩
    · exact .inr ⟨_, .reqHttpMajor, simple.setVersion (digit c) p.httpMinor, rfl, rfl, rfl⟩
  | reqFirstHttpMinor =>
    have goes : dispatch (between p .reqFirstHttpMinor n calls k) c =
        (between p .reqFirstHttpMinor n calls k).reqFirstHttpMinor c := rfl
    rw [goes, reqFirstHttpMinor]
    split_ifs
    · exact .inl ⟨_, _, rfl, rfl⟩
    · exact .inr ⟨_, .reqHttpMinor, simple.setVersion p.httpMajor (digit c), rfl, rfl, rfl⟩
  | reqHttpMajor =>
    have goes : dispatch (between p .reqHttpMajor n calls k) c =
        (between p .reqHttpMajor n calls k).reqHttpMajor c := rfl
    rw [goes, reqHttpMajor]
    dsimp only
    split_ifs
    · exact .inr ⟨p, .reqFirstHttpMinor, simple, rfl, rfl, rfl⟩
    · exact .inl ⟨_, _, rfl, rfl⟩
    · exact .inl ⟨_, _, rfl, rfl⟩
    · exact .inr ⟨_, .reqHttpMajor,
        simple.setVersion (p.httpMajor * 10 + digit c) p.httpMinor, rfl, rfl, rfl⟩
  | reqHttpMinor =>
    have goes : dispatch (between p .reqHttpMinor n calls k) c =
        (between p .reqHttpMinor n calls k).reqHttpMinor c := rfl
    rw [goes, reqHttpMinor, if_neg line.1, if_neg line.2]
    dsimp only
    split_ifs
    · exact .inl ⟨_, _, rfl, rfl⟩
    · exact .inl ⟨_, _, rfl, rfl⟩
    · exact .inr ⟨_, .reqHttpMinor,
        simple.setVersion p.httpMajor (p.httpMinor * 10 + digit c), rfl, rfl, rfl⟩
  | _ => simp [State.inVersion] at state

theorem AcceptedUrls.snoc {t : Bytes} (urls : AcceptedUrls calls) (accepted : AcceptedTarget t)
    (plain : ascii '%' ∉ t) : AcceptedUrls (calls ++ [.onUrl t]) := by
  intro target mem
  rcases List.mem_append.mp mem with before | now
  · exact urls target before
  · simp only [List.mem_singleton, Callback.onUrl.injEq] at now
    exact now ▸ ⟨accepted, plain⟩

/-- One byte of the line, which does not end it. -/
theorem lineRead_step (simple : Simple p) (urls : AcceptedUrls calls)
    (h : LineRead p calls n e) (line : c ≠ cr ∧ c ≠ lf) (plain : c ≠ ascii '%')
    (room : n < httpMaxHeaderSize) : LineRead p calls (n + 1) (e.step c) := by
  cases h with
  | failed returned urls =>
    have stays : e.step c = e := by rw [step, if_pos returned]
    rw [stays]
    exact .failed returned urls
  | before k =>
    by_cases blank : c = ascii ' '
    · have leads : Leads (between p .reqSpacesBeforeUrl n calls)
          (between p .reqSpacesBeforeUrl (n + 1) calls) [c] := by
        subst blank
        exact leads_between rfl room fun _ => rfl
      obtain ⟨k', led⟩ := leads.step k
      exact led ▸ .before k'
    · by_cases dead : parseUrlChar .reqSpacesBeforeUrl c = .dead
      · exact lineRead_error (within p .dead (n + 1) .url [] calls k) .invalidUrl
          rfl rfl rfl room urls (dispatch_refusedStart simple.method blank dead)
      · obtain ⟨k', led⟩ := (leads_targetStart simple.method dead room).step k
        have url : ([c].foldl parseUrlChar .reqSpacesBeforeUrl).mark = some .url :=
          (parseUrlChar_mark dead).1
        exact led ▸ .target k' url (by simpa using Ne.symm plain)
  | @target t k url escapes =>
    obtain ⟨s, state⟩ : ∃ s, t.foldl parseUrlChar .reqSpacesBeforeUrl = s := ⟨_, rfl⟩
    rw [state] at url ⊢
    have head := parsingHeader_of_url url
    by_cases blank : c = ascii ' '
    · subst blank
      cases ends : s.endsTarget with
      | true =>
        obtain ⟨k', led⟩ := (leads_targetEnd ends room).step k
        exact led ▸ .version k' simple rfl rfl (by rwa [AcceptedTarget, state]) escapes
      | false =>
        exact lineRead_error (within p s (n + 1) .url t calls k) .invalidUrl
          rfl rfl head room urls (dispatch_unended url ends (.inl rfl))
    · by_cases dead : parseUrlChar s c = .dead
      · exact lineRead_error (within p .dead (n + 1) .url t calls k) .invalidUrl
          rfl rfl head room urls (dispatch_refused url dead blank line)
      · obtain ⟨k', led⟩ := (leads_urlChar url dead room).step k
        have next : (t ++ [c]).foldl parseUrlChar .reqSpacesBeforeUrl = parseUrlChar s c := by
          rw [List.foldl_append, state, List.foldl_cons, List.foldl_nil]
        rw [led, ← next]
        exact .target k' (next ▸ (parseUrlChar_mark dead).1)
          (by simp [escapes, Ne.symm plain])
  | @version q s t k simple' length state accepted escapes =>
    have reported := urls.snoc accepted escapes
    have head : s.parsingHeader = true := by
      cases s <;> simp [State.inVersion] at state <;> rfl
    have goesOn : VersionGoesOn q (n + 1) (calls ++ [.onUrl t]) k _ :=
      dispatch_version simple' state line
    rcases goesOn with ⟨x, err, goes, called⟩ | ⟨q', s', simple'', length', state', goes⟩
    · exact lineRead_error x err rfl rfl head room (called ▸ reported) goes
    · have stepped := step_head (e := between q s n (calls ++ [Callback.onUrl t]) k) rfl rfl head
        room goes rfl
      rw [stepped]
      exact .version (k + 1) simple'' (length'.trans length) state' accepted escapes

/-- Any number of bytes of the line. -/
theorem foldl_lineRead (simple : Simple p) (urls : AcceptedUrls calls) (h : LineRead p calls n e)
    (line : ∀ c ∈ text, c ≠ cr ∧ c ≠ lf) (plain : ascii '%' ∉ text)
    (room : n + text.length ≤ httpMaxHeaderSize) :
    LineRead p calls (n + text.length) (text.foldl step e) := by
  induction text generalizing n e with
  | nil => exact h
  | cons c text ih =>
    rw [List.forall_mem_cons] at line
    rw [List.mem_cons, not_or] at plain
    rw [List.length_cons] at room
    have first := lineRead_step simple urls h line.1 (Ne.symm plain.1) (by omega)
    have rest := ih first line.2 plain.2 (by omega)
    rw [Nat.add_right_comm] at rest
    exact rest

/-- The carriage return at the end of the line. -/
theorem lineRead_end (simple : Simple p) (urls : AcceptedUrls calls) (h : LineRead p calls n e)
    (room : n < httpMaxHeaderSize) :
    ((e.step cr).returned = true ∧ AcceptedUrls (e.step cr).callbacks) ∨
      ∃ q t k, Simple q ∧ q.contentLength = p.contentLength ∧ AcceptedTarget t ∧ ascii '%' ∉ t ∧
        e.step cr = between q .reqLineAlmostDone (n + 1) (calls ++ [.onUrl t]) k := by
  -- An error reports nothing but what is reported already.
  have failed {e : Execution} (x : Execution) (err : HttpErrno) (urls : AcceptedUrls x.callbacks)
      (stepped : e.step cr = x.error err) :
      (e.step cr).returned = true ∧ AcceptedUrls (e.step cr).callbacks := by
    rw [stepped]
    exact ⟨rfl, urls⟩
  cases h with
  | failed returned urls =>
    have stays : e.step cr = e := by rw [step, if_pos returned]
    rw [stays]
    exact .inl ⟨returned, urls⟩
  | before k =>
    have refused : dispatch (between p .reqSpacesBeforeUrl (n + 1) calls k) cr =
        (within p .dead (n + 1) .url [] calls k).error .invalidUrl :=
      dispatch_refusedStart simple.method (by decide) (by decide)
    exact .inl (failed _ _ urls (step_error rfl rfl rfl room refused))
  | @target t k url escapes =>
    obtain ⟨s, state⟩ : ∃ s, t.foldl parseUrlChar .reqSpacesBeforeUrl = s := ⟨_, rfl⟩
    rw [state] at url ⊢
    have head := parsingHeader_of_url url
    cases ends : s.endsTarget with
    | true =>
      -- A line without a version is that of HTTP/0.9.
      have leads : Leads (within p s n .url t calls)
          (between { p with httpMajor := 0, httpMinor := 9 } .reqLineAlmostDone (n + 1)
            (calls ++ [.onUrl t])) [cr] := by
        refine leads_close head room fun k => ?_
        cases s with
        | reqServer | reqServerWithAt | reqPath | reqQueryStringStart | reqQueryString
        | reqFragmentStart | reqFragment => rfl
        | _ => simp [State.endsTarget] at ends
      obtain ⟨k', led⟩ := leads.step k
      refine .inr ⟨_, t, k', simple.setVersion 0 9, rfl, ?_, escapes, led⟩
      rwa [AcceptedTarget, state]
    | false =>
      have refused : dispatch (within p s (n + 1) .url t calls k) cr =
          (within p s (n + 1) .url t calls k).error .invalidUrl :=
        dispatch_unended url ends (.inr rfl)
      exact .inl (failed _ _ urls (step_error rfl rfl head room refused))
  | @version q s t k simple' length state accepted escapes =>
    have reported := urls.snoc accepted escapes
    cases s with
    | reqHttpMinor =>
      have leads : Leads (between q .reqHttpMinor n (calls ++ [.onUrl t]))
          (between q .reqLineAlmostDone (n + 1) (calls ++ [.onUrl t])) [cr] :=
        leads_between rfl room fun _ => rfl
      obtain ⟨k', led⟩ := leads.step k
      exact .inr ⟨q, t, k', simple', length, accepted, escapes, led⟩
    | reqHttpStart | reqHttpH | reqHttpHT | reqHttpHTT | reqHttpHTTP | reqFirstHttpMajor
    | reqHttpMajor | reqFirstHttpMinor =>
      exact .inl (failed _ _ reported (step_error rfl rfl rfl room rfl))
    | _ => simp [State.inVersion] at state

/-- What is reported on a request without fields, whatever its target is, are accepted targets. -/
theorem acceptedUrls_report {hm : HttpMethod} {target : Bytes}
    (spelled : hm ≠ .msearch) (other : hm ≠ .connect)
    (line : ∀ c ∈ target, c ≠ cr ∧ c ≠ lf) (plain : ascii '%' ∉ target)
    (room : (requestHead hm target []).length ≤ httpMaxHeaderSize) :
    AcceptedUrls (report (requestHead hm target [])) := by
  let n := (httpMethodStr hm).length + 1
  let text : Bytes := target ++ bytes " HTTP/1.1"
  have whole : requestHead hm target [] =
      (httpMethodStr hm ++ [ascii ' ']) ++ text ++ [cr, lf, cr, lf] := by
    simp only [requestHead, text, List.append_assoc, List.flatMap_nil]
    rfl
  rw [whole, List.length_append, List.length_append, List.length_append] at room
  have room : n + text.length + 4 ≤ httpMaxHeaderSize := room
  have simple : Simple (methodRead hm) := ⟨rfl, rfl, rfl, rfl, other⟩
  have urls : AcceptedUrls [.onMessageBegin] := by
    intro target mem
    simp at mem
  -- No byte up to the end of the line ends it.
  have read : LineRead (methodRead hm) [.onMessageBegin] (n + text.length)
      (text.foldl step (between (methodRead hm) .reqSpacesBeforeUrl n [.onMessageBegin] n)) := by
    refine foldl_lineRead simple urls (.before n) ?_ ?_ (by omega)
    · rw [List.forall_mem_append]
      exact ⟨line, by decide +kernel⟩
    · rw [List.mem_append, not_or]
      exact ⟨plain, by decide +kernel⟩
  have scanned : scan (requestHead hm target []) = [lf, cr, lf].foldl step
      ((text.foldl step
        (between (methodRead hm) .reqSpacesBeforeUrl n [.onMessageBegin] n)).step cr) := by
    rw [whole, scan, List.foldl_append, List.foldl_append, foldl_method spelled]
    rfl
  rw [report_eq, scanned]
  rcases lineRead_end simple urls read (by omega) with ⟨stopped, reported⟩ |
    ⟨q, t, k, simple', length, accepted, escapes, ended⟩
  · generalize (text.foldl step _).step cr = e at stopped reported
    have stays (c : Byte) : e.step c = e := by rw [step, if_pos stopped]
    have finished : e.finish = e := by rw [finish, if_pos stopped]
    simp only [List.foldl_cons, List.foldl_nil, stays, finished]
    exact reported
  · let calls : List Callback := [.onMessageBegin] ++ [.onUrl t]
    have leads : Leads (between q .reqLineAlmostDone (n + text.length + 1) calls)
        (between q .headerFieldStart (n + text.length + 2) calls) [lf] :=
      leads_between rfl (by omega) fun _ => rfl
    obtain ⟨k', led⟩ := leads.step k
    have ready : Ready (between q .headerFieldStart (n + text.length + 2) calls k')
        (between q .headerFieldStart (n + text.length + 2) calls) := fun _ _ _ => ⟨k', rfl⟩
    obtain ⟨k'', done⟩ := foldl_emptyLine simple' ready (by omega)
    rw [ended, List.foldl_cons, led, done, headEnd, if_pos (.inr length)]
    intro target mem
    rcases List.mem_append.mp (show _ ∈ calls ++ [headerCall q, .onMessageComplete] from mem) with
      before | after
    · exact urls.snoc accepted escapes target before
    · simp [headerCall] at after

end Line

end Viking.Http
