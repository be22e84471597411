/-
# Reading a request line

The main loop of the parser, followed over the request line of a request that is written as
it should be. `Leads` says where a piece of text takes an execution, and the pieces are put
together by `Leads.trans`.

Every byte of a head is charged to the header limit once, the bytes of a name and of a value
when the loop over them ends. `between` and `within` are the executions outside these loops,
with nothing open or with a text open; both carry the number of bytes charged so far.
-/

import Viking.Http.ParserReports

namespace Viking.Http

open Execution

/-! ## Where a text leads -/

/-- Between two bytes, with no text open. -/
def between (p : HttpParser) (s : State) (n : ℕ) (calls : List Callback) (k : ℕ) : Execution :=
  { parser := { p with state := s, nread := n }, callbacks := calls, parsed := k }

/-- Between two bytes of a text. -/
def within (p : HttpParser) (s : State) (n : ℕ) (m : Mark) (text : Bytes) (calls : List Callback)
    (k : ℕ) : Execution :=
  { parser := { p with state := s, nread := n }, marked := some (m, text), callbacks := calls,
    parsed := k }

/-- The text leads from one execution to another, whatever was parsed before. -/
def Leads (before after : ℕ → Execution) (text : Bytes) : Prop :=
  ∀ k, ∃ k', text.foldl step (before k) = after k'

section Calculus

variable {e next : Execution} {ch : Byte} {f g h : ℕ → Execution} {text text' : Bytes}

theorem Leads.refl (f : ℕ → Execution) : Leads f f [] := fun k => ⟨k, rfl⟩

theorem Leads.trans (first : Leads f g text) (second : Leads g h text') :
    Leads f h (text ++ text') := by
  intro k
  obtain ⟨k', hk⟩ := first k
  obtain ⟨k'', hk'⟩ := second k'
  exact ⟨k'', by rw [List.foldl_append, hk, hk']⟩

theorem Leads.step (leads : Leads f g [ch]) (k : ℕ) : ∃ k', (f k).step ch = g k' := leads k

/-- One byte outside the inner loops of a head: it is charged, and the `switch` reads it. -/
theorem consume_head (outer : e.inner = none) (head : e.parser.state.parsingHeader = true)
    (room : e.parser.nread < httpMaxHeaderSize) :
    e.consume ch =
      dispatch { e with parser := { e.parser with nread := e.parser.nread + 1 } } ch := by
  have small : (e.parser.nread + 1) % 2 ^ 32 = e.parser.nread + 1 := by
    rw [httpMaxHeaderSize] at room
    omega
  simp only [consume, outer, head, if_true, countHeaderSize, small]
  rw [if_neg (by omega), ← outer]

theorem step_consumed (live : e.returned = false) (consumed : e.consume ch = next)
    (live' : next.returned = false) : e.step ch = next.advance ch := by
  simp only [step, live, consumed, live', Bool.false_eq_true, if_false]

theorem step_head (live : e.returned = false) (outer : e.inner = none)
    (head : e.parser.state.parsingHeader = true) (room : e.parser.nread < httpMaxHeaderSize)
    (goes : dispatch { e with parser := { e.parser with nread := e.parser.nread + 1 } } ch = next)
    (live' : next.returned = false) : e.step ch = next.advance ch :=
  step_consumed live ((consume_head outer head room).trans goes) live'

/-- One byte that opens no text and closes none. The count may begin again behind it. -/
theorem leads_between {p p' : HttpParser} {s s' : State} {n m : ℕ} {calls calls' : List Callback}
    (head : s.parsingHeader = true) (room : n < httpMaxHeaderSize)
    (goes : ∀ k, (between p s (n + 1) calls k).dispatch ch = between p' s' m calls' k) :
    Leads (between p s n calls) (between p' s' m calls') [ch] := by
  intro k
  refine ⟨k + 1, ?_⟩
  rw [List.foldl_cons, List.foldl_nil]
  have stepped := step_head (e := between p s n calls k) rfl rfl head room (goes k) rfl
  exact stepped

/-- One byte that opens a text. -/
theorem leads_open {p p' : HttpParser} {s s' : State} {n : ℕ} {m : Mark} {calls : List Callback}
    (head : s.parsingHeader = true) (room : n < httpMaxHeaderSize)
    (goes : ∀ k, (between p s (n + 1) calls k).dispatch ch = within p' s' (n + 1) m [] calls k) :
    Leads (between p s n calls) (within p' s' (n + 1) m [ch] calls) [ch] := by
  intro k
  refine ⟨k + 1, ?_⟩
  rw [List.foldl_cons, List.foldl_nil]
  have stepped := step_head (e := between p s n calls k) rfl rfl head room (goes k) rfl
  exact stepped

/-- One byte of a text that is open. -/
theorem leads_within {p p' : HttpParser} {s s' : State} {n : ℕ} {m : Mark} {t : Bytes}
    {calls : List Callback} (head : s.parsingHeader = true) (room : n < httpMaxHeaderSize)
    (goes : ∀ k, (within p s (n + 1) m t calls k).dispatch ch = within p' s' (n + 1) m t calls k) :
    Leads (within p s n m t calls) (within p' s' (n + 1) m (t ++ [ch]) calls) [ch] := by
  intro k
  refine ⟨k + 1, ?_⟩
  rw [List.foldl_cons, List.foldl_nil]
  have stepped := step_head (e := within p s n m t calls k) rfl rfl head room (goes k) rfl
  exact stepped

/-- One byte that closes a text. -/
theorem leads_close {p p' : HttpParser} {s s' : State} {n : ℕ} {m : Mark} {t : Bytes}
    {calls calls' : List Callback} (head : s.parsingHeader = true) (room : n < httpMaxHeaderSize)
    (goes : ∀ k, (within p s (n + 1) m t calls k).dispatch ch = between p' s' (n + 1) calls' k) :
    Leads (within p s n m t calls) (between p' s' (n + 1) calls') [ch] := by
  intro k
  refine ⟨k + 1, ?_⟩
  rw [List.foldl_cons, List.foldl_nil]
  have stepped := step_head (e := within p s n m t calls k) rfl rfl head room (goes k) rfl
  exact stepped

end Calculus

/-! ## The method -/

/-- The parser after a method. -/
def methodRead (hm : HttpMethod) : HttpParser :=
  { httpParserInit with
    index := (httpMethodStr hm).length + 1, contentLength := ullongMax, method := hm }

/-- The methods are read back from their spellings, but for `M - SEARCH`, where the first blank is
an error. -/
theorem foldl_method {hm : HttpMethod} (spelled : hm ≠ .msearch) :
    (httpMethodStr hm ++ [ascii ' ']).foldl step { parser := httpParserInit } =
      between (methodRead hm) .reqSpacesBeforeUrl ((httpMethodStr hm).length + 1)
        [.onMessageBegin] ((httpMethodStr hm).length + 1) := by
  revert spelled
  cases hm <;> decide +kernel

/-- The server knows no method by that spelling. -/
theorem ne_msearch {hm : HttpMethod} (known : (methodOf hm).isSome = true) : hm ≠ .msearch := by
  rintro rfl
  exact absurd known (by decide)

/-! ## The target -/

section Target

variable {p : HttpParser} {s : State} {n : ℕ} {t target : Bytes} {c : Byte} {calls : List Callback}

/-- The states in which a blank ends the target. -/
def State.endsTarget : State → Bool
  | .reqServer | .reqServerWithAt | .reqPath | .reqQueryStringStart | .reqQueryString
  | .reqFragmentStart | .reqFragment => true
  | _ => false

/-- Targets are part of the head. -/
theorem parsingHeader_of_url (url : s.mark = some .url) : s.parsingHeader = true := by
  cases s <;> simp [State.mark] at url <;> rfl

/-- No byte that ends a line or a target is part of one. -/
theorem parseUrlChar_plain (alive : parseUrlChar s c ≠ .dead) :
    c ≠ ascii ' ' ∧ c ≠ cr ∧ c ≠ lf := by
  by_contra special
  have ends : c = ascii ' ' ∨ c = cr ∨ c = lf := by
    by_contra plain
    rw [not_or, not_or] at plain
    exact special plain
  exact alive (by simp only [parseUrlChar, if_pos ends])

theorem leads_urlChar (url : s.mark = some .url) (alive : parseUrlChar s c ≠ .dead)
    (room : n < httpMaxHeaderSize) :
    Leads (within p s n .url t calls) (within p (parseUrlChar s c) (n + 1) .url (t ++ [c]) calls)
      [c] := by
  obtain ⟨blank, cr, lf⟩ := parseUrlChar_plain alive
  refine leads_within (parsingHeader_of_url url) room fun k => ?_
  have moved : (within p s (n + 1) .url t calls k).urlChar c =
      within p (parseUrlChar s c) (n + 1) .url t calls k := by
    show (if parseUrlChar s c = .dead then _ else _) = _
    rw [if_neg alive]
    rfl
  cases s with
  | reqSchema | reqSchemaSlash | reqSchemaSlashSlash | reqServerStart =>
    show (within _ _ _ _ _ _ _).reqSchema c = _
    rw [reqSchema, if_neg (by simp [blank, cr, lf])]
    exact moved
  | reqServer | reqServerWithAt | reqPath | reqQueryStringStart | reqQueryString
  | reqFragmentStart | reqFragment =>
    show (within _ _ _ _ _ _ _).reqUrl c = _
    rw [reqUrl, if_neg blank, if_neg (by simp [cr, lf])]
    exact moved
  | _ => simp [State.mark] at url

theorem foldl_parseUrlChar_dead (target : Bytes) : target.foldl parseUrlChar .dead = .dead := by
  induction target with
  | nil => rfl
  | cons c target ih =>
    have dead : parseUrlChar .dead c = .dead := by
      simp only [parseUrlChar]
      split_ifs <;> rfl
    rw [List.foldl_cons, dead, ih]

/-- The rest of a target that the URL parser accepts. -/
theorem leads_target (url : s.mark = some .url) (alive : target.foldl parseUrlChar s ≠ .dead)
    (room : n + target.length ≤ httpMaxHeaderSize) :
    Leads (within p s n .url t calls)
      (within p (target.foldl parseUrlChar s) (n + target.length) .url (t ++ target) calls)
      target := by
  induction target generalizing s n t with
  | nil =>
    rw [List.append_nil]
    exact Leads.refl _
  | cons c target ih =>
    rw [List.foldl_cons] at alive
    rw [List.length_cons] at room
    have alive' : parseUrlChar s c ≠ .dead := by
      intro dead
      rw [dead] at alive
      exact alive (foldl_parseUrlChar_dead target)
    have first : Leads (within p s n .url t calls) _ [c] := leads_urlChar url alive' (by omega)
    have rest := ih (n := n + 1) (t := t ++ [c]) (parseUrlChar_mark alive').1 alive (by omega)
    have whole := first.trans rest
    rw [List.append_assoc, Nat.add_assoc, Nat.add_comm 1] at whole
    exact whole

/-- The first byte of a target. -/
theorem leads_targetStart (method : p.method ≠ .connect)
    (alive : parseUrlChar .reqSpacesBeforeUrl c ≠ .dead) (room : n < httpMaxHeaderSize) :
    Leads (between p .reqSpacesBeforeUrl n calls)
      (within p (parseUrlChar .reqSpacesBeforeUrl c) (n + 1) .url [c] calls) [c] := by
  obtain ⟨blank, -, -⟩ := parseUrlChar_plain alive
  refine leads_open rfl room fun k => ?_
  show (between _ _ _ _ _).reqSpacesBeforeUrl c = _
  have other : (between p .reqSpacesBeforeUrl (n + 1) calls k).parser.method ≠ .connect := method
  simp only [reqSpacesBeforeUrl, if_neg blank]
  rw [if_neg (by exact other)]
  show (if parseUrlChar .reqSpacesBeforeUrl c = .dead then _ else _) = _
  rw [if_neg alive]
  rfl

/-- The blank behind a target. -/
theorem leads_targetEnd (ends : s.endsTarget = true) (room : n < httpMaxHeaderSize) :
    Leads (within p s n .url t calls)
      (between p .reqHttpStart (n + 1) (calls ++ [.onUrl t])) [ascii ' '] := by
  have head : s.parsingHeader = true := by
    cases s <;> simp [State.endsTarget] at ends <;> rfl
  refine leads_close head room fun k => ?_
  cases s with
  | reqServer | reqServerWithAt | reqPath | reqQueryStringStart | reqQueryString
  | reqFragmentStart | reqFragment => rfl
  | _ => simp [State.endsTarget] at ends

/-- A whole target, with the blank behind it. -/
theorem leads_wholeTarget (method : p.method ≠ .connect)
    (accepted : (target.foldl parseUrlChar .reqSpacesBeforeUrl).endsTarget = true)
    (room : n + target.length + 1 ≤ httpMaxHeaderSize) :
    Leads (between p .reqSpacesBeforeUrl n calls)
      (between p .reqHttpStart (n + target.length + 1) (calls ++ [.onUrl target]))
      (target ++ [ascii ' ']) := by
  cases target with
  | nil => cases accepted
  | cons c target =>
    rw [List.foldl_cons] at accepted
    rw [List.length_cons] at room ⊢
    have alive : target.foldl parseUrlChar (parseUrlChar .reqSpacesBeforeUrl c) ≠ .dead := by
      intro dead
      rw [dead] at accepted
      cases accepted
    have alive' : parseUrlChar .reqSpacesBeforeUrl c ≠ .dead := by
      intro dead
      rw [dead] at alive
      exact alive (foldl_parseUrlChar_dead target)
    have start : Leads (between p .reqSpacesBeforeUrl n calls) _ [c] :=
      leads_targetStart method alive' (by omega)
    have rest := start.trans (leads_target (parseUrlChar_mark alive').1 alive (by omega))
    have whole := rest.trans (leads_targetEnd accepted (by omega))
    rw [Nat.add_assoc n 1, Nat.add_comm 1] at whole
    exact whole

/-- The version, up to the end of its line. -/
theorem leads_version (room : n + 10 ≤ httpMaxHeaderSize) :
    Leads (between p .reqHttpStart n calls)
      (between { p with httpMajor := 1, httpMinor := 1 } .headerFieldStart (n + 10) calls)
      (bytes "HTTP/1.1\r\n") := by
  have h : Leads (between p .reqHttpStart n calls) (between p .reqHttpH (n + 1) calls)
      [ascii 'H'] := leads_between rfl (by omega) fun _ => rfl
  have t : Leads (between p .reqHttpH (n + 1) calls) (between p .reqHttpHT (n + 2) calls)
      [ascii 'T'] := leads_between rfl (by omega) fun _ => rfl
  have t' : Leads (between p .reqHttpHT (n + 2) calls) (between p .reqHttpHTT (n + 3) calls)
      [ascii 'T'] := leads_between rfl (by omega) fun _ => rfl
  have p' : Leads (between p .reqHttpHTT (n + 3) calls) (between p .reqHttpHTTP (n + 4) calls)
      [ascii 'P'] := leads_between rfl (by omega) fun _ => rfl
  have slash : Leads (between p .reqHttpHTTP (n + 4) calls)
      (between p .reqFirstHttpMajor (n + 5) calls) [ascii '/'] :=
    leads_between rfl (by omega) fun _ => rfl
  have major : Leads (between p .reqFirstHttpMajor (n + 5) calls)
      (between { p with httpMajor := 1 } .reqHttpMajor (n + 6) calls) [ascii '1'] :=
    leads_between rfl (by omega) fun _ => rfl
  have dot : Leads (between { p with httpMajor := 1 } .reqHttpMajor (n + 6) calls)
      (between { p with httpMajor := 1 } .reqFirstHttpMinor (n + 7) calls) [ascii '.'] :=
    leads_between rfl (by omega) fun _ => rfl
  have minor : Leads (between { p with httpMajor := 1 } .reqFirstHttpMinor (n + 7) calls)
      (between { p with httpMajor := 1, httpMinor := 1 } .reqHttpMinor (n + 8) calls) [ascii '1'] :=
    leads_between rfl (by omega) fun _ => rfl
  have cr : Leads (between { p with httpMajor := 1, httpMinor := 1 } .reqHttpMinor (n + 8) calls)
      (between { p with httpMajor := 1, httpMinor := 1 } .reqLineAlmostDone (n + 9) calls) [cr] :=
    leads_between rfl (by omega) fun _ => rfl
  have lf : Leads
      (between { p with httpMajor := 1, httpMinor := 1 } .reqLineAlmostDone (n + 9) calls)
      (between { p with httpMajor := 1, httpMinor := 1 } .headerFieldStart (n + 10) calls) [lf] :=
    leads_between rfl (by omega) fun _ => rfl
  exact ((((((((h.trans t).trans t').trans p').trans slash).trans major).trans dot).trans
    minor).trans cr).trans lf

end Target

end Viking.Http
