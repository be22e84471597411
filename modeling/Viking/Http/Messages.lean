/-
# One message after the other

A message is read as if it were the first one on its connection. What earlier messages have left in
the parser is written before it is read, so nothing of it gets into a later message; only the count
of the header's bytes goes on, up to the end of the next head, when a chunked message ended before.

`Leftover` are the values that a message may find, `State.known` says how much of the parser a
message has written when it is in a state, and `Behind` relates the run of a message behind others
to the run of the message alone. `report_messages` puts what is reported together.
-/

import Mathlib.Algebra.Ring.Nat
import Viking.Http.Protocol

namespace Viking.Http

/-- What earlier messages have left in the parser, where it has not been written since. -/
structure Leftover where
  headerState : Option HeaderState
  httpMajor : Option ℕ
  httpMinor : Option ℕ

/-- How much of the parser has been written in a state: the major version, both versions, and the
header state, one after the other. -/
def State.known : State → ℕ
  | .reqHttpMajor | .reqFirstHttpMinor => 1
  | .reqHttpMinor | .reqLineAlmostDone | .headerFieldStart | .headersAlmostDone | .headersDone
  | .chunkSizeStart | .chunkSize | .chunkParameters | .chunkSizeAlmostDone
  | .chunkData | .chunkDataAlmostDone | .chunkDataDone
  | .bodyIdentity | .bodyIdentityEof | .messageDone => 2
  | .headerField | .headerValueDiscardWs | .headerValueDiscardWsAlmostDone
  | .headerValueDiscardLws | .headerValueStart | .headerValue | .headerValueLws
  | .headerAlmostDone => 3
  | _ => 0

/-- Nothing is left of what has been written. -/
structure Leftover.Unread (r : Leftover) (known : ℕ) : Prop where
  major : 1 ≤ known → r.httpMajor = none
  minor : 2 ≤ known → r.httpMinor = none
  header : 3 ≤ known → r.headerState = none

theorem Leftover.Unread.mono {r : Leftover} {known known' : ℕ} (h : r.Unread known)
    (le : Nat.ble known' known = true) : r.Unread known' := by
  have le := Nat.le_of_ble_eq_true le
  exact ⟨fun up => h.major (up.trans le), fun up => h.minor (up.trans le),
    fun up => h.header (up.trans le)⟩

/-- The parser with what is left from earlier on, and with the count `n`. -/
def HttpParser.leaving (p : HttpParser) (n : ℕ) (r : Leftover) : HttpParser :=
  { p with
    nread := n
    headerState := r.headerState.getD p.headerState
    httpMajor := r.httpMajor.getD p.httpMajor
    httpMinor := r.httpMinor.getD p.httpMinor }

/-- The execution behind `past`, in a buffer of which `k` bytes were read before. -/
def Execution.behind (u : Execution) (past : List Callback) (k n : ℕ) (r : Leftover) :
    Execution :=
  { u with
    parser := u.parser.leaving n r
    callbacks := past ++ u.callbacks
    parsed := k + u.parsed }

/-- `f` is `u` behind other messages; it has counted up to `d` bytes more, and no more than `b`. -/
structure Behind (d b : ℕ) (past : List Callback) (k n : ℕ) (r : Leftover) (u f : Execution) :
    Prop where
  eq : f = u.behind past k n r
  unread : u.returned = false → r.Unread u.parser.state.known
  le : u.parser.nread ≤ n
  near : n ≤ u.parser.nread + d
  bound : n + u.charge ≤ b

/-- `f` goes on behind other messages, or what they have counted makes its header too large. -/
def Trails (d b : ℕ) (past : List Callback) (k : ℕ) (u f : Execution) : Prop :=
  (0 < d ∧ f.returned = true ∧ f.parser.httpErrno = .headerOverflow) ∨
    ∃ n r, Behind d b past k n r u f

theorem Trails.mono {d b k : ℕ} {past : List Callback} {u f : Execution}
    (h : Trails d b past k u f) : Trails d (b + 1) past k u f := by
  rcases h with above | ⟨n, r, behind⟩
  · exact .inl above
  · have bound := behind.bound
    exact .inr ⟨n, r, behind.eq, behind.unread, behind.le, behind.near, by omega⟩

namespace Behind

variable {d b k n : ℕ} {past : List Callback} {r : Leftover} {u f x y : Execution} (ch : Byte)

/-! ## The macros -/

theorem behind_notify (call : Callback) :
    (u.behind past k n r).notify call = (u.notify call).behind past k n r := by
  simp only [Execution.notify, Execution.behind, List.append_assoc]

theorem behind_mark (m : Mark) : (u.behind past k n r).mark m = (u.mark m).behind past k n r := by
  unfold Execution.mark
  rw [show (u.behind past k n r).marked = u.marked from rfl]
  cases u.marked <;> rfl

theorem behind_callbackData (m : Mark) :
    (u.behind past k n r).callbackData m = (u.callbackData m).behind past k n r := by
  unfold Execution.callbackData
  rw [show (u.behind past k n r).marked = u.marked from rfl]
  cases u.marked with
  | none => rfl
  | some text =>
    dsimp only
    split_ifs
    · rw [behind_notify]
      rfl
    · rfl

theorem mono {b' : ℕ} (h : Behind d b past k n r u f) (le : b ≤ b') : Behind d b' past k n r u f :=
  ⟨h.eq, h.unread, h.le, h.near, h.bound.trans le⟩

/-- A step that does not count. -/
theorem keeps (h : Behind d b past k n r u f) (eq : y = x.behind past k n r)
    (unread : x.returned = false → r.Unread x.parser.state.known)
    (nread : x.parser.nread = u.parser.nread) (inner : x.inner = u.inner) :
    Behind d b past k n r x y := by
  refine ⟨eq, unread, nread ▸ h.le, nread ▸ h.near, ?_⟩
  rw [Execution.charge, inner]
  exact h.bound

theorem error {err : HttpErrno} (h : Behind d b past k n r u f) (eq : y = x.behind past k n r)
    (nread : x.parser.nread = u.parser.nread) (inner : x.inner = u.inner) :
    Trails d b past k (x.error err) (y.error err) := by
  refine .inr ⟨n, r, h.keeps ?_ nofun nread inner⟩
  rw [eq]
  rfl

end Behind

/-- The execution goes on in a state. -/
structure Reading (d b : ℕ) (past : List Callback) (k n : ℕ) (r : Leftover) (s : State)
    (u f : Execution) : Prop where
  behind : Behind d b past k n r u f
  live : u.returned = false
  state : u.parser.state = s

namespace Reading

variable {d b k n : ℕ} {past : List Callback} {r : Leftover} {s z : State} {u f x y : Execution}
  (ch : Byte)

open Execution Behind

theorem unread (h : Reading d b past k n r s u f) : r.Unread s.known := by
  have unread := h.behind.unread h.live
  rw [h.state] at unread
  exact unread

theorem parser (h : Reading d b past k n r s u f) : f.parser = u.parser.leaving n r :=
  congrArg (·.parser) h.behind.eq

theorem trails (h : Reading d b past k n r s u f) : Trails d b past k u f := .inr ⟨n, r, h.behind⟩

theorem error {err : HttpErrno} (h : Reading d b past k n r s u f) (eq : y = x.behind past k n r)
    (nread : x.parser.nread = u.parser.nread) (inner : x.inner = u.inner) :
    Trails d b past k (x.error err) (y.error err) :=
  h.behind.error eq nread inner

/-- A step to a state in which no more has been written. -/
theorem goes (h : Reading d b past k n r s u f) (eq : y = x.behind past k n r)
    (live : x.returned = u.returned) (there : x.parser.state = z)
    (known : Nat.ble z.known s.known = true) (nread : x.parser.nread = u.parser.nread)
    (inner : x.inner = u.inner) : Reading d b past k n r z x y where
  behind := by
    refine h.behind.keeps eq (fun _ => ?_) nread inner
    rw [there]
    exact h.unread.mono known
  live := live.trans h.live
  state := there

/-- A step that stays in its state. -/
theorem stays (h : Reading d b past k n r s u f) (eq : y = x.behind past k n r)
    (live : x.returned = u.returned) (there : x.parser.state = u.parser.state)
    (nread : x.parser.nread = u.parser.nread) (inner : x.inner = u.inner) :
    Reading d b past k n r s x y :=
  h.goes eq live (there.trans h.state) (Nat.ble_self_eq_true _) nread inner

theorem updateState (h : Reading d b past k n r s u f) (known : Nat.ble z.known s.known = true) :
    Reading d b past k n r z (u.updateState z) (f.updateState z) := by
  obtain rfl := h.behind.eq
  exact h.goes rfl rfl rfl known rfl rfl

theorem marks (h : Reading d b past k n r s u f) (m : Mark) :
    Reading d b past k n r s (u.mark m) (f.mark m) := by
  obtain rfl := h.behind.eq
  rw [behind_mark, mark_frame]
  exact h.stays rfl rfl rfl rfl rfl

theorem notifies (h : Reading d b past k n r s u f) (call : Callback) :
    Reading d b past k n r s (u.notify call) (f.notify call) := by
  obtain rfl := h.behind.eq
  rw [behind_notify]
  exact h.stays rfl rfl rfl rfl rfl

theorem handsOver (h : Reading d b past k n r s u f) (m : Mark) :
    Reading d b past k n r s (u.callbackData m) (f.callbackData m) := by
  obtain rfl := h.behind.eq
  rw [behind_callbackData]
  refine h.stays rfl (callbackData_returned u m) ?_ ?_ (callbackData_inner u m)
  all_goals rw [parser_callbackData]

/-! ## The request line -/

theorem reqMethod (h : Reading d b past k n r .reqMethod u f) :
    Trails d b past k (u.reqMethod ch) (f.reqMethod ch) := by
  simp only [Execution.reqMethod, h.parser, HttpParser.leaving]
  split_ifs
  all_goals obtain rfl := h.behind.eq
  · exact h.error rfl rfl rfl
  · exact trails (h.goes (z := .reqSpacesBeforeUrl) rfl rfl rfl rfl rfl rfl)
  · exact trails (h.stays rfl rfl rfl rfl rfl)
  · cases switchMethod u.parser.method u.parser.index ch with
    | none => exact h.error rfl rfl rfl
    | some method => exact trails (h.stays rfl rfl rfl rfl rfl)

theorem known_of_url (url : s.mark = some .url) : s.known = 0 := by
  cases s <;> first | rfl | cases url

theorem urlChar (h : Reading d b past k n r s u f) :
    Trails d b past k (u.urlChar ch) (f.urlChar ch) := by
  simp only [Execution.urlChar, h.parser, HttpParser.leaving]
  split_ifs with dead
  all_goals obtain rfl := h.behind.eq
  · exact h.error rfl rfl rfl
  · refine trails (h.goes (z := parseUrlChar u.parser.state ch) rfl rfl rfl ?_ rfl rfl)
    rw [known_of_url (parseUrlChar_mark dead).1]
    exact Nat.ble_eq_true_of_le (Nat.zero_le _)

theorem reqSpacesBeforeUrl (h : Reading d b past k n r .reqSpacesBeforeUrl u f) :
    Trails d b past k (u.reqSpacesBeforeUrl ch) (f.reqSpacesBeforeUrl ch) := by
  have marked := h.marks .url
  simp only [Execution.reqSpacesBeforeUrl, marked.parser, HttpParser.leaving]
  split_ifs
  · exact h.trails
  · exact (marked.updateState (z := .reqServerStart) rfl).urlChar ch
  · exact marked.urlChar ch

theorem reqSchema (h : Reading d b past k n r s u f) :
    Trails d b past k (u.reqSchema ch) (f.reqSchema ch) := by
  unfold Execution.reqSchema
  split_ifs
  · exact h.error h.behind.eq rfl rfl
  · exact h.urlChar ch

/-- The version that a line without one has. -/
theorem writesVersion (h : Reading d b past k n r s u f) (major minor : ℕ) (z : State)
    (known : Nat.ble z.known 2 = true) :
    Reading d b past k n { r with httpMajor := none, httpMinor := none } z
      { u with parser := { u.parser with httpMajor := major, httpMinor := minor, state := z } }
      { f with parser := { f.parser with httpMajor := major, httpMinor := minor, state := z } }
      where
  behind := by
    obtain rfl := h.behind.eq
    refine ⟨rfl, fun _ => ?_, h.behind.le, h.behind.near, h.behind.bound⟩
    refine ⟨fun _ => rfl, fun _ => rfl, fun three => ?_⟩
    have le := Nat.le_of_ble_eq_true known
    exact absurd (three.trans le) (by decide)
  live := h.live
  state := rfl

theorem reqUrl (h : Reading d b past k n r s u f) :
    Trails d b past k (u.reqUrl ch) (f.reqUrl ch) := by
  unfold Execution.reqUrl
  split_ifs
  · refine trails ((h.updateState (z := .reqHttpStart) ?_).handsOver .url)
    exact Nat.ble_eq_true_of_le (Nat.zero_le _)
  · exact trails ((h.writesVersion 0 9 .reqLineAlmostDone rfl).handsOver .url)
  · exact trails ((h.writesVersion 0 9 .headerFieldStart rfl).handsOver .url)
  · exact h.urlChar ch

theorem reqHttpStart (h : Reading d b past k n r .reqHttpStart u f) :
    Trails d b past k (u.reqHttpStart ch) (f.reqHttpStart ch) := by
  unfold Execution.reqHttpStart
  split_ifs
  · exact (h.updateState rfl).trails
  · exact h.trails
  · exact h.error h.behind.eq rfl rfl

theorem expect (h : Reading d b past k n r s u f) (expected : Byte)
    (known : Nat.ble z.known s.known = true) :
    Trails d b past k (u.expect ch expected z) (f.expect ch expected z) := by
  unfold Execution.expect
  split_ifs
  · exact h.error h.behind.eq rfl rfl
  · exact (h.updateState known).trails

theorem reqFirstHttpMajor (h : Reading d b past k n r .reqFirstHttpMajor u f) :
    Trails d b past k (u.reqFirstHttpMajor ch) (f.reqFirstHttpMajor ch) := by
  unfold Execution.reqFirstHttpMajor
  obtain rfl := h.behind.eq
  split_ifs
  · exact h.error rfl rfl rfl
  · refine .inr ⟨n, { r with httpMajor := none }, rfl, fun _ => ?_, h.behind.le, h.behind.near,
      h.behind.bound⟩
    exact ⟨fun _ => rfl, fun two => absurd two (by decide : ¬ 2 ≤ 1),
      fun three => absurd three (by decide : ¬ 3 ≤ 1)⟩

theorem reqHttpMajor (h : Reading d b past k n r .reqHttpMajor u f) :
    Trails d b past k (u.reqHttpMajor ch) (f.reqHttpMajor ch) := by
  have major := h.unread.major (Nat.le_refl 1)
  simp only [Execution.reqHttpMajor, h.parser, HttpParser.leaving, major, Option.getD_none]
  split_ifs
  all_goals obtain rfl := h.behind.eq
  · exact (h.updateState rfl).trails
  · exact h.error rfl rfl rfl
  · refine h.error (x := { u with parser := { u.parser with
      httpMajor := u.parser.httpMajor * 10 + digit ch } }) ?_ rfl rfl
    simp only [Execution.behind, HttpParser.leaving, major, Option.getD_none]
  · refine trails (h.stays (x := { u with parser := { u.parser with
      httpMajor := u.parser.httpMajor * 10 + digit ch } }) ?_ rfl rfl rfl rfl)
    simp only [Execution.behind, HttpParser.leaving, major, Option.getD_none]

theorem reqFirstHttpMinor (h : Reading d b past k n r .reqFirstHttpMinor u f) :
    Trails d b past k (u.reqFirstHttpMinor ch) (f.reqFirstHttpMinor ch) := by
  have major := h.unread.major (Nat.le_refl 1)
  unfold Execution.reqFirstHttpMinor
  obtain rfl := h.behind.eq
  split_ifs
  · exact h.error rfl rfl rfl
  · refine .inr ⟨n, { r with httpMinor := none }, rfl, fun _ => ?_, h.behind.le, h.behind.near,
      h.behind.bound⟩
    exact ⟨fun _ => major, fun _ => rfl, fun three => absurd three (by decide : ¬ 3 ≤ 2)⟩

theorem reqHttpMinor (h : Reading d b past k n r .reqHttpMinor u f) :
    Trails d b past k (u.reqHttpMinor ch) (f.reqHttpMinor ch) := by
  have minor := h.unread.minor (Nat.le_refl 2)
  simp only [Execution.reqHttpMinor, h.parser, HttpParser.leaving, minor, Option.getD_none]
  split_ifs
  all_goals obtain rfl := h.behind.eq
  · exact (h.updateState rfl).trails
  · exact (h.updateState rfl).trails
  · exact h.error rfl rfl rfl
  · refine h.error (x := { u with parser := { u.parser with
      httpMinor := u.parser.httpMinor * 10 + digit ch } }) ?_ rfl rfl
    simp only [Execution.behind, HttpParser.leaving, minor, Option.getD_none]
  · refine trails (h.stays (x := { u with parser := { u.parser with
      httpMinor := u.parser.httpMinor * 10 + digit ch } }) ?_ rfl rfl rfl rfl)
    simp only [Execution.behind, HttpParser.leaving, minor, Option.getD_none]

theorem reqLineAlmostDone (h : Reading d b past k n r .reqLineAlmostDone u f) :
    Trails d b past k (u.reqLineAlmostDone ch) (f.reqLineAlmostDone ch) := by
  unfold Execution.reqLineAlmostDone
  split_ifs
  · exact h.error h.behind.eq rfl rfl
  · exact (h.updateState rfl).trails

/-! ## The end of a message -/

theorem newMessage_leaving {p : HttpParser} (unread : r.Unread 2) :
    newMessage (p.leaving n r) = newMessage p := by
  have major : (p.leaving n r).httpMajor = p.httpMajor := by
    rw [HttpParser.leaving, unread.major (by decide), Option.getD_none]
  have minor : (p.leaving n r).httpMinor = p.httpMinor := by
    rw [HttpParser.leaving, unread.minor (by decide), Option.getD_none]
  unfold newMessage httpShouldKeepAlive
  rw [major, minor]
  rfl

theorem known_newMessage (p : HttpParser) : (newMessage p).known = 0 := by
  unfold newMessage
  split_ifs <;> rfl

theorem completeMessage (h : Reading d b past k n r s u f) (two : s.known = 2) :
    Reading d b past k n r (newMessage u.parser) u.completeMessage f.completeMessage := by
  have unread := h.unread
  rw [two] at unread
  unfold Execution.completeMessage
  rw [h.parser, newMessage_leaving unread]
  refine (h.updateState ?_).notifies .onMessageComplete
  rw [known_newMessage]
  exact Nat.ble_eq_true_of_le (Nat.zero_le _)

/-- The rest of the buffer is left to the caller. -/
theorem returns (h : Reading d b past k n r s u f) :
    Trails d b past k u.returnPast f.returnPast := by
  refine .inr ⟨n, r, h.behind.keeps ?_ nofun rfl rfl⟩
  obtain rfl := h.behind.eq
  rfl

theorem messageDone (h : Reading d b past k n r s u f) (two : s.known = 2) :
    Trails d b past k u.messageDone f.messageDone := by
  have done := h.completeMessage two
  simp only [Execution.messageDone, done.parser, HttpParser.leaving]
  split_ifs
  · exact done.returns
  · exact done.trails

theorem resets (h : Reading d b past k n r s u f) :
    Reading d b past k 0 r s
      { u with parser := { u.parser with nread := 0 } }
      { f with parser := { f.parser with nread := 0 } } where
  behind := by
    obtain rfl := h.behind.eq
    refine ⟨rfl, h.behind.unread, Nat.le_refl 0, Nat.zero_le _, ?_⟩
    exact (Nat.add_le_add_right (Nat.zero_le _) _).trans h.behind.bound
  live := h.live
  state := h.state

theorem headersDone (h : Reading d b past k n r .headersDone u f) :
    Trails d b past k (u.headersDone ch) (f.headersDone ch) := by
  have fresh := h.resets
  have done := fresh.completeMessage rfl
  simp only [Execution.headersDone, hasBody, h.parser, HttpParser.leaving]
  split_ifs
  all_goals obtain rfl := h.behind.eq
  · exact h.error h.behind.eq rfl rfl
  · exact done.returns
  · exact done.trails
  · exact (fresh.updateState (z := .chunkSizeStart) rfl).trails
  · exact done.trails
  · exact (fresh.updateState (z := .bodyIdentity) rfl).trails
  · exact done.trails

theorem headersAlmostDone (h : Reading d b past k n r .headersAlmostDone u f) :
    Trails d b past k (u.headersAlmostDone ch) (f.headersAlmostDone ch) := by
  have major := h.unread.major (by decide)
  have minor := h.unread.minor (by decide)
  simp only [Execution.headersAlmostDone, h.parser, HttpParser.leaving, major, minor,
    Option.getD_none]
  split_ifs
  all_goals obtain rfl := h.behind.eq
  · exact h.error h.behind.eq rfl rfl
  · exact ((h.updateState (z := .messageDone) rfl).notifies .onChunkComplete).messageDone rfl
  · refine headersDone (n := n) (r := r) ch (Reading.notifies ?_ _)
    refine h.goes ?_ rfl rfl rfl rfl rfl
    simp only [Execution.behind, HttpParser.leaving, major, minor, Option.getD_none]

/-! ## Header lines -/

theorem headerFieldStart (h : Reading d b past k n r .headerFieldStart u f) :
    Trails d b past k (u.headerFieldStart ch) (f.headerFieldStart ch) := by
  have ends := h.updateState (z := .headersAlmostDone) rfl
  unfold Execution.headerFieldStart
  split_ifs
  · exact ends.trails
  · exact ends.headersAlmostDone ch
  · exact h.error h.behind.eq rfl rfl
  · have marked := h.marks .headerField
    refine .inr ⟨n, { r with headerState := none }, ?_, fun _ => ?_, marked.behind.le,
      marked.behind.near, marked.behind.bound⟩
    · rw [marked.behind.eq]
      rfl
    · exact ⟨fun _ => h.unread.major (by decide), fun _ => h.unread.minor (by decide),
        fun _ => rfl⟩

/-- In a field nothing is left but the count. -/
theorem counted (h : Reading d b past k n r s u f) (three : s.known = 3) :
    f = u.behind past k n ⟨none, none, none⟩ := by
  have unread := h.unread
  rw [three] at unread
  obtain ⟨header, major, minor⟩ := r
  obtain rfl : header = none := unread.header (by decide)
  obtain rfl : major = none := unread.major (by decide)
  obtain rfl : minor = none := unread.minor (by decide)
  exact h.behind.eq

/-- A step in a field, or to its end. -/
theorem goesOn (h : Reading d b past k n r s u f)
    (eq : y = x.behind past k n ⟨none, none, none⟩) (live : x.returned = u.returned)
    (there : x.parser.state = z) (nread : x.parser.nread = u.parser.nread)
    (inner : x.inner = u.inner) : Reading d b past k n ⟨none, none, none⟩ z x y where
  behind := by
    refine ⟨eq, fun _ => ⟨fun _ => rfl, fun _ => rfl, fun _ => rfl⟩, nread ▸ h.behind.le,
      nread ▸ h.behind.near, ?_⟩
    rw [Execution.charge, inner]
    exact h.behind.bound
  live := live.trans h.live
  state := there

theorem headerValueStart (h : Reading d b past k n r s u f) (three : s.known = 3) :
    Trails d b past k (u.headerValueStart ch) (f.headerValueStart ch) := by
  have marked := h.marks .headerValue
  have same := marked.counted three
  unfold Execution.headerValueStart
  dsimp only
  rw [same] at marked ⊢
  generalize u.mark .headerValue = x at marked
  rw [show (x.behind past k n ⟨none, none, none⟩).parser.headerState = x.parser.headerState from
    rfl]
  cases x.parser.headerState with
  | contentLength =>
    dsimp only
    split_ifs
    · exact Reading.error (marked.goesOn rfl rfl rfl rfl rfl) rfl rfl rfl
    · exact trails (marked.goesOn (z := .headerValue) rfl rfl rfl rfl rfl)
  | _ => exact trails (marked.goesOn (z := .headerValue) rfl rfl rfl rfl rfl)

theorem headerValueDiscardWs (h : Reading d b past k n r .headerValueDiscardWs u f) :
    Trails d b past k (u.headerValueDiscardWs ch) (f.headerValueDiscardWs ch) := by
  unfold Execution.headerValueDiscardWs
  split_ifs
  · exact h.trails
  · exact (h.updateState rfl).trails
  · exact (h.updateState rfl).trails
  · exact h.headerValueStart ch rfl

/-- The end of a line sets its flag. -/
theorem flags (h : Reading d b past k n r s u f) (three : s.known = 3) :
    Reading d b past k n ⟨none, none, none⟩ s { u with parser := lineFlag u.parser }
      { f with parser := lineFlag f.parser } := by
  have frame := Beside.lineFlag_frame u.parser
  have same := h.counted three
  have counted : f.parser = u.parser.counted n := by rw [same]; rfl
  refine h.goesOn ?_ rfl ?_ ?_ rfl
  · rw [counted, lineFlag_counted, same]
    rfl
  · exact (congrArg (·.state) frame).trans h.state
  · exact congrArg (·.nread) frame

theorem headerValueLws (h : Reading d b past k n r .headerValueLws u f) :
    Trails d b past k (u.headerValueLws ch) (f.headerValueLws ch) := by
  unfold Execution.headerValueLws
  split_ifs
  · exact (h.updateState (z := .headerValueStart) rfl).headerValueStart ch rfl
  · exact ((h.flags rfl).updateState (z := .headerFieldStart) rfl).headerFieldStart ch

theorem headerValueDiscardLws (h : Reading d b past k n r .headerValueDiscardLws u f) :
    Trails d b past k (u.headerValueDiscardLws ch) (f.headerValueDiscardLws ch) := by
  unfold Execution.headerValueDiscardLws
  split_ifs
  · exact (h.updateState rfl).trails
  · exact ((((h.flags rfl).marks .headerValue).updateState (z := .headerFieldStart) rfl).handsOver
      .headerValue).headerFieldStart ch

/-! ## Bodies -/

/-- The text that is open has one byte more. -/
theorem extended (h : Reading d b past k n r s u f) :
    Reading d b past k n r s { u with marked := u.marked.map fun (m, text) => (m, text ++ [ch]) }
      { f with marked := f.marked.map fun (m, text) => (m, text ++ [ch]) } := by
  obtain rfl := h.behind.eq
  exact h.stays rfl rfl rfl rfl rfl

theorem bodyIdentity (h : Reading d b past k n r .bodyIdentity u f) :
    Trails d b past k (u.bodyIdentity ch) (f.bodyIdentity ch) := by
  have marked := h.marks .body
  simp only [Execution.bodyIdentity, marked.parser, HttpParser.leaving]
  rw [marked.behind.eq]
  generalize u.mark .body = x at marked
  split_ifs
  · refine messageDone (n := n) (r := r) (s := .messageDone) (handsOver ?_ _) rfl
    refine Reading.extended ch ?_
    exact marked.goes rfl rfl rfl rfl rfl rfl
  · exact trails (marked.stays rfl rfl rfl rfl rfl)

theorem chunkSizeStart (h : Reading d b past k n r .chunkSizeStart u f) :
    Trails d b past k (u.chunkSizeStart ch) (f.chunkSizeStart ch) := by
  obtain rfl := h.behind.eq
  unfold Execution.chunkSizeStart
  cases unhex ch with
  | none => exact h.error rfl rfl rfl
  | some v => exact trails (h.goes (z := .chunkSize) rfl rfl rfl rfl rfl rfl)

theorem chunkSize (h : Reading d b past k n r .chunkSize u f) :
    Trails d b past k (u.chunkSize ch) (f.chunkSize ch) := by
  obtain rfl := h.behind.eq
  unfold Execution.chunkSize
  by_cases ended : ch = cr
  · rw [if_pos ended, if_pos ended]
    exact (h.updateState rfl).trails
  · rw [if_neg ended, if_neg ended]
    cases unhex ch with
    | none =>
      dsimp only
      split_ifs
      · exact (h.updateState rfl).trails
      · exact h.error rfl rfl rfl
    | some v =>
      rw [show (u.behind past k n r).parser.contentLength = u.parser.contentLength from rfl]
      dsimp only
      split_ifs
      · exact h.error rfl rfl rfl
      · exact trails (h.stays rfl rfl rfl rfl rfl)

theorem chunkParameters (h : Reading d b past k n r .chunkParameters u f) :
    Trails d b past k (u.chunkParameters ch) (f.chunkParameters ch) := by
  unfold Execution.chunkParameters
  split_ifs
  · exact (h.updateState rfl).trails
  · exact h.trails

theorem chunkSizeAlmostDone (h : Reading d b past k n r .chunkSizeAlmostDone u f) :
    Trails d b past k (u.chunkSizeAlmostDone ch) (f.chunkSizeAlmostDone ch) := by
  have fresh := h.resets
  simp only [Execution.chunkSizeAlmostDone, h.parser, HttpParser.leaving]
  split_ifs
  all_goals obtain rfl := h.behind.eq
  · exact h.error rfl rfl rfl
  · refine trails (n := 0) (r := r) (Reading.notifies (s := .headerFieldStart) ?_ _)
    exact fresh.goes rfl rfl rfl rfl rfl rfl
  · refine trails (n := 0) (r := r) (Reading.notifies (s := .chunkData) ?_ _)
    exact fresh.goes rfl rfl rfl rfl rfl rfl

theorem chunkData (h : Reading d b past k n r .chunkData u f) :
    Trails d b past k u.chunkData f.chunkData := by
  have marked := h.marks .body
  simp only [Execution.chunkData, marked.parser, HttpParser.leaving]
  rw [marked.behind.eq]
  generalize u.mark .body = x at marked
  split_ifs
  · exact trails (marked.goes (z := .chunkDataAlmostDone) rfl rfl rfl rfl rfl rfl)
  · exact trails (marked.stays rfl rfl rfl rfl rfl)

theorem chunkDataAlmostDone (h : Reading d b past k n r .chunkDataAlmostDone u f) :
    Trails d b past k (u.chunkDataAlmostDone ch) (f.chunkDataAlmostDone ch) := by
  unfold Execution.chunkDataAlmostDone
  split_ifs
  · exact h.error h.behind.eq rfl rfl
  · exact ((h.updateState (z := .chunkDataDone) rfl).handsOver .body).trails

theorem chunkDataDone (h : Reading d b past k n r .chunkDataDone u f) :
    Trails d b past k (u.chunkDataDone ch) (f.chunkDataDone ch) := by
  unfold Execution.chunkDataDone
  split_ifs
  · exact h.error h.behind.eq rfl rfl
  · exact ((h.resets.updateState (z := .chunkSizeStart) rfl).notifies .onChunkComplete).trails

theorem startReq (h : Reading d b past k n r .startReq u f) :
    Trails d b past k (u.startReq ch) (f.startReq ch) := by
  obtain rfl := h.behind.eq
  simp only [Execution.startReq]
  split_ifs
  · exact h.trails
  · exact h.error rfl rfl rfl
  · cases methodOfLetter ch with
    | none => exact h.error rfl rfl rfl
    | some method =>
      dsimp only
      refine trails (n := n) (r := r) (Reading.notifies (s := .reqMethod) ?_ _)
      exact h.goes rfl rfl rfl rfl rfl rfl

/-! ## The loops over names and values -/

/-- Both count `v` more bytes and go on, or there are too many of them. -/
theorem counts {v : ℕ} {next next' : Execution → Execution} (h : Behind d b past k n r x y)
    (small : b < 2 ^ 32) (bound : n + v + x.charge ≤ b)
    (goes : Behind d b past k (n + v) r (x.charged v) (y.charged v) →
      Trails d (b + 1) past k (next (x.charged v)) (next' (y.charged v))) :
    Trails d (b + 1) past k (x.countHeaderSize v next) (y.countHeaderSize v next') := by
  have le := h.le
  have near := h.near
  obtain rfl := h.eq
  have counted : (x.behind past k n r).parser.nread = n := rfl
  rw [countHeaderSize_eq x next (by omega), countHeaderSize_eq _ next' (by omega), counted]
  have charged : Behind d b past k (n + v) r (x.charged v) ((x.behind past k n r).charged v) := by
    refine ⟨rfl, h.unread, Nat.add_le_add_right le v, ?_, bound⟩
    show n + v ≤ x.parser.nread + v + d
    omega
  by_cases above : n + v > httpMaxHeaderSize
  · rw [if_pos above]
    by_cases both : x.parser.nread + v > httpMaxHeaderSize
    · rw [if_pos both]
      exact (charged.error charged.eq rfl rfl).mono
    · exact .inl ⟨by omega, rfl, rfl⟩
  · rw [if_neg above, if_neg (by omega)]
    exact goes charged

theorem leaves (h : Reading d b past k n r s u f) :
    Reading d b past k n r s { u with inner := none } { f with inner := none } where
  behind := by
    obtain rfl := h.behind.eq
    refine ⟨rfl, h.behind.unread, h.behind.le, h.behind.near, ?_⟩
    exact (Nat.add_le_add_left (Nat.zero_le _) n).trans h.behind.bound
  live := h.live
  state := h.state

/-- The execution stays in an inner loop, or comes into it. -/
theorem loops {p : HttpParser} (h : Reading d b past k n r s u f) (three : s.known = 3) (i : Inner)
    (nread : p.nread = u.parser.nread) (charge : Inner.charge i = u.charge + 1) :
    Trails d (b + 1) past k { u with parser := p, inner := some i }
      { f with parser := p.counted n, inner := some i } := by
  refine .inr ⟨n, ⟨none, none, none⟩, ?_, fun _ => ⟨fun _ => rfl, fun _ => rfl, fun _ => rfl⟩,
    nread ▸ h.behind.le, nread ▸ h.behind.near, ?_⟩
  · rw [h.counted three]
    rfl
  · have bound := h.behind.bound
    show n + Inner.charge i ≤ b + 1
    omega

theorem headerFieldLoop (read : ℕ) (h : Reading d b past k n r .headerField u f)
    (charge : u.charge = read) (small : b < 2 ^ 32) :
    Trails d (b + 1) past k (u.headerFieldLoop ch read) (f.headerFieldLoop ch read) := by
  unfold Execution.headerFieldLoop
  by_cases ended : token ch = 0
  · rw [if_pos ended, if_pos ended]
    refine counts h.leaves.behind small (charge ▸ h.behind.bound) fun counted => ?_
    have reading : Reading d b past k (n + read) r .headerField
        (({ u with inner := none } : Execution).charged read)
        (({ f with inner := none } : Execution).charged read) := ⟨counted, h.live, h.state⟩
    split_ifs
    · exact ((reading.updateState rfl).handsOver .headerField).trails.mono
    · exact (reading.error counted.eq rfl rfl).mono
  · rw [if_neg ended, if_neg ended]
    have parser : f.parser = u.parser.counted n := by rw [h.counted rfl]; rfl
    rw [parser, headerFieldByte_counted]
    refine h.loops rfl (.headerField (read + 1)) ?_ (congrArg (· + 1) charge.symm)
    exact congrArg (·.nread) (headerFieldByte_frame u.parser ch)

theorem headerValueEnd (read : ℕ) (h : Reading d b past k n r .headerValue u f)
    (charge : u.charge = read) (small : b < 2 ^ 32) :
    Trails d (b + 1) past k (u.headerValueEnd ch read) (f.headerValueEnd ch read) := by
  have ends := h.leaves.updateState (z := .headerAlmostDone) rfl
  have bound : n + read ≤ b := charge ▸ h.behind.bound
  unfold Execution.headerValueEnd
  dsimp only
  split_ifs
  · have reported := ends.handsOver .headerValue
    refine counts reported.behind small ?_ fun counted => Trails.mono (.inr ⟨_, _, counted⟩)
    rw [Execution.charge, callbackData_inner]
    exact bound
  · refine counts ends.behind small bound fun counted => ?_
    have reading : Reading d b past k (n + read) r .headerAlmostDone _ _ :=
      ⟨counted, h.live, rfl⟩
    exact ((reading.handsOver .headerValue).expect ch lf rfl).mono

theorem headerValueLoop (read : ℕ) (h : Reading d b past k n r .headerValue u f)
    (charge : u.charge = read) (small : b < 2 ^ 32) :
    Trails d (b + 1) past k (u.headerValueLoop ch read) (f.headerValueLoop ch read) := by
  have parser : f.parser = u.parser.counted n := by rw [h.counted rfl]; rfl
  have more : read + 1 = u.charge + 1 := congrArg (· + 1) charge.symm
  unfold Execution.headerValueLoop
  rw [parser, headerValueByte_counted,
    show (u.parser.counted n).headerState = u.parser.headerState from rfl]
  split_ifs
  · exact h.headerValueEnd ch read charge small
  · exact h.loops rfl (.search (read + 1) 1) rfl more
  · cases byte : headerValueByte u.parser ch with
    | none => exact (h.error h.behind.eq rfl rfl).mono
    | some p =>
      refine h.loops rfl (.headerValue (read + 1)) ?_ more
      exact headerValueByte_counts ch byte

theorem searchLoop (read looked : ℕ) (h : Reading d b past k n r .headerValue u f)
    (charge : u.charge = read) (small : b < 2 ^ 32) :
    Trails d (b + 1) past k (u.searchLoop ch read looked) (f.searchLoop ch read looked) := by
  have parser : f.parser = u.parser.counted n := by rw [h.counted rfl]; rfl
  have more : read + 1 = u.charge + 1 := congrArg (· + 1) charge.symm
  unfold Execution.searchLoop
  split_ifs
  · have inside := h.loops rfl (.skip (read + 1)) rfl more
    rw [← parser] at inside
    exact inside
  · exact h.headerValueEnd ch read charge small
  · have inside := h.loops rfl (.search (read + 1) (looked + 1)) rfl more
    rw [← parser] at inside
    exact inside

/-! ## The main loop -/

theorem dispatch (h : Reading d b past k n r s u f) (outer : u.inner = none) (small : b < 2 ^ 32) :
    Trails d (b + 1) past k (u.dispatch ch) (f.dispatch ch) := by
  have state := h.state
  have state' : f.parser.state = s := by rw [h.behind.eq]; exact state
  have charge : u.charge = 0 := by rw [Execution.charge, outer]; rfl
  unfold Execution.dispatch
  cases s
  all_goals simp only [state, state']
  case dead =>
    split_ifs
    · exact h.trails.mono
    · exact (h.error h.behind.eq rfl rfl).mono
  case startReq => exact (h.startReq ch).mono
  case reqMethod => exact (h.reqMethod ch).mono
  case reqSpacesBeforeUrl => exact (h.reqSpacesBeforeUrl ch).mono
  case reqSchema | reqSchemaSlash | reqSchemaSlashSlash | reqServerStart =>
    exact (h.reqSchema ch).mono
  case reqServer | reqServerWithAt | reqPath | reqQueryStringStart | reqQueryString
      | reqFragmentStart | reqFragment =>
    exact (h.reqUrl ch).mono
  case reqHttpStart => exact (h.reqHttpStart ch).mono
  case reqHttpH | reqHttpHT | reqHttpHTT | reqHttpHTTP | headerValueDiscardWsAlmostDone
      | headerAlmostDone =>
    exact (h.expect ch _ rfl).mono
  case reqFirstHttpMajor => exact (h.reqFirstHttpMajor ch).mono
  case reqHttpMajor => exact (h.reqHttpMajor ch).mono
  case reqFirstHttpMinor => exact (h.reqFirstHttpMinor ch).mono
  case reqHttpMinor => exact (h.reqHttpMinor ch).mono
  case reqLineAlmostDone => exact (h.reqLineAlmostDone ch).mono
  case headerFieldStart => exact (h.headerFieldStart ch).mono
  case headerField => exact h.headerFieldLoop ch 0 charge small
  case headerValueDiscardWs => exact (h.headerValueDiscardWs ch).mono
  case headerValueDiscardLws => exact (h.headerValueDiscardLws ch).mono
  case headerValueStart => exact (h.headerValueStart ch rfl).mono
  case headerValue => exact h.headerValueLoop ch 0 charge small
  case headerValueLws => exact (h.headerValueLws ch).mono
  case chunkSizeStart => exact (h.chunkSizeStart ch).mono
  case chunkSize => exact (h.chunkSize ch).mono
  case chunkParameters => exact (h.chunkParameters ch).mono
  case chunkSizeAlmostDone => exact (h.chunkSizeAlmostDone ch).mono
  case headersAlmostDone => exact (h.headersAlmostDone ch).mono
  case headersDone => exact (h.headersDone ch).mono
  case chunkData => exact h.chunkData.mono
  case chunkDataAlmostDone => exact (h.chunkDataAlmostDone ch).mono
  case chunkDataDone => exact (h.chunkDataDone ch).mono
  case bodyIdentity => exact (h.bodyIdentity ch).mono
  case bodyIdentityEof => exact (h.marks .body).trails.mono
  case messageDone => exact (h.messageDone rfl).mono

end Reading

section Runs

variable {d b k n : ℕ} {past : List Callback} {r : Leftover} {u f : Execution} (ch : Byte)

open Execution

theorem Behind.consume (h : Behind d b past k n r u f) (live : u.returned = false) (fits : u.Fits)
    (small : b + 1 < 2 ^ 32) : Trails d (b + 2) past k (u.consume ch) (f.consume ch) := by
  have inner : f.inner = u.inner := congrArg (·.inner) h.eq
  have state : f.parser.state = u.parser.state := by rw [h.eq]; rfl
  unfold Execution.consume
  rw [inner]
  cases inside : u.inner with
  | some i =>
    have reading : Reading d b past k n r i.state u f := ⟨h, live, fits.inner i inside⟩
    have charge : u.charge = Inner.charge i := by rw [Execution.charge, inside]; rfl
    cases i with
    | headerField read => exact (reading.headerFieldLoop ch read charge (by omega)).mono
    | headerValue read => exact (reading.headerValueLoop ch read charge (by omega)).mono
    | search read looked => exact (reading.searchLoop ch read looked charge (by omega)).mono
    | skip read =>
      have parser : f.parser = u.parser.counted n := by rw [reading.counted rfl]; rfl
      have loops := reading.loops rfl (.skip (read + 1)) rfl (congrArg (· + 1) charge.symm)
      rw [← parser] at loops
      exact loops.mono
  | none =>
    have charge : u.charge = 0 := by rw [Execution.charge, inside]; rfl
    have bound := h.bound
    rw [state]
    dsimp only
    split_ifs
    · refine Reading.counts (h.mono (Nat.le_succ b)) small (by omega) fun counted => ?_
      have reading : Reading d (b + 1) past k (n + 1) r u.parser.state (u.charged 1)
          (f.charged 1) := ⟨counted, live, rfl⟩
      exact reading.dispatch ch inside small
    · have reading : Reading d b past k n r u.parser.state u f := ⟨h, live, rfl⟩
      exact (reading.dispatch ch inside (by omega)).mono

theorem Behind.advance (h : Behind d b past k n r u f) :
    Behind d b past k n r (u.advance ch) (f.advance ch) := by
  obtain rfl := h.eq
  exact ⟨rfl, h.unread, h.le, h.near, h.bound⟩

/-- The byte is over. -/
theorem Trails.settle (h : Trails d b past k u f) :
    Trails d b past k (if u.returned then u else u.advance ch)
      (if f.returned then f else f.advance ch) := by
  rcases h with ⟨more, returned, errno⟩ | ⟨n, r, behind⟩
  · rw [if_pos returned]
    exact .inl ⟨more, returned, errno⟩
  · rw [show f.returned = u.returned from congrArg (·.returned) behind.eq]
    split_ifs
    · exact .inr ⟨n, r, behind⟩
    · exact .inr ⟨n, r, behind.advance ch⟩

theorem Trails.step (h : Trails d b past k u f) (sound : u.Sound) (small : b + 1 < 2 ^ 32) :
    Trails d (b + 2) past k (u.step ch) (f.step ch) := by
  rcases h with ⟨more, returned, errno⟩ | ⟨n, r, behind⟩
  · rw [show f.step ch = f by rw [Execution.step, if_pos returned]]
    exact .inl ⟨more, returned, errno⟩
  · have same : f.returned = u.returned := congrArg (·.returned) behind.eq
    unfold Execution.step
    rw [same]
    split_ifs with returned
    · exact .inr ⟨n, r, behind.mono (Nat.le_add_right b 2)⟩
    · have live : u.returned = false := Bool.eq_false_of_not_eq_true returned
      exact (behind.consume ch live (sound.fits live) small).settle ch

/-! ## The first byte of a message -/

/-- Two executions that come to the same, one of them behind other messages. -/
structure Same (past : List Callback) (k : ℕ) (u f : Execution) : Prop where
  callbacks : f.callbacks = past ++ u.callbacks
  parsed : f.parsed = k + u.parsed
  errno : f.parser.httpErrno = u.parser.httpErrno
  state : f.parser.state = u.parser.state
  upgrade : f.parser.upgrade = u.parser.upgrade

/-- A message may begin in both: there is nothing to be known of the parser of `f`. -/
structure Starting (d b : ℕ) (past : List Callback) (k : ℕ) (u f : Execution) : Prop where
  same : Same past k u f
  live : u.returned = false
  live' : f.returned = false
  outer : u.inner = none
  outer' : f.inner = none
  unmarked : u.marked = none
  unmarked' : f.marked = none
  state : u.parser.state = .startReq
  le : u.parser.nread ≤ f.parser.nread
  near : f.parser.nread ≤ u.parser.nread + d
  bound : f.parser.nread ≤ b

/-- The runs, from where a message may begin. -/
inductive Tracks (d b : ℕ) (past : List Callback) (k : ℕ) (u f : Execution) : Prop
  | trails : Trails d b past k u f → Tracks d b past k u f
  | begins : Starting d b past k u f → Tracks d b past k u f
  | ended : u.returned = true → f.returned = true → Same past k u f → Tracks d b past k u f

/-- The first letter of a message writes what both will read. -/
theorem Starting.behind (h : Starting d b past k u f) (method : HttpMethod) :
    ∃ r, Behind d b past k f.parser.nread r
      (({ u with parser := { u.parser with
        flags := {}, contentLength := ullongMax, method := method, index := 1,
        state := .reqMethod } } : Execution).notify .onMessageBegin)
      (({ f with parser := { f.parser with
        flags := {}, contentLength := ullongMax, method := method, index := 1,
        state := .reqMethod } } : Execution).notify .onMessageBegin) := by
  refine ⟨⟨some f.parser.headerState, some f.parser.httpMajor, some f.parser.httpMinor⟩, ?_,
    fun _ => ?_, h.le, h.near, ?_⟩
  · rw [← Behind.behind_notify]
    congr 1
    obtain ⟨⟨calls, parsed, errno, state, upgrade⟩, live, live', outer, outer', unmarked, unmarked',
      -, -, -, -⟩ := h
    simp only [Execution.behind, HttpParser.leaving, Option.getD_some, calls, parsed, errno,
      upgrade, live, live', outer, outer', unmarked, unmarked']
  · refine ⟨fun one => ?_, fun two => ?_, fun three => ?_⟩
    · exact absurd one (by decide : ¬ 1 ≤ 0)
    · exact absurd two (by decide : ¬ 2 ≤ 0)
    · exact absurd three (by decide : ¬ 3 ≤ 0)
  · have charge : u.charge = 0 := by rw [Execution.charge, h.outer]; rfl
    show f.parser.nread + u.charge ≤ b
    rw [charge]
    exact h.bound

theorem Starting.startReq (h : Starting d b past k u f) :
    Tracks d b past k (u.startReq ch) (f.startReq ch) := by
  simp only [Execution.startReq]
  split_ifs
  · exact .begins h
  · exact .ended rfl rfl ⟨h.same.callbacks, h.same.parsed, rfl, h.same.state, h.same.upgrade⟩
  · cases methodOfLetter ch with
    | none =>
      exact .ended rfl rfl ⟨h.same.callbacks, h.same.parsed, rfl, h.same.state, h.same.upgrade⟩
    | some method =>
      obtain ⟨r, behind⟩ := h.behind method
      exact .trails (.inr ⟨_, r, behind⟩)

theorem not_returned {e : Execution} (live : e.returned = false) : ¬ e.returned = true := by
  rw [live]
  exact Bool.false_ne_true

theorem Starting.charged (h : Starting d b past k u f) :
    Starting d (b + 1) past k (u.charged 1) (f.charged 1) where
  same := ⟨h.same.callbacks, h.same.parsed, h.same.errno, h.same.state, h.same.upgrade⟩
  live := h.live
  live' := h.live'
  outer := h.outer
  outer' := h.outer'
  unmarked := h.unmarked
  unmarked' := h.unmarked'
  state := h.state
  le := Nat.add_le_add_right h.le 1
  near := by
    have near := h.near
    show f.parser.nread + 1 ≤ u.parser.nread + 1 + d
    omega
  bound := Nat.add_le_add_right h.bound 1

theorem Starting.consume (h : Starting d b past k u f) (small : b + 1 < 2 ^ 32) :
    Tracks d (b + 1) past k (u.consume ch) (f.consume ch) := by
  have le := h.le
  have near := h.near
  have bound := h.bound
  have consumed {e : Execution} (outer : e.inner = none) (state : e.parser.state = .startReq)
      (room : e.parser.nread + 1 < 2 ^ 32) : e.consume ch =
        if e.parser.nread + 1 > httpMaxHeaderSize then (e.charged 1).error .headerOverflow
        else (e.charged 1).startReq ch := by
    have goes : (e.charged 1).dispatch ch = (e.charged 1).startReq ch := by
      unfold Execution.dispatch
      rw [show (e.charged 1).parser.state = .startReq from state]
    rw [← goes, ← countHeaderSize_eq e (fun e => e.dispatch ch) room]
    unfold Execution.consume
    rw [outer, state]
    rfl
  rw [consumed h.outer h.state (by omega),
    consumed h.outer' (h.same.state.trans h.state) (by omega)]
  have charged := h.charged
  by_cases above : f.parser.nread + 1 > httpMaxHeaderSize
  · rw [if_pos above]
    by_cases both : u.parser.nread + 1 > httpMaxHeaderSize
    · rw [if_pos both]
      have same := charged.same
      exact .ended rfl rfl ⟨same.callbacks, same.parsed, rfl, same.state, same.upgrade⟩
    · exact .trails (.inl ⟨by omega, rfl, rfl⟩)
  · rw [if_neg above, if_neg (by omega)]
    exact charged.startReq ch

theorem Starting.advance (h : Starting d b past k u f) :
    Starting d b past k (u.advance ch) (f.advance ch) where
  same := ⟨h.same.callbacks, congrArg (· + 1) h.same.parsed, h.same.errno, h.same.state,
    h.same.upgrade⟩
  live := h.live
  live' := h.live'
  outer := h.outer
  outer' := h.outer'
  unmarked := by rw [advance_marked, h.unmarked, Option.map_none]
  unmarked' := by rw [advance_marked, h.unmarked', Option.map_none]
  state := h.state
  le := h.le
  near := h.near
  bound := h.bound

theorem Starting.mono (h : Starting d b past k u f) : Starting d (b + 1) past k u f :=
  ⟨h.same, h.live, h.live', h.outer, h.outer', h.unmarked, h.unmarked', h.state, h.le, h.near,
    h.bound.trans (Nat.le_succ b)⟩

theorem Starting.step (h : Starting d b past k u f) (small : b + 1 < 2 ^ 32) :
    Tracks d (b + 2) past k (u.step ch) (f.step ch) := by
  have consumed := h.consume ch small
  unfold Execution.step
  rw [if_neg (not_returned h.live), if_neg (not_returned h.live')]
  dsimp only
  generalize u.consume ch = x, f.consume ch = y at consumed
  cases consumed with
  | trails trails => exact .trails (trails.mono.settle ch)
  | begins begins =>
    rw [if_neg (not_returned begins.live), if_neg (not_returned begins.live')]
    exact .begins (begins.mono.advance ch)
  | ended returned returned' same =>
    rw [if_pos returned, if_pos returned']
    exact .ended returned returned' same

theorem Tracks.foldl_step (h : Tracks d b past k u f) (sound : u.Sound) (data : Bytes)
    (small : b + 2 * data.length < 2 ^ 32) :
    Tracks d (b + 2 * data.length) past k (data.foldl Execution.step u)
      (data.foldl Execution.step f) := by
  induction data generalizing u f b with
  | nil => exact h
  | cons ch data ih =>
    rw [List.length_cons] at small ⊢
    rw [show b + 2 * (data.length + 1) = b + 2 + 2 * data.length by omega]
    refine ih ?_ (step_sound sound) (by omega)
    cases h with
    | trails trails => exact .trails (trails.step ch sound (by omega))
    | begins begins => exact begins.step ch (by omega)
    | ended returned returned' same =>
      rw [Execution.step, if_pos returned, Execution.step, if_pos returned']
      exact .ended returned returned' same

/-- The end of a buffer where nothing is open. -/
theorem finish_idle {e : Execution} (live : e.returned = false) (outer : e.inner = none)
    (unmarked : e.marked = none) : e.finish = { e with returned := true } := by
  unfold Execution.finish
  rw [if_neg (not_returned live)]
  dsimp only
  rw [outer]
  dsimp only
  rw [unmarked]

theorem Behind.same (h : Behind d b past k n r u f) : Same past k u f := by
  obtain rfl := h.eq
  exact ⟨rfl, rfl, rfl, rfl, rfl⟩

theorem Behind.handOver (h : Behind d b past k n r u f) : Same past k u.handOver f.handOver := by
  obtain rfl := h.eq
  unfold Execution.handOver
  rw [show (u.behind past k n r).marked = u.marked from rfl]
  cases u.marked with
  | none => exact ⟨rfl, rfl, rfl, rfl, rfl⟩
  | some text =>
    dsimp only
    refine ⟨?_, rfl, rfl, rfl, rfl⟩
    exact List.append_assoc past u.callbacks _

/-- The end of the buffer. -/
theorem Tracks.finish (h : Tracks d b past k u f) (small : b < 2 ^ 32) :
    (0 < d ∧ f.finish.parser.httpErrno = .headerOverflow) ∨ Same past k u.finish f.finish := by
  cases h with
  | ended returned returned' same =>
    rw [finish_returned returned, finish_returned returned']
    exact .inr same
  | begins begins =>
    rw [finish_idle begins.live begins.outer begins.unmarked,
      finish_idle begins.live' begins.outer' begins.unmarked']
    have same := begins.same
    exact .inr ⟨same.callbacks, same.parsed, same.errno, same.state, same.upgrade⟩
  | trails trails =>
    rcases trails with ⟨more, returned, errno⟩ | ⟨n, r, behind⟩
    · rw [finish_returned returned]
      exact .inl ⟨more, errno⟩
    · have same : f.returned = u.returned := congrArg (·.returned) behind.eq
      have inner : f.inner = u.inner := congrArg (·.inner) behind.eq
      have nread : f.parser.nread = n := by rw [behind.eq]; rfl
      have charge : f.charge = u.charge := congrArg (·.elim 0 Inner.charge) inner
      have le := behind.le
      have near := behind.near
      have bound := behind.bound
      cases returned : u.returned with
      | true =>
        rw [finish_returned returned, finish_returned (same.trans returned)]
        exact .inr behind.same
      | false =>
        rw [finish_eq returned (by omega), finish_eq (same.trans returned) (by omega), inner,
          charge, nread]
        have settled : Behind d b past k (n + u.charge) r (u.settled u.charge)
            (f.settled u.charge) := by
          refine ⟨?_, behind.unread, Nat.add_le_add_right le _, ?_, bound⟩
          · rw [behind.eq]
            rfl
          · show n + u.charge ≤ u.parser.nread + u.charge + d
            omega
        by_cases above : u.inner.isSome ∧ n + u.charge > httpMaxHeaderSize
        · rw [if_pos above]
          by_cases both : u.inner.isSome ∧ u.parser.nread + u.charge > httpMaxHeaderSize
          · rw [if_pos both]
            have same := settled.same
            exact .inr ⟨same.callbacks, same.parsed, rfl, same.state, same.upgrade⟩
          · have small : ¬ u.parser.nread + u.charge > httpMaxHeaderSize :=
              fun more => both ⟨above.1, more⟩
            exact .inl ⟨by omega, rfl⟩
        · rw [if_neg above, if_neg fun both => above ⟨both.1, by omega⟩]
          exact .inr settled.handOver

end Runs

/-! ## Messages that follow each other -/

/-- What is read is whole messages, and another one may begin. -/
structure Whole (data : Bytes) : Prop where
  going : (httpParserExecute httpParserInit data).parser.halted = false
  state : (httpParserExecute httpParserInit data).parser.state = .startReq

instance (data : Bytes) : Decidable (Whole data) :=
  decidable_of_iff ((httpParserExecute httpParserInit data).parser.halted = false ∧
      (httpParserExecute httpParserInit data).parser.state = .startReq)
    ⟨fun h => ⟨h.1, h.2⟩, fun h => ⟨h.going, h.state⟩⟩

section Messages

variable {data rest : Bytes}

open Execution

/-- An execution that has ended has halted, and one that goes on has not counted more than it has
read. -/
theorem scan_cases (data : Bytes) (short : data.length + 1 < 2 ^ 32) :
    ((scan data).returned = true ∧ (scan data).parser.halted = true) ∨
      ((scan data).returned = false ∧ (scan data).parser.nread ≤ data.length + 1) := by
  have start : Beside 0 0 [] { parser := httpParserInit } { parser := httpParserInit } :=
    ⟨rfl, rfl, rfl, rfl, rfl, ⟨0, Nat.le_refl 0, Nat.le_refl 0, rfl⟩, rfl, .closed .nil⟩
  have outcome := foldl_step_outcome (.inr (.inr start.together)) (scan_sound []) data (by omega)
  rcases outcome with doomed | stopped | together
  · cases doomed with
    | overflowed _ returned errno =>
      refine .inl ⟨returned, ?_⟩
      show HttpParser.halted (scan data).parser = true
      rw [HttpParser.halted, show (scan data).parser.httpErrno = .headerOverflow from errno]
      rfl
    | searching live _ _ _ bound =>
      refine .inr ⟨live, (Nat.le_add_right _ _).trans (bound.trans ?_)⟩
      omega
  · exact .inl ⟨stopped.returned, stopped.halted⟩
  · obtain ⟨m, bound, le, -⟩ := together.beside.parser
    have counted : (scan data).parser.nread ≤ m := (Nat.le_add_right _ _).trans le
    refine .inr ⟨together.beside.live, counted.trans (bound.trans ?_)⟩
    split <;> omega

/-- Where a message may begin, the parser stands with nothing open. -/
theorem Whole.starting (h : Whole data) (short : data.length + 1 < 2 ^ 32) :
    Starting (scan data).parser.nread (data.length + 1) (scan data).callbacks (scan data).parsed
      { parser := httpParserInit } (scan data) := by
  obtain ⟨going, state⟩ := h
  rw [httpParserExecute_init] at going state
  rcases scan_cases data short with ⟨returned, halted⟩ | ⟨live, bound⟩
  · rw [finish_returned returned, halted] at going
    cases going
  · have fits := (scan_sound data).fits live
    have here : (scan data).parser.state = .startReq := (finish_keeps _).1.symm.trans state
    have unmarked := fits.unmarked (by rw [here]; rfl)
    have outer : (scan data).inner = none := by
      cases inside : (scan data).inner with
      | none => rfl
      | some i =>
        have other := fits.inner i inside
        rw [here] at other
        cases i <;> cases other
    rw [finish_idle live outer unmarked, HttpParser.halted, Bool.or_eq_false_iff] at going
    have errno : (scan data).parser.httpErrno = .ok := bne_eq_false_iff_eq.mp going.1
    have upgrade : (scan data).parser.upgrade = false := by
      have upgrade := going.2
      rw [show (scan data).parser.state = .startReq from here] at upgrade
      rw [← Bool.and_true (scan data).parser.upgrade]
      exact upgrade
    exact {
      same := ⟨(List.append_nil _).symm, rfl, errno, here, upgrade⟩
      live := rfl
      live' := live
      outer := rfl
      outer' := outer
      unmarked := rfl
      unmarked' := unmarked
      state := rfl
      le := Nat.zero_le _
      near := (Nat.zero_add _).ge
      bound := bound }

/-- What follows whole messages is read as if it came first, unless the count that a chunked message
has left makes its header too large. -/
theorem Whole.append (h : Whole data) (short : data.length + 1 + 2 * rest.length < 2 ^ 32) :
    let before := httpParserExecute httpParserInit data
    let run := httpParserExecute httpParserInit (data ++ rest)
    (before.parser.nread ≠ 0 ∧ run.parser.httpErrno = .headerOverflow) ∨
      Same before.callbacks before.parsed (httpParserExecute httpParserInit rest) run := by
  have starting := h.starting (by omega)
  have tracks := Tracks.foldl_step (.begins starting) (scan_sound []) rest short
  have ends := tracks.finish short
  dsimp only
  rw [httpParserExecute_init, httpParserExecute_init, httpParserExecute_init, scan_append,
    finish_idle starting.live' starting.outer' starting.unmarked']
  rcases ends with ⟨more, errno⟩ | same
  · exact .inl ⟨Nat.ne_of_gt more, errno⟩
  · exact .inr same

/-- Messages on one connection are reported one after the other, each as if it were alone. -/
theorem report_messages (messages : List Bytes) (rest : Bytes)
    (whole : ∀ data ∈ messages, Whole data)
    (short : 2 * (messages.flatten ++ rest).length + 1 < 2 ^ 32) :
    let run := httpParserExecute httpParserInit (messages.flatten ++ rest)
    ((∃ data ∈ messages, (httpParserExecute httpParserInit data).parser.nread ≠ 0) ∧
        run.parser.httpErrno = .headerOverflow) ∨
      Same (messages.flatMap report)
        (messages.map fun data => (httpParserExecute httpParserInit data).parsed).sum
        (httpParserExecute httpParserInit rest) run := by
  induction messages with
  | nil =>
    refine .inr ⟨?_, ?_, rfl, rfl, rfl⟩
    · exact (List.nil_append _).symm
    · exact (Nat.zero_add _).symm
  | cons data messages ih =>
    rw [List.forall_mem_cons] at whole
    rw [List.flatten_cons, List.append_assoc, List.length_append] at short
    have one := @Whole.append data (messages.flatten ++ rest) whole.1 (by omega)
    have more := ih whole.2 (by omega)
    dsimp only at one more ⊢
    rw [List.flatten_cons, List.append_assoc]
    rcases one with ⟨counted, errno⟩ | same
    · exact .inl ⟨⟨data, List.mem_cons_self, counted⟩, errno⟩
    · rcases more with ⟨⟨other, mem, counted⟩, errno⟩ | same'
      · exact .inl ⟨⟨other, List.mem_cons_of_mem _ mem, counted⟩, same.errno.trans errno⟩
      · refine .inr ⟨?_, ?_, same.errno.trans same'.errno, same.state.trans same'.state,
          same.upgrade.trans same'.upgrade⟩
        · rw [same.callbacks, same'.callbacks, List.flatMap_cons, List.append_assoc]
          rfl
        · rw [same.parsed, same'.parsed, List.map_cons, List.sum_cons, Nat.add_assoc]

/-- A chunked request with a trailer, and a request behind it. -/
def pipeline : List Bytes :=
  [bytes "PUT /a HTTP/1.1\r\nTransfer-Encoding: chunked\r\n\r\n2\r\nhi\r\n0\r\nx: y\r\n\r\n",
    bytes "GET / HTTP/1.0\r\nConnection: keep-alive\r\n\r\n"]

theorem report_messages_pipeline :
    let rest := bytes "GET /b"
    let run := httpParserExecute httpParserInit (pipeline.flatten ++ rest)
    ((∃ data ∈ pipeline, (httpParserExecute httpParserInit data).parser.nread ≠ 0) ∧
        run.parser.httpErrno = .headerOverflow) ∨
      Same (pipeline.flatMap report)
        (pipeline.map fun data => (httpParserExecute httpParserInit data).parsed).sum
        (httpParserExecute httpParserInit rest) run :=
  report_messages pipeline (bytes "GET /b") (by decide +kernel) (by decide +kernel)

end Messages

end Viking.Http
