/-
# Receiving while sending

The dispatcher as the callbacks of the scheduler: `handle_connection` on reads, and
`will_remove`, which deletes the context of a channel. A connection is followed over any
order of read and write events, with a log of the reads and of the requests that were
passed to `process_request`.

`receiving_undisturbed_iff` compares it with `serve`, the reads on their own.
-/

import Mathlib.Data.List.ReduceOption
import Viking.Http.Reception
import Viking.Io.Connection
import Viking.Server.Output

namespace Viking.Server

open Http Io

variable {traversal : Traversal}

/-- What a read event brings: what is there to read, and what `process_request` would
answer to a request. -/
structure Incoming (traversal : Traversal) where
  arrival : Arrival
  answer : Request → ScheduleItem (Serializable traversal)

/-- `handle_connection`. When it throws the context is still there; nothing but
`will_remove` looks at it then. -/
def handleConnection (incoming : Incoming traversal) (cookie : Option Context) :
    Option Context × Except Fault (ScheduleItem (Serializable traversal)) :=
  match serve cookie incoming.arrival with
  | .ok (some request, cookie) => (cookie, .ok (incoming.answer request))
  -- `return {};`
  | .ok (none, cookie) => (cookie, .ok (.empty false))
  | .error fault => (some (incoming.arrival.context cookie), .error fault)

/-- `will_remove`, that is `remove_pending_contexts` -/
def willRemove (_ : Option Context) : Option Context := none

/-- The environment of the server's scheduler. -/
def environment (traversal : Traversal) (files : Fd → Bytes) (page : PageSize) :
    Env (Serializable traversal) (Option Context) (Incoming traversal) :=
  env traversal files page handleConnection willRemove none

/-- A connection with the reads that returned bytes and the requests that were passed. -/
structure Receiving (traversal : Traversal) where
  connection : Connection (Serializable traversal) (Option Context)
  reads : List Arrival
  passed : List Request

namespace Receiving

variable (files : Fd → Bytes) (page : PageSize)

def start (traversal : Traversal) (flags : UInt32) : Receiving traversal :=
  ⟨⟨.new flags none, true⟩, [], []⟩

/-- What the event adds to the log. -/
def record (s : Receiving traversal) (connection : Connection (Serializable traversal)
    (Option Context)) : Activity (Incoming traversal) → Receiving traversal
  | .writable _ => { s with connection }
  | .readable incoming _ =>
    match serve s.connection.channel.cookie incoming.arrival with
    | .ok (request, _) => ⟨connection, s.reads ++ [incoming.arrival], s.passed ++ request.toList⟩
    | .error _ => { s with connection }

/-- Nothing is read from a channel that was removed. -/
def step (s : Receiving traversal) (activity : Activity (Incoming traversal)) :
    Except Stop (Unit × Receiving traversal) :=
  if s.connection.alive then
    (s.connection.step (environment traversal files page) activity).map fun connection =>
      ((), s.record connection activity)
  else .ok ((), s)

/-- The requests passed so far and the context of the one being received are those that the
reads make of themselves. -/
def Undisturbed (s : Receiving traversal) : Prop :=
  ∃ passed cookie, Machine.run serve none s.reads = .ok (passed, cookie) ∧
    passed.reduceOption = s.passed ∧
    (s.connection.alive = true → s.connection.channel.cookie = cookie)

/-- The event does not let the kernel take the rest of what is queued while part of a
request has been received. -/
def Clear (s : Receiving traversal) : Activity (Incoming traversal) → Prop
  | .readable _ _ => True
  | .writable turns =>
    s.connection.alive = true → s.connection.channel.queue.keepFileOpen = true →
      Drains (environment traversal files page) turns s.connection.channel.queue.buffers →
      s.connection.channel.cookie = none

end Receiving

/-! ## One event -/

section Step

variable {files : Fd → Bytes} {page : PageSize}
  {c : Channel (Serializable traversal) (Option Context)}
  {k : Connection (Serializable traversal) (Option Context)} {turns : List Turn}

/-- A read leaves a context iff it passes no request. -/
theorem serve_cookie {cookie cookie' : Option Context} {arrival : Arrival}
    {request : Option Request} (h : serve cookie arrival = .ok (request, cookie')) :
    cookie'.isSome = request.isNone := by
  obtain ⟨heap, read⟩ := arrival
  cases read with
  | closed => cases h
  | data chunk nonempty =>
    obtain ⟨context, -, rest⟩ := Machine.bind_eq_ok.mp h
    simp only [pure, Except.pure, Except.ok.injEq] at rest
    split_ifs at rest
    · cases rest
      rfl
    · cases rest
      rfl

/-- A request that is passed leaves no context. -/
theorem cookie_of_passed {cookie cookie' : Option Context} {arrival : Arrival} {request : Request}
    (h : serve cookie arrival = .ok (some request, cookie')) : cookie' = none := by
  simpa using serve_cookie h

theorem write_cookie (h : Connection.write (environment traversal files page) c turns = .ok k)
    (alive : k.alive = true) :
    k.channel.cookie =
      if (processWrite (environment traversal files page) turns c).drained = true ∧
        c.queue.keepFileOpen = true then none else c.cookie := by
  simp only [Connection.write] at h
  -- the call has not come back, or the channel stays, or it is removed
  split at h
  · cases h
  · cases h
    exact processWrite_cookie _ _ _
  · cases h
    cases alive

/-- A read event does to the cookie what the read does, also when it answers. -/
theorem read_cookie {incoming : Incoming traversal} {request : Option Request}
    {cookie : Option Context} (served : serve c.cookie incoming.arrival = .ok (request, cookie))
    (h : Connection.read (environment traversal files page) c incoming turns = .ok k)
    (alive : k.alive = true) : k.channel.cookie = cookie := by
  cases request with
  | none =>
    have called : (environment traversal files page).onRead incoming c.cookie =
        (cookie, .ok (.empty false)) := by
      simp only [environment, env, handleConnection, served]
    simp only [Connection.read, called, ScheduleItem.empty, if_true, Except.ok.injEq] at h
    exact h ▸ rfl
  | some request =>
    have called : (environment traversal files page).onRead incoming c.cookie =
        (cookie, .ok (incoming.answer request)) := by
      simp only [environment, env, handleConnection, served]
    have passed := cookie_of_passed served
    subst passed
    simp only [Connection.read, called] at h
    split_ifs at h
    · cases h
      rfl
    · -- emptying the queue deletes nothing
      have written := write_cookie h alive
      rw [written]
      split_ifs <;> rfl

theorem not_alive_of_read {incoming : Incoming traversal} {fault : Fault}
    (served : serve c.cookie incoming.arrival = .error fault)
    (h : Connection.read (environment traversal files page) c incoming turns = .ok k) :
    k.alive = false := by
  have called : (environment traversal files page).onRead incoming c.cookie =
      (some (incoming.arrival.context c.cookie), .error fault) := by
    simp only [environment, env, handleConnection, served]
  simp only [Connection.read, called] at h
  split at h
  · rename_i same
    cases same
  · cases h
    rfl
  · cases h
  · cases h

end Step

namespace Receiving

section Run

variable {files : Fd → Bytes} {page : PageSize} {s s' : Receiving traversal}
  {activity : Activity (Incoming traversal)}

theorem undisturbed_start (flags : UInt32) : (start traversal flags).Undisturbed :=
  ⟨[], none, rfl, rfl, fun _ => rfl⟩

/-- A read event keeps what the reads make of themselves. -/
theorem undisturbed_readable {incoming : Incoming traversal} {turns : List Turn} {o : Unit}
    (h : s.Undisturbed) (step : s.step files page (.readable incoming turns) = .ok (o, s')) :
    s'.Undisturbed := by
  unfold Receiving.step at step
  split_ifs at step with alive
  · obtain ⟨connection, read, rest⟩ := Machine.exists_ok_of_map step
    simp only [Connection.step, alive, if_true] at read
    simp only [Prod.mk.injEq, true_and, record] at rest
    obtain ⟨passed, cookie, reads, same, current⟩ := h
    rw [← current alive] at reads
    cases served : serve s.connection.channel.cookie incoming.arrival with
    | error fault =>
      rw [served] at rest
      subst rest
      refine ⟨passed, _, reads, same, fun alive' => ?_⟩
      rw [not_alive_of_read served read] at alive'
      cases alive'
    | ok r =>
      obtain ⟨request, cookie'⟩ := r
      rw [served] at rest
      subst rest
      -- The log has one read more, and the machine of the reads takes that one step.
      refine ⟨passed ++ [request], cookie', ?_, ?_, read_cookie served read⟩
      · exact Machine.run_snoc_eq_ok.mpr ⟨passed, request, _, reads, served, rfl⟩
      · rw [List.reduceOption_append, same]
        cases request <;> rfl
  · cases step
    exact h

theorem undisturbed_writable {turns : List Turn} {o : Unit} (h : s.Undisturbed)
    (step : s.step files page (.writable turns) = .ok (o, s')) :
    s'.Undisturbed ↔ s.Clear files page (.writable turns) := by
  unfold Receiving.step at step
  split_ifs at step with alive
  · obtain ⟨connection, write, rest⟩ := Machine.exists_ok_of_map step
    simp only [Connection.step, alive, if_true] at write
    simp only [Prod.mk.injEq, true_and, record] at rest
    subst rest
    obtain ⟨passed, cookie, reads, same, current⟩ := h
    -- No read is logged, so what the reads make of themselves is what it was.
    have here := current alive
    subst here
    simp only [Clear, alive, forall_const, ← processWrite_drained]
    constructor
    · rintro ⟨passed', cookie', reads', -, after⟩ keep drained
      -- the channel is still there and its cookie is gone
      have leaves := processWrite_leaves keep drained
      have there : connection.alive = true := by
        simp only [Connection.write, leaves, Except.ok.injEq] at write
        exact write ▸ rfl
      have cookie := write_cookie write there
      rw [if_pos ⟨drained, keep⟩] at cookie
      rw [reads, Except.ok.injEq, Prod.mk.injEq] at reads'
      rw [reads'.2, ← after there]
      exact cookie
    · intro clear
      refine ⟨passed, _, reads, same, fun there => ?_⟩
      rw [write_cookie write there]
      split_ifs with drained
      · exact (clear drained.2 drained.1).symm
      · rfl
  · cases step
    refine iff_of_true h fun alive' => ?_
    exact absurd alive' alive

/-- A call that does not come back has not emptied the queue. -/
theorem clear_of_error {stop : Stop} (step : s.step files page activity = .error stop) :
    s.Clear files page activity := by
  cases activity with
  | readable incoming turns => trivial
  | writable turns =>
    intro alive keep drains
    have leaves := processWrite_leaves keep ((processWrite_drained _ turns _).mpr drains)
    simp [Receiving.step, Connection.step, Connection.write, alive, leaves, Except.map] at step

end Run

/-- Over every order of reads and writes on a connection, what has been passed and what is
being received is at every moment what the reads alone make of it, iff no write event lets
the rest of what is queued out while part of a request has been received and the connection
is kept open. -/
theorem receiving_undisturbed_iff (traversal : Traversal) (files : Fd → Bytes) (page : PageSize)
    (flags : UInt32) (events : List (Activity (Incoming traversal))) :
    (∀ events' os s, events' <+: events →
        Machine.run (step files page) (start traversal flags) events' = .ok (os, s) →
        s.Undisturbed) ↔
      Machine.Along (step files page) (Clear files page) (start traversal flags) events := by
  -- Reads keep the invariant, writes keep it exactly when they are clear.
  apply Machine.run_invariant_iff _ _ (undisturbed_start flags)
  · intro s activity o s' undisturbed step
    cases activity with
    | readable incoming turns => exact iff_of_true (undisturbed_readable undisturbed step) trivial
    | writable turns => exact undisturbed_writable undisturbed step
  · intro s activity stop _ step
    exact clear_of_error step

/-- Part of a request comes in while an answer waits for the socket; when the answer is out
that part is lost. -/
theorem draining_deletes_request :
    ¬ ∀ (traversal : Traversal) (events : List (Activity (Incoming traversal))) (os : List Unit)
      (s : Receiving traversal),
      Machine.run (step (fun _ => []) ⟨12⟩) (start traversal Epoll.read) events = .ok (os, s) →
        s.Undisturbed := by
  intro all
  let arrival (text : Bytes) (nonempty : text ≠ []) : Arrival :=
    ⟨⟨.get, ⟨1, 1⟩, ⟨false, false⟩⟩, .data text nonempty⟩
  let incoming (text : Bytes) (nonempty : text ≠ []) : Incoming .byName :=
    ⟨arrival text nonempty, fun _ => .ofData (bytes "answer") true⟩
  let full : Turn := ⟨false, [], .failed .eagain, false⟩
  let events : List (Activity (Incoming .byName)) :=
    [.readable (incoming (bytes "GET /a HTTP/1.1\r\n\r\n") (by decide +kernel)) [full],
      .readable (incoming (bytes "POST /b HTTP/1.1\r\nContent-Length: 4\r\n\r\nab")
        (by decide +kernel)) [],
      .writable [{ full with sends := [.ok 6] }]]
  -- the channel is kept open without a context, and the reads alone leave one
  have lost : (Machine.run (step (fun _ => []) ⟨12⟩) (start .byName Epoll.read) events).map
      (fun r => (r.2.connection.alive, r.2.connection.channel.cookie.isSome,
        (Machine.run serve none r.2.reads).map fun t => t.2.isSome)) =
        .ok (true, false, .ok true) := by
    decide +kernel
  obtain ⟨⟨os, s⟩, run, facts⟩ := Machine.exists_ok_of_map lost
  simp only [Prod.mk.injEq] at facts
  obtain ⟨alive, here, alone⟩ := facts
  obtain ⟨passed, cookie, reads, -, same⟩ := all .byName events os s run
  rw [reads, Except.map, Except.ok.injEq, ← same alive, here] at alone
  cases alone

end Receiving

end Viking.Server
