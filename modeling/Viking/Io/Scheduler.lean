/-
# The scheduler

`Scheduler` is the state of `scheduler_impl`: the channels, looked up by their address,
and the poll. `visit` is one pass through the loop of `run` for one event; it goes on
with a channel for as long as the source goes on with its pointer, so using a channel
that `remove` has erased is a lookup that fails.

`no_use_after_remove_iff` says when that happens: a channel that is reported readable
and writable at once is written to after the read, even when the read has removed it.
-/

import Mathlib.Algebra.Order.BigOperators.Group.List
import Mathlib.Algebra.Order.Group.Nat
import Viking.Io.Channel
import Viking.Lib.Machine

namespace Viking.Io

open Epoll

variable {ρ κ ι : Type}

/-- How the scheduler can stop. -/
inductive Stop
  /-- a channel is used that was removed -/
  | useAfterRemove (channel : Address)
  | fault (fault : Fault)
  /-- the outcomes that a call of `process_write` was given ended within its loop -/
  | unfinished
  deriving DecidableEq, Repr

structure Scheduler (ρ κ : Type) where
  channels : List (Address × Channel ρ κ)
  poll : Poll

/-- What `accept` and the calls that follow do for one connection. An allocation is never
where a channel is. -/
structure Accept where
  place : List Address → Address
  fresh : ∀ addresses, place addresses ∉ addresses
  /-- whether `make_non_blocking` succeeds -/
  nonBlocking : Bool
  result : CtlResult
  second : CtlResult

/-- What the loop meets while it deals with one event: the outcomes of the `epoll_ctl`
calls, in `answer` and `flush` with those of a call of `process_write`, what the read
callback depends on, and the connections that wait. -/
structure Visit (ι : Type) where
  arm : CtlResult
  input : ι
  interest : CtlResult
  answer : List Turn × CtlResult
  flush : List Turn × CtlResult
  closing : CtlResult
  accepts : List Accept

/-- What `epoll_wait` reports, given the channels that are watched: one event at most for
each of them. -/
structure Report (ι : Type) where
  events : List Address → List (Event × Visit ι)
  registered : ∀ watched, ∀ e ∈ events watched, e.1.context ∈ watched
  once : ∀ watched, ((events watched).map fun e => e.1.context).Nodup

/-- At most one event. -/
def Report.ofEvent (e : Event × Visit ι) : Report ι where
  events watched := if e.1.context ∈ watched then [e] else []
  registered watched e' mem := by
    split_ifs at mem with there
    · rw [List.mem_singleton] at mem
      exact mem ▸ there
    · cases mem
  once watched := by
    split_ifs
    · simp
    · exact List.nodup_nil

/-- A channel as the loop of `run` goes on with it. -/
def Channel.armed (c : Channel ρ κ) : Channel ρ κ :=
  if c.flags &&& edgeTriggered = 0 then { c with flags := c.flags ||| edgeTriggered } else c

namespace Scheduler

/-- The channels there are. -/
def addresses (s : Scheduler ρ κ) : List Address := s.channels.map Prod.fst

/-- The channel at an address. -/
def find (s : Scheduler ρ κ) (a : Address) : Except Stop (Channel ρ κ) :=
  match s.channels.find? fun entry => entry.1 = a with
  | some (_, c) => .ok c
  | none => .error (.useAfterRemove a)

/-- What has changed in the channel at an address. -/
def put (s : Scheduler ρ κ) (a : Address) (c : Channel ρ κ) : Scheduler ρ κ :=
  { s with channels := s.channels.map fun entry => if entry.1 = a then (a, c) else entry }

/-- `poll.update(channel)` -/
def update (s : Scheduler ρ κ) (a : Address) (result : CtlResult) :
    Except Stop (Scheduler ρ κ) := do
  let c ← s.find a
  return { s with poll := s.poll.update a c.flags result }

/-- `add`, and the constructor for the first channel. -/
def add (s : Scheduler ρ κ) (a : Address) (c : Channel ρ κ) (result second : CtlResult) :
    Scheduler ρ κ where
  channels := s.channels ++ [(a, c)]
  poll := s.poll.schedule a c.flags result second

/-- `remove`: the channel is erased and its socket closed. An error of `poll.remove` does
not get out of it. -/
def remove (s : Scheduler ρ κ) (a : Address) (result : CtlResult) :
    Except Stop (Scheduler ρ κ) := do
  let _ ← s.find a
  -- `on_remove` gets the channel first, so it has to be there
  match s.poll.remove a result with
  | .error _ => .error (.fault .terminated)
  | .ok poll =>
    return { channels := s.channels.filter fun entry => entry.1 ≠ a, poll := poll.forget a }

variable (env : Env ρ κ ι)

/-- `add_new_connections`, over the connections that wait. -/
def addNewConnections (s : Scheduler ρ κ) : List Accept → Except Stop (Scheduler ρ κ)
  | [] => .ok s
  | accept :: accepts =>
    if accept.nonBlocking then
      (s.add (accept.place s.addresses) (.new (read ||| termination) env.null) accept.result
        accept.second).addNewConnections accepts
    -- an exception that is not a `poll_error` meets the `noexcept`
    else .error (.fault .terminated)

/-- `process_write` -/
def processWrite (s : Scheduler ρ κ) (a : Address) (outcomes : List Turn × CtlResult) :
    Except Stop (Scheduler ρ κ) := do
  let c ← s.find a
  let written := Io.processWrite env outcomes.1 c
  let s := s.put a written.channel
  match written.next with
  | .again => .error .unfinished
  | .leave => s.update a outcomes.2
  | .remove => s.remove a outcomes.2

/-- The handler of `process_read`. The one exception it expects is that the peer has closed
the connection; any other ends the process. -/
def readFailed (s : Scheduler ρ κ) (a : Address) (v : Visit ι) :
    Fault → Except Stop (Scheduler ρ κ)
  | .thrown .connectionClosedByPeer => s.remove a v.closing
  | .thrown _ => .error (.fault .terminated)
  | fault => .error (.fault fault)

/-- `process_read` -/
def processRead (s : Scheduler ρ κ) (a : Address) (v : Visit ι) :
    Except Stop (Scheduler ρ κ) := do
  let c ← s.find a
  let (cookie, response) := env.onRead v.input c.cookie
  let c := { c with cookie := cookie }
  let s := s.put a c
  match response with
  | .error fault => s.readFailed a v fault
  | .ok item =>
    if item.buffers = [] then return s
    else do
      -- the poll is told of the interest in writing before the item is queued
      let s ← (s.put a (c.receive item)).update a v.interest
      s.processWrite env a v.answer

/-- A channel that was set back to level triggered becomes edge triggered again. -/
def arm (s : Scheduler ρ κ) (a : Address) (c : Channel ρ κ) (result : CtlResult) :
    Except Stop (Scheduler ρ κ) :=
  if c.flags &&& edgeTriggered = 0 then (s.put a c.armed).update a result else return s

/-- The last part of a pass: the channel is written to, if it is reported writable. -/
def flush (s : Scheduler ρ κ) (e : Event × Visit ι) : Except Stop (Scheduler ρ κ) :=
  if e.1.canWrite then s.processWrite env e.1.context e.2.flush else return s

/-- One pass through the loop of `run`. -/
def visit (s : Scheduler ρ κ) (e : Event × Visit ι) : Except Stop (Scheduler ρ κ) := do
  let a := e.1.context
  let c ← s.find a
  let s ← s.arm a c e.2.arm
  if c.acceptor then s.addNewConnections env e.2.accepts
  -- the two branches below `continue`, the last one goes on with the same pointer
  else if e.1.canTerminate then s.remove a e.2.closing
  else do
    let s ← if e.1.canRead then s.processRead env a e.2 else pure s
    s.flush env e

/-- `visit` as the step of a machine. -/
def visitStep (s : Scheduler ρ κ) (e : Event × Visit ι) : Except Stop (Unit × Scheduler ρ κ) :=
  (s.visit env e).map ((), ·)

/-- The events that `await` returns. -/
def awaited (s : Scheduler ρ κ) (report : Report ι) : List (Event × Visit ι) :=
  report.events s.poll.watchedPtrs

/-- `run`; without a report `await` has thrown. -/
def iterate (s : Scheduler ρ κ) (report : Option (Report ι)) :
    Except Stop (Unit × Scheduler ρ κ) :=
  if s.channels = [] then .ok ((), s)
  else
    match report with
    | none => .error (.fault .terminated)
    | some report =>
      (Machine.run (visitStep env) s (s.awaited report)).map fun (_, s) => ((), s)

/-- The scheduler of a new server, with its listening socket. -/
def start (a : Address) (result second : CtlResult) : Scheduler ρ κ :=
  (⟨[], .empty⟩ : Scheduler ρ κ).add a ⟨true, .empty false, read ||| termination, env.null⟩
    result second

/-! ## Lookups -/

section Lookups

variable {env : Env ρ κ ι} {s s' : Scheduler ρ κ} {a x : Address} {c c' : Channel ρ κ}
  {result : CtlResult}

/-- The kernel watches no channel that is not there. -/
def Registered (s : Scheduler ρ κ) : Prop := ∀ x ∈ s.poll.watchedPtrs, x ∈ s.addresses

theorem mem_addresses : a ∈ s.addresses ↔ ∃ c, s.find a = .ok c := by
  simp only [find, addresses, List.mem_map]
  cases h : s.channels.find? fun entry => decide (entry.1 = a) with
  | none =>
    simp only [reduceCtorEq, exists_false, iff_false, not_exists, not_and]
    intro entry mem
    simpa using List.find?_eq_none.mp h entry mem
  | some entry =>
    have found : entry.1 = a := by simpa using List.find?_some h
    simp only [Except.ok.injEq, exists_eq', iff_true]
    exact ⟨entry, List.mem_of_find?_eq_some h, found⟩

theorem mem_of_find (h : s.find a = .ok c) : a ∈ s.addresses := mem_addresses.mpr ⟨c, h⟩

theorem find_of_not_mem (h : a ∉ s.addresses) : s.find a = .error (.useAfterRemove a) := by
  rw [mem_addresses, not_exists] at h
  simp only [find] at h ⊢
  split
  · rename_i c found
    exact absurd (by rw [found]) (h c)
  · rfl

@[simp] theorem addresses_put : (s.put a c).addresses = s.addresses := by
  simp only [addresses, put, List.map_map]
  apply List.map_congr_left
  intro entry _
  simp only [Function.comp_apply]
  split
  · rename_i same
    exact same.symm
  · rfl

theorem find_put (h : a ∈ s.addresses) : (s.put a c).find a = .ok c := by
  obtain ⟨c₀, h⟩ := mem_addresses.mp h
  have same : ((fun entry : Address × Channel ρ κ => decide (entry.1 = a)) ∘
      fun entry => if entry.1 = a then (a, c) else entry) = fun entry => decide (entry.1 = a) := by
    funext entry
    simp only [Function.comp_apply]
    split <;> simp_all
  cases found : s.channels.find? fun entry => decide (entry.1 = a) with
  -- `put` changes what is at the address and not where anything is.
  | none => simp [find, found] at h
  | some entry =>
    have place : entry.1 = a := by simpa using List.find?_some found
    have located : (s.put a c).channels.find? (fun entry => decide (entry.1 = a)) =
        some (a, c) := by
      simp only [put]
      rw [List.find?_map, same, found, Option.map_some, if_pos place]
    simp only [find, located]

theorem mem_of_find_ok (found : s.find a = .ok c) : (a, c) ∈ s.channels := by
  simp only [find] at found
  cases h : s.channels.find? fun entry => decide (entry.1 = a) with
  | none => simp [h] at found
  | some entry =>
    have place : entry.1 = a := by simpa using List.find?_some h
    rw [h] at found
    cases found
    exact place ▸ List.mem_of_find?_eq_some h

theorem mem_put (mem : (x, c') ∈ (s.put a c).channels) :
    x = a ∧ c' = c ∨ x ≠ a ∧ (x, c') ∈ s.channels := by
  simp only [put, List.mem_map] at mem
  obtain ⟨entry, old, same⟩ := mem
  split_ifs at same with place
  · cases same
    exact .inl ⟨rfl, rfl⟩
  · subst same
    exact .inr ⟨place, old⟩

theorem find_put_of_ne (ne : x ≠ a) : (s.put a c).find x = s.find x := by
  have same : ((fun entry : Address × Channel ρ κ => decide (entry.1 = x)) ∘
      fun entry => if entry.1 = a then (a, c) else entry) = fun entry => decide (entry.1 = x) := by
    funext entry
    simp only [Function.comp_apply]
    split_ifs with place
    · rw [place]
    · rfl
  simp only [find, put, List.find?_map, same]
  cases found : s.channels.find? fun entry => decide (entry.1 = x) with
  | none => rfl
  | some entry =>
    have place : entry.1 = x := by simpa using List.find?_some found
    rw [Option.map_some, if_neg (place ▸ ne)]

theorem find_congr (same : s'.channels = s.channels) : s'.find x = s.find x := by
  rw [find, same, find]

/-- What is removed cannot be found any more. -/
theorem find_removed (removed : s.remove a result = .ok s') :
    s'.find x = if x = a then .error (.useAfterRemove a) else s.find x := by
  have channels : s'.channels = s.channels.filter fun entry => entry.1 ≠ a := by
    unfold remove at removed
    obtain ⟨_, -, removed⟩ := Machine.bind_eq_ok.mp removed
    split at removed
    · cases removed
    · cases removed
      rfl
  simp only [find, channels, List.find?_filter]
  split_ifs with here
  · subst here
    rw [List.find?_eq_none.mpr (by simp)]
  · have same : (fun entry : Address × Channel ρ κ =>
        decide (decide (entry.1 ≠ a) = true ∧ decide (entry.1 = x) = true)) =
          fun entry => decide (entry.1 = x) := by
      funext entry
      by_cases place : entry.1 = x
      · simp [place, here]
      · simp [place]
    rw [same]

theorem find_add (fresh : a ∉ s.addresses) (second : CtlResult) :
    (s.add a c result second).find x = if x = a then .ok c else s.find x := by
  simp only [find, add, List.find?_append]
  split_ifs with here
  · subst here
    have absent : s.channels.find? (fun entry => decide (entry.1 = x)) = none := by
      refine List.find?_eq_none.mpr fun entry mem => ?_
      have other : entry.1 ≠ x := fun same => fresh (same ▸ List.mem_map_of_mem mem)
      simpa using other
    rw [absent, Option.none_or, List.find?_cons_of_pos (by simp)]
  · rw [List.find?_cons_of_neg (by simpa using Ne.symm here), List.find?_nil, Option.or_none]

theorem update_eq (h : s.find a = .ok c) (result : CtlResult) :
    s.update a result = .ok { s with poll := s.poll.update a c.flags result } := by
  rw [update, h]
  rfl

theorem remove_eq (h : s.find a = .ok c) {poll : Poll}
    (removed : s.poll.remove a result = .ok poll) :
    s.remove a result = .ok
      { channels := s.channels.filter fun entry => entry.1 ≠ a, poll := poll.forget a } := by
  rw [remove, h]
  simp only [bind, Except.bind, removed]
  rfl

theorem remove_eq_terminated (h : s.find a = .ok c) {fault : Fault}
    (failed : s.poll.remove a result = .error fault) :
    s.remove a result = .error (.fault .terminated) := by
  rw [remove, h]
  simp only [bind, Except.bind, failed]

theorem remove_isOk_iff (h : s.find a = .ok c) :
    (∃ s', s.remove a result = .ok s') ↔ s.poll.Removes a result := by
  rw [← Poll.remove_isOk_iff]
  cases removed : s.poll.remove a result with
  | error fault => simp [remove_eq_terminated h removed]
  | ok poll => simp [remove_eq h removed]

end Lookups

/-! ## What a call can do to the channels -/

/-- Between two states nothing but the channel at `a` goes. -/
structure Frame (a : Address) (s s' : Scheduler ρ κ) : Prop where
  others : ∀ x ∈ s.addresses, x ≠ a → x ∈ s'.addresses
  registered : s.Registered → s'.Registered

/-- A call that uses no channel but the one at `a`, and uses it while it is there. -/
structure Confined (a : Address) (s : Scheduler ρ κ) (r : Except Stop (Scheduler ρ κ)) :
    Prop where
  safe : ∀ b, r ≠ .error (.useAfterRemove b)
  frame : ∀ s', r = .ok s' → Frame a s s'

/-- When it returns, the channel is there iff `stays`. -/
structure Keeps (a : Address) (s : Scheduler ρ κ) (r : Except Stop (Scheduler ρ κ))
    (stays : Prop) : Prop extends Confined a s r where
  stays : ∀ s', r = .ok s' → (a ∈ s'.addresses ↔ stays)

section Confinement

variable {env : Env ρ κ ι} {s s' s'' : Scheduler ρ κ} {a : Address} {c : Channel ρ κ}
  {result : CtlResult} {r : Except Stop (Scheduler ρ κ)} {stays : Prop}

theorem Frame.refl (a : Address) (s : Scheduler ρ κ) : Frame a s s :=
  ⟨fun _ h _ => h, fun h => h⟩

theorem Frame.trans (h : Frame a s s') (h' : Frame a s' s'') : Frame a s s'' where
  others x mem ne := h'.others x (h.others x mem ne) ne
  registered reg := h'.registered (h.registered reg)

/-- The channels and what is watched are the same. -/
theorem Frame.of_same (addresses : s'.addresses = s.addresses)
    (watched : s'.poll.watchedPtrs = s.poll.watchedPtrs) : Frame a s s' where
  others x mem _ := addresses ▸ mem
  registered reg := by
    intro x mem
    rw [addresses]
    exact reg x (watched ▸ mem)

theorem Frame.put : Frame a s (s.put a c) := .of_same addresses_put rfl

theorem Confined.ok (frame : Frame a s s') : Confined a s (.ok s') where
  safe b h := by cases h
  frame s'' h := by
    cases h
    exact frame

theorem Keeps.ok (frame : Frame a s s') (present : a ∈ s'.addresses) :
    Keeps a s (.ok s') True where
  toConfined := .ok frame
  stays s'' h := by
    cases h
    exact iff_of_true present trivial

theorem Confined.of_frame (frame : Frame a s s') (h : Confined a s' r) : Confined a s r where
  safe := h.safe
  frame s'' returned := frame.trans (h.frame s'' returned)

theorem Keeps.of_frame (frame : Frame a s s') (h : Keeps a s' r stays) : Keeps a s r stays where
  toConfined := h.toConfined.of_frame frame
  stays := h.stays

/-- A call that stops for another reason. -/
theorem Keeps.stopped {stop : Stop} (other : ∀ b, stop ≠ .useAfterRemove b) :
    Keeps a s (.error stop) stays where
  safe b h := other b (Except.error.inj h)
  frame s' h := by cases h
  stays s' h := by cases h

/-- One call after another, which finds the channel there. -/
theorem Confined.bind {f : Scheduler ρ κ → Except Stop (Scheduler ρ κ)} (h : Confined a s r)
    (rest : ∀ s', r = .ok s' → Confined a s' (f s')) : Confined a s (r >>= f) := by
  cases returned : r with
  | error stop =>
    have stopped : Keeps a s (.error stop) True := by
      apply Keeps.stopped
      intro b used
      exact h.safe b (used ▸ returned)
    exact stopped.toConfined
  | ok s' => exact (rest s' returned).of_frame (h.frame s' returned)

theorem Keeps.bind {f : Scheduler ρ κ → Except Stop (Scheduler ρ κ)} (h : Confined a s r)
    (rest : ∀ s', r = .ok s' → Keeps a s' (f s') stays) : Keeps a s (r >>= f) stays where
  toConfined := h.bind fun s' returned => (rest s' returned).toConfined
  stays s'' returned := by
    obtain ⟨s', first, second⟩ := Machine.bind_eq_ok.mp returned
    exact (rest s' first).stays s'' second

theorem keeps_update (present : a ∈ s.addresses) (result : CtlResult) :
    Keeps a s (s.update a result) True := by
  obtain ⟨c, found⟩ := mem_addresses.mp present
  rw [update_eq found result]
  exact .ok (.of_same rfl (Poll.watchedPtrs_update _ _ _ _)) present

theorem keeps_remove (present : a ∈ s.addresses) :
    Keeps a s (s.remove a result) False := by
  obtain ⟨c, found⟩ := mem_addresses.mp present
  cases removed : s.poll.remove a result with
  | error fault =>
    rw [remove_eq_terminated found removed]
    exact .stopped (by simp)
  | ok poll =>
    rw [remove_eq found removed]
    refine ⟨⟨fun b h => ?_, fun s' h => ?_⟩, fun s' h => ?_⟩
    · cases h
    · cases h
      refine ⟨fun x mem ne => ?_, fun reg x mem => ?_⟩
      · simp only [addresses, List.mem_map, List.mem_filter] at mem ⊢
        obtain ⟨entry, mem, rfl⟩ := mem
        exact ⟨entry, ⟨mem, by simpa using ne⟩, rfl⟩
      -- The kernel forgets the address in the same call.
      · obtain ⟨mem, ne⟩ := Poll.mem_watchedPtrs_forget.mp mem
        have old := reg x (Poll.watchedPtrs_remove removed mem)
        simp only [addresses, List.mem_map, List.mem_filter] at old ⊢
        obtain ⟨entry, old, rfl⟩ := old
        exact ⟨entry, ⟨old, by simpa using ne⟩, rfl⟩
    · cases h
      simp [addresses]

theorem keeps_processWrite (found : s.find a = .ok c) (outcomes : List Turn × CtlResult) :
    Keeps a s (s.processWrite env a outcomes)
      ((Io.processWrite env outcomes.1 c).next ≠ .remove) := by
  have present {c' : Channel ρ κ} : a ∈ (s.put a c').addresses := by
    rw [addresses_put]
    exact mem_of_find found
  have eq : s.processWrite env a outcomes =
      match (Io.processWrite env outcomes.1 c).next with
      | .again => .error .unfinished
      | .leave => (s.put a (Io.processWrite env outcomes.1 c).channel).update a outcomes.2
      | .remove => (s.put a (Io.processWrite env outcomes.1 c).channel).remove a outcomes.2 := by
    rw [processWrite, found]
    rfl
  rw [eq]
  cases (Io.processWrite env outcomes.1 c).next with
  | again => exact .stopped (by simp)
  | leave =>
    simp only [ne_eq, reduceCtorEq, not_false_eq_true]
    exact (keeps_update present _).of_frame .put
  | remove =>
    simp only [ne_eq, not_true_eq_false]
    exact (keeps_remove present).of_frame .put

/-- `process_write` that removes the channel returns unless an error of `epoll_ctl` ends
the process. -/
theorem processWrite_isOk_iff {outcomes : List Turn × CtlResult} (found : s.find a = .ok c)
    (next : (Io.processWrite env outcomes.1 c).next = .remove) :
    (∃ s', s.processWrite env a outcomes = .ok s') ↔ s.poll.Removes a outcomes.2 := by
  have there := find_put (c := (Io.processWrite env outcomes.1 c).channel) (mem_of_find found)
  rw [processWrite, found]
  simp only [bind, Except.bind, next]
  exact remove_isOk_iff there

/-- How the `epoll_ctl` ends of the removal that `process_read` comes to, if it comes to
one: the peer has closed the connection, or `process_write` removes the channel once the
reply is queued. -/
def readRemoval (env : Env ρ κ ι) (c : Channel ρ κ) (v : Visit ι) : Option CtlResult :=
  match env.onRead v.input c.cookie with
  | (_, .error fault) => if fault = .thrown .connectionClosedByPeer then some v.closing else none
  | (cookie, .ok item) =>
    if item.buffers ≠ [] ∧
        (Io.processWrite env v.answer.1 ({ c with cookie := cookie }.receive item)).next = .remove
      then some v.answer.2 else none

section Read

variable {v : Visit ι} {cookie : κ}

/-- `process_read` after an exception. -/
theorem processRead_of_error {fault : Fault} (found : s.find a = .ok c)
    (read : env.onRead v.input c.cookie = (cookie, .error fault)) :
    s.processRead env a v = (s.put a { c with cookie := cookie }).readFailed a v fault := by
  rw [processRead, found]
  simp only [bind, Except.bind, read]

theorem readFailed_of_ne {fault : Fault} (other : fault ≠ .thrown .connectionClosedByPeer) :
    ∃ fault', s.readFailed a v fault = .error (.fault fault') := by
  cases fault with
  | thrown exception =>
    refine ⟨.terminated, ?_⟩
    cases exception <;> first | rfl | exact absurd rfl other
  | terminated => exact ⟨_, rfl⟩
  | undefined reason => exact ⟨_, rfl⟩

/-- `process_read` after a reply. -/
theorem processRead_of_reply {item : ScheduleItem ρ} (found : s.find a = .ok c)
    (read : env.onRead v.input c.cookie = (cookie, .ok item)) :
    s.processRead env a v =
      if item.buffers = [] then .ok (s.put a { c with cookie := cookie })
      else
        (((s.put a { c with cookie := cookie }).put a
          ({ c with cookie := cookie }.receive item)).update a v.interest) >>=
            fun s => s.processWrite env a v.answer := by
  rw [processRead, found]
  simp only [bind, Except.bind, read]
  rfl

/-- Another channel in the place of one that is there. -/
theorem mem_addresses_put (found : s.find a = .ok c) (c' : Channel ρ κ) :
    a ∈ (s.put a c').addresses := by
  rw [addresses_put]
  exact mem_of_find found

/-- An update leaves the channel as it is. -/
theorem find_update {a' : Address} (found : s.find a = .ok c)
    (updated : s.update a' result = .ok s') : s'.find a = .ok c := by
  obtain ⟨c', found', rest⟩ := Machine.bind_eq_ok.mp updated
  simp only [pure, Except.pure, Except.ok.injEq] at rest
  rw [← rest]
  exact found

theorem keeps_processRead (found : s.find a = .ok c) (v : Visit ι) :
    Keeps a s (s.processRead env a v) (readRemoval env c v = none) := by
  have present (c' : Channel ρ κ) := mem_addresses_put found c'
  rcases read : env.onRead v.input c.cookie with ⟨cookie, response⟩
  cases response with
  | error fault =>
    rw [processRead_of_error found read]
    simp only [readRemoval, read]
    by_cases closed : fault = .thrown .connectionClosedByPeer
    · subst closed
      simp only [if_true, reduceCtorEq]
      exact (keeps_remove (present _)).of_frame .put
    · obtain ⟨fault', stopped⟩ := readFailed_of_ne (s := s.put a { c with cookie := cookie })
        (a := a) (v := v) closed
      rw [stopped]
      exact .stopped (by simp)
  | ok item =>
    rw [processRead_of_reply found read]
    simp only [readRemoval, read]
    by_cases empty : item.buffers = []
    · simp only [empty, if_true, ne_eq, not_true_eq_false, false_and, if_false]
      exact .ok .put (present _)
    · -- the reply is queued, and `process_write` finds the channel with it
      have queued : ((s.put a { c with cookie := cookie }).put a
          ({ c with cookie := cookie }.receive item)).find a =
          .ok ({ c with cookie := cookie }.receive item) := find_put (present _)
      rw [if_neg empty]
      have update := (keeps_update (mem_of_find queued) v.interest).toConfined
      refine (Keeps.bind update fun s' updated => ?_).of_frame (.trans .put .put)
      have there := find_update queued updated
      simpa [empty] using keeps_processWrite there v.answer

/-- `process_read` that removes the channel returns unless an error of `epoll_ctl` ends
the process. -/
theorem processRead_isOk_iff (found : s.find a = .ok c)
    (removal : readRemoval env c v = some result) :
    (∃ s', s.processRead env a v = .ok s') ↔ s.poll.Removes a result := by
  have present (c' : Channel ρ κ) := mem_addresses_put found c'
  rcases read : env.onRead v.input c.cookie with ⟨cookie, response⟩
  cases response with
  | error fault =>
    rw [processRead_of_error found read]
    simp only [readRemoval, read] at removal
    split_ifs at removal with closed
    cases removal
    subst closed
    exact remove_isOk_iff (find_put (mem_of_find found))
  | ok item =>
    rw [processRead_of_reply found read]
    simp only [readRemoval, read] at removal
    split_ifs at removal with removed
    cases removal
    have queued : ((s.put a { c with cookie := cookie }).put a
        ({ c with cookie := cookie }.receive item)).find a =
        .ok ({ c with cookie := cookie }.receive item) := find_put (present _)
    have updated := update_eq queued v.interest
    have there := find_update queued updated
    rw [if_neg removed.1, updated]
    exact (processWrite_isOk_iff there removed.2).trans Poll.removes_update

end Read

end Confinement

/-! ## The loop of `run` -/

section Visits

variable {env : Env ρ κ ι} {s s' : Scheduler ρ κ} {a : Address} {c : Channel ρ κ}
  {result : CtlResult} {e : Event × Visit ι}

/-- Setting a channel to edge triggered leaves the rest as it is. -/
theorem arm_eq (found : s.find a = .ok c) (result : CtlResult) :
    ∃ s', s.arm a c result = .ok s' ∧ Frame a s s' ∧ s'.find a = .ok c.armed ∧
      ∀ result', s'.poll.Removes a result' ↔ s.poll.Removes a result' := by
  simp only [arm, Channel.armed]
  split_ifs with level
  · have there := find_put (c := { c with flags := c.flags ||| edgeTriggered }) (mem_of_find found)
    refine ⟨_, update_eq there result, ?_, there, fun _ => Poll.removes_update⟩
    exact .trans .put (.of_same rfl (Poll.watchedPtrs_update _ _ _ _))
  · exact ⟨s, rfl, .refl a s, found, fun _ => Iff.rfl⟩

/-- A pass once its channel is found and armed. -/
theorem visit_eq {s₁ : Scheduler ρ κ} (found : s.find e.1.context = .ok c)
    (arm : s.arm e.1.context c e.2.arm = .ok s₁) :
    s.visit env e =
      if c.acceptor then s₁.addNewConnections env e.2.accepts
      else if e.1.canTerminate then s₁.remove e.1.context e.2.closing
      else (if e.1.canRead then s₁.processRead env e.1.context e.2 else pure s₁) >>=
        fun s => s.flush env e := by
  simp only [visit, found, arm, bind, Except.bind]
  split_ifs <;> rfl

theorem frame_add (a x : Address) (c : Channel ρ κ) (result second : CtlResult) :
    Frame a s (s.add x c result second) where
  others y mem _ := by
    simp only [add, addresses, List.map_append]
    exact List.mem_append_left _ mem
  registered reg y mem := by
    simp only [add, addresses, List.map_append, List.mem_append, List.map_singleton,
      List.mem_singleton]
    rcases Poll.watchedPtrs_schedule mem with old | new
    · exact .inl (reg y old)
    · exact .inr new

theorem keeps_addNewConnections (present : a ∈ s.addresses) (accepts : List Accept) :
    Keeps a s (s.addNewConnections env accepts) True := by
  induction accepts generalizing s with
  | nil => exact .ok (.refl a s) present
  | cons accept accepts ih =>
    rw [addNewConnections]
    split
    -- A new channel is somewhere else, so the acceptor is still there.
    · refine (ih ?_).of_frame (frame_add a _ _ _ _)
      simp only [add, addresses, List.map_append]
      exact List.mem_append_left _ present
    · exact .stopped (by simp)

/-- The event has its channel read and then written to, and the read removes it. -/
def Lost (env : Env ρ κ ι) (s : Scheduler ρ κ) (e : Event × Visit ι) : Prop :=
  ∃ c result, s.find e.1.context = .ok c ∧ c.acceptor = false ∧ e.1.canTerminate = false ∧
    e.1.canRead = true ∧ e.1.canWrite = true ∧
    readRemoval env c.armed e.2 = some result ∧ s.poll.Removes e.1.context result

theorem visit_of_lost (lost : Lost env s e) :
    s.visit env e = .error (.useAfterRemove e.1.context) := by
  obtain ⟨c, result, found, connection, alive, readable, writable, removal, removes⟩ := lost
  obtain ⟨s₁, arm, -, there, same⟩ := arm_eq found e.2.arm
  obtain ⟨s₂, read⟩ := (processRead_isOk_iff there removal).mpr ((same result).mpr removes)
  -- The read comes back without the channel, and the write looks it up again.
  have gone : e.1.context ∉ s₂.addresses := by
    rw [(keeps_processRead there e.2).stays s₂ read, removal]
    simp
  rw [visit_eq found arm]
  simp only [connection, alive, readable, writable, read, bind, Except.bind, if_true,
    Bool.false_eq_true, if_false, flush, processWrite, find_of_not_mem gone]

/-- Otherwise the event uses its channel while it is there. -/
theorem visit_confined (found : s.find e.1.context = .ok c) (kept : ¬ Lost env s e) :
    Confined e.1.context s (s.visit env e) := by
  obtain ⟨s₁, arm, frame, there, same⟩ := arm_eq found e.2.arm
  have present := mem_of_find there
  have flush_confined {s : Scheduler ρ κ} (present : e.1.context ∈ s.addresses) :
      Confined e.1.context s (s.flush env e) := by
    obtain ⟨c, found⟩ := mem_addresses.mp present
    simp only [flush]
    split_ifs
    · exact (keeps_processWrite found e.2.flush).toConfined
    · exact .ok (.refl _ s)
  rw [visit_eq found arm]
  split_ifs with acceptor terminates readable
  · exact (keeps_addNewConnections present _).toConfined.of_frame frame
  · exact (keeps_remove present).toConfined.of_frame frame
  · -- a read that removes the channel leaves nothing to flush
    have read : Keeps e.1.context s₁ (s₁.processRead env e.1.context e.2)
        (readRemoval env c.armed e.2 = none) := keeps_processRead there e.2
    refine (read.toConfined.bind fun s₂ returned => ?_).of_frame frame
    cases removal : readRemoval env c.armed e.2 with
    | none => exact flush_confined ((read.stays s₂ returned).mpr removal)
    | some result =>
      have removes := (same result).mp ((processRead_isOk_iff there removal).mp ⟨s₂, returned⟩)
      have quiet : ¬ e.1.canWrite = true := by
        intro writable
        exact kept ⟨c, result, found, by simpa using acceptor, by simpa using terminates,
          readable, writable, removal, removes⟩
      rw [flush, if_neg quiet]
      exact .ok (.refl _ s₂)
  · exact (flush_confined present).of_frame frame

theorem visit_frame (present : e.1.context ∈ s.addresses) (returned : s.visit env e = .ok s') :
    Frame e.1.context s s' := by
  obtain ⟨c, found⟩ := mem_addresses.mp present
  by_cases lost : Lost env s e
  · rw [visit_of_lost lost] at returned
    cases returned
  · exact (visit_confined found lost).frame s' returned

/-- The events come one for each channel, and an event makes no channel go but its own. -/
theorem visits_safe_iff {events : List (Event × Visit ι)}
    (once : (events.map fun e => e.1.context).Nodup)
    (present : ∀ e ∈ events, e.1.context ∈ s.addresses) :
    (∀ b, Machine.run (visitStep env) s events ≠ .error (.useAfterRemove b)) ↔
      Machine.Along (visitStep env) (fun s e => ¬ Lost env s e) s events := by
  induction events generalizing s with
  | nil => simp [Machine.Along]
  | cons e events ih =>
    rw [List.map_cons, List.nodup_cons] at once
    have here := present e List.mem_cons_self
    obtain ⟨c, found⟩ := mem_addresses.mp here
    simp only [Machine.Along]
    by_cases lost : Lost env s e
    · have step : visitStep env s e = .error (.useAfterRemove e.1.context) := by
        rw [visitStep, visit_of_lost lost]
        rfl
      simp [Machine.run_cons_of_error step, lost]
    · have confined := visit_confined found lost
      simp only [lost, not_false_eq_true, true_and]
      cases returned : s.visit env e with
      | error stop =>
        have step : visitStep env s e = .error stop := by
          rw [visitStep, returned]
          rfl
        have other := confined.safe
        rw [returned] at other
        simp [Machine.run_cons_of_error step, step] at other ⊢
        exact other
      | ok s' =>
        have step : visitStep env s e = .ok ((), s') := by
          rw [visitStep, returned]
          rfl
        -- The later events are for other channels, which this pass has left alone.
        have later : ∀ e' ∈ events, e'.1.context ∈ s'.addresses := by
          intro e' mem
          apply (confined.frame s' returned).others _ (present e' (List.mem_cons_of_mem e mem))
          intro same
          exact once.1 (same ▸ List.mem_map_of_mem mem)
        rw [Machine.run_cons_of_ok step]
        simp only [step, Except.ok.injEq, Prod.mk.injEq, true_and, forall_eq', forall_const]
        rw [← ih once.2 later]
        cases Machine.run (visitStep env) s' events <;> simp [Except.map]

/-- The kernel still watches no channel that is not there. -/
theorem visits_registered {events : List (Event × Visit ι)} {os : List Unit}
    (once : (events.map fun e => e.1.context).Nodup)
    (present : ∀ e ∈ events, e.1.context ∈ s.addresses) (registered : s.Registered)
    (h : Machine.run (visitStep env) s events = .ok (os, s')) : s'.Registered := by
  induction events generalizing s os with
  | nil =>
    simp only [Machine.run_nil, Except.ok.injEq, Prod.mk.injEq] at h
    exact h.2 ▸ registered
  | cons e events ih =>
    rw [List.map_cons, List.nodup_cons] at once
    obtain ⟨_, s₁, os', step, rest, -⟩ := Machine.run_cons_eq_ok.mp h
    obtain ⟨s₂, returned, same⟩ := Machine.exists_ok_of_map step
    simp only [Prod.mk.injEq, true_and] at same
    subst same
    have frame := visit_frame (present e List.mem_cons_self) returned
    -- Use IH from the state after this pass.
    refine ih once.2 (fun e' mem => ?_) (frame.registered registered) rest
    apply frame.others _ (present e' (List.mem_cons_of_mem e mem))
    intro same
    exact once.1 (same ▸ List.mem_map_of_mem mem)

end Visits

/-! ## Whole runs -/

section Runs

variable {env : Env ρ κ ι} {s s' : Scheduler ρ κ}

/-- The events of a report are for channels that are there. -/
theorem awaited_present (registered : s.Registered) (report : Report ι) :
    ∀ e ∈ s.awaited report, e.1.context ∈ s.addresses := by
  intro e mem
  exact registered _ (report.registered _ e mem)

theorem awaited_eq_nil (registered : s.Registered) (none : s.channels = [])
    (report : Report ι) : s.awaited report = [] := by
  rw [List.eq_nil_iff_forall_not_mem]
  intro e mem
  have there := awaited_present registered report e mem
  simp [addresses, none] at there

/-- No event of the report has its channel used after it was removed. -/
def Kept (env : Env ρ κ ι) (s : Scheduler ρ κ) (report : Option (Report ι)) : Prop :=
  ∀ r ∈ report, Machine.Along (visitStep env) (fun s e => ¬ Lost env s e) s (s.awaited r)

theorem iterate_safe_iff (registered : s.Registered) (report : Option (Report ι)) :
    (∀ b, s.iterate env report ≠ .error (.useAfterRemove b)) ↔ Kept env s report := by
  unfold iterate
  cases report with
  | none =>
    -- `await` has thrown
    simp only [Kept, Option.not_mem_none, false_implies, implies_true, iff_true]
    intro b
    split_ifs <;> simp
  | some report =>
    simp only [Kept, Option.mem_def, Option.some.injEq, forall_eq']
    split_ifs with none
    · -- without channels nothing is watched, so there are no events
      rw [awaited_eq_nil registered none]
      simp [Machine.Along]
    · have once : ((s.awaited report).map fun e => e.1.context).Nodup := report.once _
      rw [← visits_safe_iff once (awaited_present registered report)]
      cases Machine.run (visitStep env) s (s.awaited report) <;> simp [Except.map]

theorem iterate_registered {report : Option (Report ι)} {o : Unit} (registered : s.Registered)
    (h : s.iterate env report = .ok (o, s')) : s'.Registered := by
  unfold iterate at h
  split_ifs at h
  · simp only [Except.ok.injEq, Prod.mk.injEq] at h
    exact h.2 ▸ registered
  · cases report with
    | none => cases h
    | some report =>
      obtain ⟨⟨os, t⟩, visits, done⟩ := Machine.exists_ok_of_map h
      simp only [Prod.mk.injEq] at done
      rw [← done.2]
      exact visits_registered (report.once _) (awaited_present registered report) registered visits

theorem start_registered (env : Env ρ κ ι) (a : Address) (result second : CtlResult) :
    (start env a result second).Registered := by
  apply (frame_add (s := (⟨[], .empty⟩ : Scheduler ρ κ)) a a _ result second).registered
  intro x mem
  cases mem

end Runs

/-- Over every run of the scheduler no removed channel is used, iff no event that reports
a channel readable and writable has its read remove the channel. -/
theorem no_use_after_remove_iff (env : Env ρ κ ι) (a : Address) (result second : CtlResult)
    (reports : List (Option (Report ι))) :
    (∀ b, Machine.run (iterate env) (start env a result second) reports ≠
        .error (.useAfterRemove b)) ↔
      Machine.Along (iterate env) (Kept env) (start env a result second) reports := by
  have stops {r : Except Stop (List Unit × Scheduler ρ κ)} :
      (∀ b, r ≠ .error (.useAfterRemove b)) ↔
        ∀ stop, r = .error stop → ∀ b, stop ≠ .useAfterRemove b := by
    constructor
    · intro safe stop h b used
      exact safe b (used ▸ h)
    · intro safe b h
      exact safe _ h b rfl
  rw [stops]
  -- `Registered` is the invariant of the run; each call of `run` is settled by the lemma above.
  apply Machine.run_errors_iff_along _ _ (start_registered env a result second)
  · intro s report o s' registered h
    exact iterate_registered registered h
  · intro s report registered
    rw [← iterate_safe_iff registered report]
    constructor
    · intro safe b h
      exact safe _ h b rfl
    · intro safe stop h b used
      exact safe b (used ▸ h)

/-- A connection is accepted and gets a reply of which the socket takes nothing, so that
the channel asks for writing as well; then it is reported readable and writable when its
peer has closed it: `process_read` removes the channel and `process_write` gets its
pointer. -/
theorem closed_connection_written_to :
    ¬ ∀ (env : Env Unit Unit Bool) (reports : List (Option (Report Bool))) (b : Address),
      Machine.run (iterate env) (start env 0 .ok .ok) reports ≠ .error (.useAfterRemove b) := by
  intro all
  let env : Env Unit Unit Bool :=
    { files := fun _ => []
      page := ⟨12⟩
      onBarrier := fun _ => []
      onRead := fun closed c =>
        (c, if closed then .error (.thrown .connectionClosedByPeer) else .ok (.ofData [1] true))
      onRemove := id
      null := () }
  let accept : Accept :=
    { place := fun addresses => addresses.sum + 1
      fresh := fun addresses mem => Nat.not_succ_le_self _ (List.le_sum_of_mem mem)
      nonBlocking := true
      result := .ok
      second := .ok }
  -- The new channel gets the address 1, next to the acceptor at 0.
  let full : List Turn := [⟨false, [.failed .eagain], .failed .eagain, false⟩]
  let meets (closed : Bool) (accepts : List Accept) : Visit Bool :=
    ⟨.ok, closed, .ok, (full, .ok), ([], .ok), .ok, accepts⟩
  have used : (Machine.run (iterate env) (start env 0 .ok .ok)
      [some (.ofEvent (⟨0, Epoll.read⟩, meets false [accept])),
        some (.ofEvent (⟨1, Epoll.read⟩, meets false [])),
        some (.ofEvent (⟨1, Epoll.read ||| Epoll.write⟩, meets true []))]).map
        (fun _ => ()) = .error (.useAfterRemove 1) := by
    decide +kernel
  exact all env _ 1 (Machine.eq_error_of_map used)

end Scheduler

end Viking.Io
