/-
# The wrapper of epoll

`Poll` is the `epoll` object, with its own list of registrations, together with what
the kernel watches. The two are changed by the same calls but need not agree: the
outcome of each `epoll_ctl` is an input, and the source ignores most failures.

A channel is known to both by its address.
-/

import Viking.Misc.StringUtil

namespace Viking.Io

/-- The address of a channel. -/
abbrev Address := Nat

namespace Epoll

/-! ## Event bits -/

/-- `EPOLLIN` -/
def read : UInt32 := 0x1

/-- `EPOLLOUT` -/
def write : UInt32 := 0x4

/-- `EPOLLERR` -/
def error : UInt32 := 0x8

/-- `EPOLLRDHUP` -/
def termination : UInt32 := 0x2000

/-- `EPOLLET` -/
def edgeTriggered : UInt32 := 0x80000000

/-- An event that `await` reports for a channel. -/
structure Event where
  context : Address
  description : UInt32
  deriving DecidableEq, Repr

def Event.canWrite (event : Event) : Bool := event.description &&& write ≠ 0

def Event.canRead (event : Event) : Bool := event.description &&& read ≠ 0

def Event.canTerminate (event : Event) : Bool :=
  event.description &&& termination ≠ 0 || event.description &&& error ≠ 0

/-! ## Registrations -/

/-- An `epoll_event`: the pointer in its `data` and the bits asked for. -/
structure Registration where
  ptr : Address
  events : UInt32
  deriving DecidableEq, Repr

/-- `data.fd` shares its storage with `data.ptr`. -/
def Registration.fd (r : Registration) : Nat := r.ptr % 2 ^ 32

/-- The outcome of one `epoll_ctl`. -/
inductive CtlResult
  | ok
  | eexist
  | failed
  deriving DecidableEq, Repr

end Epoll

open Epoll

/-- The `epoll` object (`events`, in the source `events_`) and what the kernel watches. -/
structure Poll where
  events : List Registration
  watched : List Registration
  deriving DecidableEq, Repr

namespace Poll

def empty : Poll := ⟨[], []⟩

/-- The bits of the registration at `ptr` are replaced. -/
def setEvents (ptr : Address) (flags : UInt32) (registrations : List Registration) :
    List Registration :=
  registrations.map fun r => if r.ptr = ptr then { r with events := flags } else r

def findEvent (poll : Poll) (ptr : Address) : Option Registration :=
  poll.events.find? fun r => r.ptr = ptr

/-- `update`: only a channel that `events` knows is passed on to the kernel. -/
def update (poll : Poll) (ptr : Address) (flags : UInt32) (result : CtlResult) : Poll :=
  match poll.findEvent ptr with
  | none => poll
  | some _ =>
    { events := setEvents ptr flags poll.events
      watched := if result = .ok then setEvents ptr flags poll.watched else poll.watched }

/-- `schedule`; `second` is the outcome of the update that a registration which exists
already leads to. -/
def schedule (poll : Poll) (ptr : Address) (flags : UInt32) (result second : CtlResult) : Poll :=
  match result with
  | .ok =>
    { events := poll.events ++ [⟨ptr, flags⟩], watched := poll.watched ++ [⟨ptr, flags⟩] }
  | .eexist => poll.update ptr flags second
  -- the failure is not reported, and the channel is added to the scheduler all the same
  | .failed => poll

/-- The `remove_if` of `remove`, over `rest` with the records kept so far in `kept`. The
predicate reads the record at `position` each time, which is `found` only until the
algorithm has moved another one there. -/
def sweep (position : Nat) (found : Registration) :
    List Registration → List Registration → List Registration
  | kept, [] => kept
  | kept, r :: rest =>
    -- the low half of the address is compared, not the address
    if r.fd = (kept[position]?.getD found).fd then sweep position found kept rest
    else sweep position found (kept ++ [r]) rest

/-- `remove`; an error of `EPOLL_CTL_DEL` is thrown before anything is erased. -/
def remove (poll : Poll) (ptr : Address) (result : CtlResult) : Except Fault Poll :=
  match poll.findEvent ptr with
  | none => .ok poll
  | some found =>
    if result = .ok then
      .ok { events := sweep (poll.events.findIdx fun r => r.ptr = ptr) found [] poll.events
            watched := poll.watched.filter fun r => r.ptr ≠ ptr }
    else .error (.thrown .pollError)

/-- The kernel forgets a socket that is closed. -/
def forget (poll : Poll) (ptr : Address) : Poll :=
  { poll with watched := poll.watched.filter fun r => r.ptr ≠ ptr }

/-! ## What the kernel watches after a call -/

/-- The addresses the kernel reports events for. -/
def watchedPtrs (poll : Poll) : List Address := poll.watched.map Registration.ptr

theorem map_ptr_setEvents (ptr : Address) (flags : UInt32) (registrations : List Registration) :
    (setEvents ptr flags registrations).map Registration.ptr =
      registrations.map Registration.ptr := by
  induction registrations with
  | nil => rfl
  | cons r rest ih =>
    simp only [setEvents, List.map_cons, List.cons.injEq] at ih ⊢
    refine ⟨?_, ih⟩
    split <;> rfl

@[simp] theorem watchedPtrs_update (poll : Poll) (ptr : Address) (flags : UInt32)
    (result : CtlResult) : (poll.update ptr flags result).watchedPtrs = poll.watchedPtrs := by
  simp only [update, watchedPtrs]
  split
  · rfl
  · split
    · exact map_ptr_setEvents ptr flags poll.watched
    · rfl

theorem watchedPtrs_schedule {poll : Poll} {ptr : Address} {flags : UInt32}
    {result second : CtlResult} {a : Address}
    (h : a ∈ (poll.schedule ptr flags result second).watchedPtrs) :
    a ∈ poll.watchedPtrs ∨ a = ptr := by
  cases result with
  -- Only a call that succeeds adds an address, its own.
  | ok => simpa [schedule, watchedPtrs] using h
  | eexist => exact .inl (watchedPtrs_update poll ptr flags second ▸ h)
  | failed => exact .inl h

theorem mem_watchedPtrs_forget {poll : Poll} {ptr a : Address} :
    a ∈ (poll.forget ptr).watchedPtrs ↔ a ∈ poll.watchedPtrs ∧ a ≠ ptr := by
  simp only [forget, watchedPtrs, List.mem_map, List.mem_filter, decide_eq_true_eq]
  constructor
  · rintro ⟨r, ⟨mem, ne⟩, rfl⟩
    exact ⟨⟨r, mem, rfl⟩, ne⟩
  · rintro ⟨⟨r, mem, rfl⟩, ne⟩
    exact ⟨r, ⟨mem, ne⟩, rfl⟩

/-- Whether `remove` returns. -/
def Removes (poll : Poll) (ptr : Address) (result : CtlResult) : Prop :=
  poll.findEvent ptr = none ∨ result = .ok

theorem remove_isOk_iff {poll : Poll} {ptr : Address} {result : CtlResult} :
    (∃ poll', poll.remove ptr result = .ok poll') ↔ poll.Removes ptr result := by
  simp only [remove, Removes]
  cases poll.findEvent ptr with
  | none => simp
  | some found => by_cases h : result = .ok <;> simp [h]

/-- An update replaces bits and keeps what there is. -/
theorem findEvent_update {poll : Poll} {ptr ptr' : Address} {flags : UInt32}
    {result : CtlResult} :
    (poll.update ptr' flags result).findEvent ptr = none ↔ poll.findEvent ptr = none := by
  simp only [update]
  split
  · rfl
  · simp only [findEvent, setEvents, List.find?_eq_none, List.mem_map, forall_exists_index,
      and_imp, forall_apply_eq_imp_iff₂]
    refine forall₂_congr fun r _ => ?_
    split <;> rfl

theorem removes_update {poll : Poll} {ptr ptr' : Address} {flags : UInt32}
    {result result' : CtlResult} :
    (poll.update ptr' flags result).Removes ptr result' ↔ poll.Removes ptr result' := by
  rw [Removes, Removes, findEvent_update]

theorem watchedPtrs_remove {poll poll' : Poll} {ptr : Address} {result : CtlResult}
    (h : poll.remove ptr result = .ok poll') {a : Address} (ha : a ∈ poll'.watchedPtrs) :
    a ∈ poll.watchedPtrs := by
  simp only [remove] at h
  split at h
  · simp only [Except.ok.injEq] at h
    exact h ▸ ha
  · split_ifs at h
    -- `remove` has returned, so `EPOLL_CTL_DEL` went well and the address is gone.
    simp only [Except.ok.injEq] at h
    subst h
    exact (mem_watchedPtrs_forget.mp ha).1

end Poll

end Viking.Io
