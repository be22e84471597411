/-
# Registering a channel

`add` hands a channel to the poll and keeps it. The poll does not say when the kernel refuses
the channel, so it is kept without a record and no event comes for it:
`all_or_nothing_iff`. The states this is about are those whose records are all of channels
that are there, and `known_run` says that a scheduler is never in another one.
-/

import Viking.Io.Records
import Viking.Io.Scheduler

namespace Viking.Io

open Epoll

variable {ρ κ ι : Type}

/-! ## What an operation of the poll does to its records -/

namespace Poll

variable {poll poll' : Poll} {a : Address} {flags : UInt32} {result second : CtlResult}

/-- The addresses of the records. -/
def recordedPtrs (poll : Poll) : List Address := poll.events.map Registration.ptr

theorem recordedPtrs_update (poll : Poll) (a : Address) (flags : UInt32) (result : CtlResult) :
    (poll.update a flags result).recordedPtrs = poll.recordedPtrs := by
  simp only [update, recordedPtrs]
  split
  · rfl
  · exact map_ptr_setEvents a flags poll.events

theorem recordedPtrs_schedule {x : Address}
    (mem : x ∈ (poll.schedule a flags result second).recordedPtrs) :
    x ∈ poll.recordedPtrs ∨ x = a := by
  cases result with
  | ok => simpa [schedule, recordedPtrs] using mem
  | eexist => exact .inl (recordedPtrs_update poll a flags second ▸ mem)
  | failed => exact .inl mem

/-- What is left are other records, if no two were at one address. -/
theorem recordedPtrs_remove (apart : poll.recordedPtrs.Nodup)
    (removed : poll.remove a result = .ok poll') :
    List.Sublist poll'.recordedPtrs poll.recordedPtrs ∧ a ∉ poll'.recordedPtrs := by
  rw [remove] at removed
  cases known : poll.findEvent a with
  | none =>
    simp only [known, Except.ok.injEq] at removed
    subst removed
    exact ⟨List.Sublist.refl _, findEvent_eq_none.mp known⟩
  | some found =>
    simp only [known] at removed
    split_ifs at removed
    cases removed
    have left := (sweep_sublist_filter apart known).map Registration.ptr
    refine ⟨left.trans (List.filter_sublist.map _), fun mem => ?_⟩
    obtain ⟨r, other, is⟩ := List.mem_map.mp (left.subset mem)
    exact absurd is (by simpa using (List.mem_filter.mp other).2)

end Poll

namespace Scheduler

variable {env : Env ρ κ ι} {s s' : Scheduler ρ κ} {a : Address} {c : Channel ρ κ}

/-! ## The records are of channels that are there -/

/-- No channel has two records, and there is none of a channel that is not there. -/
structure Known (s : Scheduler ρ κ) : Prop where
  once : s.poll.recordedPtrs.Nodup
  recorded : ∀ x ∈ s.poll.recordedPtrs, x ∈ s.addresses
  registered : s.Registered

theorem Known.congr (h : s.Known) (addresses : s'.addresses = s.addresses)
    (recorded : s'.poll.recordedPtrs = s.poll.recordedPtrs)
    (watched : s'.poll.watchedPtrs = s.poll.watchedPtrs) : s'.Known where
  once := recorded ▸ h.once
  recorded x mem := by
    rw [addresses]
    exact h.recorded x (recorded ▸ mem)
  registered x mem := by
    rw [addresses]
    exact h.registered x (watched ▸ mem)

theorem Known.put (h : s.Known) (a : Address) (c : Channel ρ κ) : (s.put a c).Known :=
  h.congr addresses_put rfl rfl

theorem Known.update (h : s.Known) (a : Address) (result : CtlResult) :
    Machine.Ensures Known (s.update a result) := by
  intro s' updated
  obtain ⟨c, -, rest⟩ := Machine.bind_eq_ok.mp updated
  cases rest
  exact h.congr rfl (Poll.recordedPtrs_update _ _ _ _) (Poll.watchedPtrs_update _ _ _ _)

theorem Known.remove (h : s.Known) (a : Address) (result : CtlResult) :
    Machine.Ensures Known (s.remove a result) := by
  intro s' removed
  obtain ⟨c, found⟩ : ∃ c, s.find a = .ok c := by
    obtain ⟨c, found, -⟩ := Machine.bind_eq_ok.mp removed
    exact ⟨c, found⟩
  cases erased : s.poll.remove a result with
  | error fault => simp [remove_eq_terminated found erased] at removed
  | ok poll =>
    have frame := ((keeps_remove (mem_of_find found)).frame s' removed)
    rw [remove_eq found erased] at removed
    cases removed
    obtain ⟨left, gone⟩ := Poll.recordedPtrs_remove h.once erased
    refine ⟨h.once.sublist left, fun x mem => ?_, frame.registered h.registered⟩
    exact frame.others x (h.recorded x (left.subset mem)) fun same => gone (same ▸ mem)

/-- A new channel is at an address where nothing is. -/
theorem Known.add (h : s.Known) (fresh : a ∉ s.addresses) (c : Channel ρ κ)
    (result second : CtlResult) : (s.add a c result second).Known where
  once := by
    cases result with
    | ok =>
      have absent : a ∉ s.poll.recordedPtrs := fun mem => fresh (h.recorded a mem)
      have same : (s.add a c .ok second).poll.recordedPtrs = s.poll.recordedPtrs.concat a := by
        simp [Scheduler.add, Poll.schedule, Poll.recordedPtrs]
      exact same ▸ h.once.concat absent
    | eexist =>
      have same := Poll.recordedPtrs_update s.poll a c.flags second
      exact (congrArg List.Nodup same).mpr h.once
    | failed => exact h.once
  recorded x mem := by
    simp only [Scheduler.add, addresses, List.map_append, List.mem_append, List.map_singleton,
      List.mem_singleton]
    exact (Poll.recordedPtrs_schedule mem).imp_left (h.recorded x)
  registered := (frame_add a a c result second).registered h.registered

theorem Known.addNewConnections (h : s.Known) (accepts : List Accept) :
    Machine.Ensures Known (s.addNewConnections env accepts) := by
  induction accepts generalizing s with
  | nil => exact .ok h
  | cons accept accepts ih =>
    rw [Scheduler.addNewConnections]
    split_ifs
    · exact ih (h.add (accept.fresh _) _ _ _)
    · exact .error _

theorem Known.processWrite (h : s.Known) (a : Address) (outcomes : List Turn × CtlResult) :
    Machine.Ensures Known (s.processWrite env a outcomes) := by
  unfold Scheduler.processWrite
  refine Machine.Ensures.bind (Q := fun _ => True) (fun _ _ => trivial) fun c _ => ?_
  dsimp only
  cases (Io.processWrite env outcomes.1 c).next with
  | again => exact .error _
  | leave => exact (h.put a _).update a outcomes.2
  | remove => exact (h.put a _).remove a outcomes.2

theorem Known.readFailed (h : s.Known) (a : Address) (v : Visit ι) (fault : Fault) :
    Machine.Ensures Known (s.readFailed a v fault) := by
  cases fault with
  | thrown exception =>
    cases exception with
    | connectionClosedByPeer => exact h.remove a v.closing
    | _ => exact .error _
  | terminated | undefined => exact .error _

theorem Known.processRead (h : s.Known) (a : Address) (v : Visit ι) :
    Machine.Ensures Known (s.processRead env a v) := by
  unfold Scheduler.processRead
  refine Machine.Ensures.bind (Q := fun _ => True) (fun _ _ => trivial) fun c _ => ?_
  rcases env.onRead v.input c.cookie with ⟨cookie, response⟩
  dsimp only
  have read := h.put a { c with cookie := cookie }
  cases response with
  | error fault => exact read.readFailed a v fault
  | ok item =>
    dsimp only
    split_ifs
    · exact .ok read
    · exact ((read.put a _).update a v.interest).bind fun s known =>
        known.processWrite a v.answer

theorem Known.arm (h : s.Known) (a : Address) (c : Channel ρ κ) (result : CtlResult) :
    Machine.Ensures Known (s.arm a c result) := by
  unfold Scheduler.arm
  split_ifs
  · exact (h.put a c.armed).update a result
  · exact .ok h

theorem Known.flush (h : s.Known) (e : Event × Visit ι) :
    Machine.Ensures Known (s.flush env e) := by
  unfold Scheduler.flush
  split_ifs
  · exact h.processWrite _ _
  · exact .ok h

theorem Known.visit (h : s.Known) (e : Event × Visit ι) :
    Machine.Ensures Known (s.visit env e) := by
  unfold Scheduler.visit
  refine Machine.Ensures.bind (Q := fun _ => True) (fun _ _ => trivial) fun c _ => ?_
  refine (h.arm _ c _).bind fun s known => ?_
  split_ifs
  · exact known.addNewConnections _
  · exact known.remove _ _
  · exact (known.processRead _ _).bind fun s known => known.flush e
  · exact known.flush e

theorem Known.iterate (h : s.Known) (report : Option (Report ι)) :
    Machine.Ensures (fun r => r.2.Known) (s.iterate env report) := by
  unfold Scheduler.iterate
  split_ifs
  · exact .ok h
  · cases report with
    | none => exact .error _
    | some report =>
      have visits : Machine.Ensures (fun r => r.2.Known)
          (Machine.run (visitStep env) s (s.awaited report)) := by
        refine Machine.run_ensures (P := fun _ _ => True) (fun s e known _ => ?_) h
          (Machine.along_of_forall fun _ _ => trivial)
        rintro ⟨o, after⟩ returned
        obtain ⟨_, visited, same⟩ := Machine.exists_ok_of_map returned
        cases same
        exact known.visit e after visited
      rintro ⟨o, after⟩ returned
      obtain ⟨⟨os, _⟩, visited, same⟩ := Machine.exists_ok_of_map returned
      cases same
      exact visits (os, after) visited

theorem known_empty : (⟨[], .empty⟩ : Scheduler ρ κ).Known where
  once := List.nodup_nil
  recorded x mem := by cases mem
  registered x mem := by cases mem

/-- Whatever is reported, a scheduler that was started has no record but of channels that are
there. -/
theorem known_run (env : Env ρ κ ι) (a : Address) (result second : CtlResult)
    (reports : List (Option (Report ι))) :
    Machine.Ensures (fun r => r.2.Known)
      (Machine.run (iterate env) (start env a result second) reports) := by
  refine Machine.run_ensures (P := fun _ _ => True) (fun s report known _ => ?_)
    (known_empty.add (by simp [addresses]) _ _ _) (Machine.along_of_forall fun _ _ => trivial)
  exact known.iterate report

/-! ## One call of `add` -/

/-- The channel is kept, with one record and watched by the kernel, both with its flags. -/
structure Holds (s : Scheduler ρ κ) (a : Address) (c : Channel ρ κ) : Prop where
  kept : (a, c) ∈ s.channels
  recorded : s.poll.events.filter (fun r => r.ptr = a) = [⟨a, c.flags⟩]
  watched : s.poll.watched.filter (fun r => r.ptr = a) = [⟨a, c.flags⟩]

/-- `add` as its caller sees it. `schedule` reports no failure, so there is nothing for the
handler of `poll_error` to throw again. -/
def addCall (s : Scheduler ρ κ) (a : Address) (c : Channel ρ κ) (result second : CtlResult) :
    Except Fault Unit × Scheduler ρ κ :=
  (.ok (), s.add a c result second)

/-- A call that has added the channel, or has thrown and left channels and records alone. -/
def AllOrNothing (s : Scheduler ρ κ) (a : Address) (c : Channel ρ κ)
    (call : Except Fault Unit × Scheduler ρ κ) : Prop :=
  call.1 = .ok () ∧ call.2.Holds a c ∨
    call.1 = .error (.thrown .pollError) ∧ call.2.channels = s.channels ∧
      call.2.poll.events = s.poll.events

theorem filter_ptr_of_absent {rs : List Registration}
    (absent : a ∉ rs.map Registration.ptr) : rs.filter (fun r => r.ptr = a) = [] := by
  rw [List.filter_eq_nil_iff]
  intro r mem
  have other : r.ptr ≠ a := fun same => absent (same ▸ List.mem_map_of_mem mem)
  simpa using other

theorem addCall_iff (known : s.Known) (fresh : a ∉ s.addresses) (c : Channel ρ κ)
    (result second : CtlResult) :
    s.AllOrNothing a c (s.addCall a c result second) ↔ result = .ok := by
  have events : s.poll.events.filter (fun r => r.ptr = a) = [] :=
    filter_ptr_of_absent fun mem => fresh (known.recorded a mem)
  have watched : s.poll.watched.filter (fun r => r.ptr = a) = [] :=
    filter_ptr_of_absent fun mem => fresh (known.registered a mem)
  simp only [AllOrNothing, addCall, true_and, reduceCtorEq, false_and, or_false]
  constructor
  · intro h
    -- No record is made unless the call succeeds, and an update finds none.
    cases result with
    | ok => rfl
    | eexist =>
      have unknown : s.poll.findEvent a = none :=
        Poll.findEvent_eq_none.mpr fun mem => fresh (known.recorded a mem)
      have same : (s.add a c .eexist second).poll = s.poll := by
        simp only [Scheduler.add, Poll.schedule, Poll.update, unknown]
      have recorded := h.recorded
      rw [same, events] at recorded
      cases recorded
    | failed =>
      have recorded : s.poll.events.filter (fun r => r.ptr = a) = [⟨a, c.flags⟩] := h.recorded
      rw [events] at recorded
      cases recorded
  · rintro rfl
    refine ⟨List.mem_append_right _ List.mem_cons_self, ?_, ?_⟩
    · exact (List.filter_append _ _).trans (by simp [events])
    · exact (List.filter_append _ _).trans (by simp [watched])

/-- A new channel is added, or nothing is, iff the kernel takes it at once. -/
theorem all_or_nothing_iff (s : Scheduler ρ κ) (known : s.Known) (accept : Accept)
    (c : Channel ρ κ) :
    s.AllOrNothing (accept.place s.addresses) c
        (s.addCall (accept.place s.addresses) c accept.result accept.second) ↔
      accept.result = .ok :=
  addCall_iff known (accept.fresh _) c _ _

/-- A connection is accepted where nothing is: at the sum of all addresses, and one more. -/
def acceptAbove (result : CtlResult) : Accept where
  place addresses := addresses.sum + 1
  fresh _ mem := Nat.not_succ_le_self _ (List.le_sum_of_mem mem)
  nonBlocking := true
  result := result
  second := .ok

/-- The listening socket of a server is at the address 1, and the first connection next to it. -/
theorem all_or_nothing_first :
    let s : Scheduler Unit Unit := (⟨[], .empty⟩ : Scheduler Unit Unit).add 1
      ⟨true, .empty false, read ||| termination, ()⟩ .ok .ok
    s.AllOrNothing 2 ⟨false, .empty false, read ||| termination, ()⟩
        (s.addCall 2 ⟨false, .empty false, read ||| termination, ()⟩ .ok .ok) ↔
      CtlResult.ok = .ok := by
  intro s
  have known : s.Known := known_empty.add (by simp [addresses]) _ _ _
  exact all_or_nothing_iff s known (acceptAbove .ok) _

/-- When `epoll_ctl` has no room for another registration, the connection is kept and never
heard of. -/
theorem connection_unheard :
    ¬ ∀ (s : Scheduler Unit Unit), s.Known → ∀ (accept : Accept) (c : Channel Unit Unit),
      s.AllOrNothing (accept.place s.addresses) c
        (s.addCall (accept.place s.addresses) c accept.result accept.second) := by
  intro all
  rcases all ⟨[], .empty⟩ known_empty (acceptAbove .failed)
    ⟨false, .empty false, read ||| termination, ()⟩ with ⟨-, holds⟩ | ⟨thrown, -⟩
  · exact absurd holds.recorded (by decide)
  · cases thrown

end Scheduler

end Viking.Io
