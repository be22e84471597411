/-
# The interest of channels

What the kernel watches for a channel is to follow what the channel waits for: reading always,
and writing as long as something is queued. `Attended` says so of a scheduler between the passes
of `run`, with both records of what is watched; a pass of `run` has a channel out of step only
between a change of its flags and the next `update`.
-/

import Viking.Io.Records
import Viking.Io.Trace

namespace Viking.Io

open Epoll

variable {ρ κ ι : Type}

/-! ## What a channel waits for -/

section Bits

variable {flags other bit : UInt32}

/-- Setting other bits. -/
theorem and_of_or (apart : other &&& bit = 0) : (flags ||| other) &&& bit = flags &&& bit := by
  apply UInt32.toBitVec_inj.mp
  have none : other.toBitVec &&& bit.toBitVec = 0 := UInt32.toBitVec_inj.mpr apart
  rw [UInt32.toBitVec_and, UInt32.toBitVec_or, BitVec.and_or_distrib_right, none]
  exact BitVec.or_zero

/-- Clearing other bits. -/
theorem and_of_clear (apart : ~~~other &&& bit = bit) :
    (flags &&& ~~~other) &&& bit = flags &&& bit := by
  rw [UInt32.and_assoc, apart]

theorem or_and_self : (flags ||| bit) &&& bit = bit := by
  apply UInt32.toBitVec_inj.mp
  simp only [UInt32.toBitVec_and, UInt32.toBitVec_or, BitVec.and_or_distrib_right,
    BitVec.and_self]
  ext i
  simp

end Bits

/-- A channel waits for bytes and for the end, and for room as long as something is queued. -/
structure Channel.Wants (c : Channel ρ κ) : Prop where
  reads : c.flags &&& Epoll.read ≠ 0
  terminates : c.flags &&& termination ≠ 0
  writes : c.flags &&& Epoll.write ≠ 0 ↔ c.queue.buffers ≠ []

namespace Channel.Wants

variable {env : Env ρ κ ι} {c : Channel ρ κ} {t : Turn}

/-- All that matters are the three bits and whether the queue is empty. -/
theorem congr {c' : Channel ρ κ} (h : c.Wants)
    (reads : c'.flags &&& Epoll.read = c.flags &&& Epoll.read)
    (terminates : c'.flags &&& termination = c.flags &&& termination)
    (writes : c'.flags &&& Epoll.write = c.flags &&& Epoll.write) (queue : c'.queue = c.queue) :
    c'.Wants where
  reads := reads ▸ h.reads
  terminates := terminates ▸ h.terminates
  writes := by rw [writes, queue, h.writes]

theorem new (cookie : κ) :
    (Channel.new (Epoll.read ||| termination) cookie : Channel ρ κ).Wants where
  reads := show (Epoll.read ||| termination) &&& Epoll.read ≠ 0 by decide
  terminates := show (Epoll.read ||| termination) &&& termination ≠ 0 by decide
  writes := by
    refine iff_of_false ?_ (not_not.mpr rfl)
    show ¬ (Epoll.read ||| termination) &&& Epoll.write ≠ 0
    decide

theorem settle (h : c.Wants) (filled : Bool) : (c.settle filled).Wants := by
  cases filled with
  | true =>
    exact h.congr (and_of_or (by decide)) (and_of_or (by decide)) (and_of_or (by decide)) rfl
  | false =>
    exact h.congr (and_of_clear (by decide)) (and_of_clear (by decide))
      (and_of_clear (by decide)) rfl

theorem armed (h : c.Wants) : c.armed.Wants := by
  unfold Channel.armed
  split_ifs
  · exact h.congr (and_of_or (by decide)) (and_of_or (by decide)) (and_of_or (by decide)) rfl
  · exact h

/-- Interest in writing comes with what is queued. -/
theorem receive (h : c.Wants) {item : ScheduleItem ρ} (nonempty : item.buffers ≠ []) :
    (c.receive item).Wants where
  reads := by
    show (c.flags ||| Epoll.write) &&& Epoll.read ≠ 0
    rw [and_of_or (by decide)]
    exact h.reads
  terminates := by
    show (c.flags ||| Epoll.write) &&& termination ≠ 0
    rw [and_of_or (by decide)]
    exact h.terminates
  writes := by
    have queued : (c.receive item).queue.buffers ≠ [] := by
      cases async : item.isFrontAsync with
      | false => simp [Channel.receive, Channel.enqueueItem, async, ScheduleItem.putBack, nonempty]
      | true =>
        -- what is inserted stays, wherever it is inserted
        simp only [Channel.receive, Channel.enqueueItem, async, ScheduleItem.putAfterFirstIntact]
        intro none
        have inserted : (Insertion.beforeFirst Buffer.intact item.buffers.reverse
          c.queue.buffers).Perm (item.buffers.reverse ++ c.queue.buffers) :=
            Insertion.beforeFirst_perm
        have moved := inserted.length_eq
        rw [show Insertion.beforeFirst Buffer.intact item.buffers.reverse c.queue.buffers = []
          from none] at moved
        have some := List.length_pos_iff.mpr nonempty
        simp only [List.length_nil, List.length_append, List.length_reverse] at moved
        omega
    refine iff_of_true ?_ queued
    show (c.flags ||| Epoll.write) &&& Epoll.write ≠ 0
    rw [or_and_self]
    decide

/-- What follows a filling: the interest in writing goes when the queue is empty. -/
theorem afterFill (reads : c.flags &&& Epoll.read ≠ 0) (terminates : c.flags &&& termination ≠ 0)
    (writes : c.flags &&& Epoll.write ≠ 0) {result : Option Bool}
    (stays : (c.afterFill env result).2.2 ≠ .remove) : (c.afterFill env result).1.Wants := by
  cases result with
  | none => exact absurd rfl stays
  | some filled =>
    simp only [Channel.afterFill] at stays ⊢
    split_ifs at stays ⊢ with empty keep full
    · -- the branch for an empty queue
      refine Wants.settle ⟨?_, ?_, ?_⟩ filled
      · show ((c.flags &&& ~~~Epoll.write) ||| Epoll.read) &&& Epoll.read ≠ 0
        rw [or_and_self]
        decide
      · show ((c.flags &&& ~~~Epoll.write) ||| Epoll.read) &&& termination ≠ 0
        rw [and_of_or (by decide), and_of_clear (by decide)]
        exact terminates
      · refine iff_of_false ?_ (not_not.mpr empty)
        show ¬ ((c.flags &&& ~~~Epoll.write) ||| Epoll.read) &&& Epoll.write ≠ 0
        rw [and_of_or (by decide), UInt32.and_assoc]
        simp
    · exact absurd rfl stays
    · exact Wants.settle ⟨reads, terminates, iff_of_true writes empty⟩ true
    · exact ⟨reads, terminates, iff_of_true writes empty⟩

theorem turn (h : c.Wants) (stays : (c.turn env t).next ≠ .remove) :
    (c.turn env t).channel.Wants := by
  rcases c.turn_cases env t with ⟨-, turn⟩ | ⟨a, rest, -, -, turn⟩ |
    ⟨front, rest, resolved, start, queue, -, turn⟩
  · rw [turn]
    exact h.settle false
  · rw [turn]
    exact h.settle false
  · -- something is queued when `fill_channel` is called
    rw [turn] at stays ⊢
    let left := (fillChannel env t start).front.toList ++ rest
    exact Wants.afterFill (c := { c with queue := { c.queue with buffers := left } }) h.reads
      h.terminates (h.writes.mpr (by simp [queue])) stays

theorem processWrite (h : c.Wants) (turns : List Turn)
    (stays : (Io.processWrite env turns c).next ≠ .remove) :
    (Io.processWrite env turns c).channel.Wants := by
  induction turns generalizing c with
  | nil =>
    simp only [Io.processWrite]
    split_ifs
    · exact h.settle false
    · exact h
  | cons t turns ih =>
    cases next : (c.turn env t).next with
    | again =>
      simp only [Io.processWrite, next] at stays ⊢
      exact ih (h.turn (by simp [next])) stays
    | leave =>
      simp only [Io.processWrite, next]
      exact h.turn (by simp [next])
    | remove => simp [Io.processWrite, next] at stays

end Channel.Wants

/-- Whether a channel is one that listens never changes. -/
theorem processWrite_acceptor (env : Env ρ κ ι) (turns : List Turn) (c : Channel ρ κ) :
    (Io.processWrite env turns c).channel.acceptor = c.acceptor := by
  have afterFill (c : Channel ρ κ) (result : Option Bool) :
      (c.afterFill env result).1.acceptor = c.acceptor := by
    cases result with
    | none => rfl
    | some filled =>
      simp only [Channel.afterFill]
      split_ifs <;> rfl
  have turn (c : Channel ρ κ) (t : Turn) : (c.turn env t).channel.acceptor = c.acceptor := by
    rcases c.turn_cases env t with ⟨-, turn⟩ | ⟨a, rest, -, -, turn⟩ |
      ⟨front, rest, resolved, start, -, -, turn⟩
    · rw [turn]
      rfl
    · rw [turn]
      rfl
    · rw [turn]
      exact afterFill _ _
  induction turns generalizing c with
  | nil =>
    simp only [Io.processWrite]
    split_ifs <;> rfl
  | cons t turns ih =>
    cases next : (c.turn env t).next with
    | again =>
      simp only [Io.processWrite, next]
      exact (ih _).trans (turn c t)
    | leave | remove =>
      simp only [Io.processWrite, next]
      exact turn c t

/-! ## The records and the channels -/

namespace Scheduler

variable {s s' : Scheduler ρ κ} {a x : Address} {c c' : Channel ρ κ}

/-- What the kernel is to watch. -/
def registrations (s : Scheduler ρ κ) : List Registration :=
  s.channels.map fun entry => ⟨entry.1, entry.2.flags⟩

/-- The addresses of the channels differ in their low halves. -/
def Apart (s : Scheduler ρ κ) : Prop := (s.addresses.map fun a => a % 2 ^ 32).Nodup

/-- Both records of the interests are those of the channels. -/
structure InSync (s : Scheduler ρ κ) : Prop where
  events : s.poll.events = s.registrations
  watched : s.poll.watched = s.registrations

/-- They are, up to the interest of one channel. -/
structure Abreast (a : Address) (s : Scheduler ρ κ) : Prop where
  events : ∀ flags, Poll.setEvents a flags s.poll.events = Poll.setEvents a flags s.registrations
  watched : ∀ flags, Poll.setEvents a flags s.poll.watched = Poll.setEvents a flags s.registrations

theorem InSync.abreast (h : s.InSync) (a : Address) : s.Abreast a :=
  ⟨fun _ => by rw [h.events], fun _ => by rw [h.watched]⟩

/-- The entry at an address is the only one. -/
theorem eq_of_mem (nodup : s.addresses.Nodup) (mem : (a, c) ∈ s.channels)
    (mem' : (a, c') ∈ s.channels) : c = c' :=
  congrArg Prod.snd (List.inj_on_of_nodup_map nodup mem mem' rfl)

/-- The records follow the flags that are put. -/
theorem setEvents_registrations (s : Scheduler ρ κ) (a : Address) (c : Channel ρ κ) :
    Poll.setEvents a c.flags s.registrations = (s.put a c).registrations := by
  simp only [Poll.setEvents, registrations, put, List.map_map]
  apply List.map_congr_left
  intro entry _
  simp only [Function.comp_apply]
  split_ifs with place
  · rw [place]
  · rfl

theorem Abreast.put (h : s.Abreast a) (c : Channel ρ κ) : (s.put a c).Abreast a where
  events flags := by
    rw [← setEvents_registrations, setEvents_setEvents]
    exact h.events flags
  watched flags := by
    rw [← setEvents_registrations, setEvents_setEvents]
    exact h.watched flags

theorem registrations_put (nodup : s.addresses.Nodup) (found : s.find a = .ok c)
    (flags : c'.flags = c.flags) : (s.put a c').registrations = s.registrations := by
  simp only [registrations, Scheduler.put, List.map_map]
  apply List.map_congr_left
  rintro ⟨x, other⟩ mem
  simp only [Function.comp_apply]
  split_ifs with place
  · subst place
    rw [eq_of_mem nodup mem (mem_of_find_ok found), flags]
  · rfl

theorem Abreast.map_ptr (h : s.Abreast a) :
    s.poll.events.map Registration.ptr = s.addresses ∧
      s.poll.watched.map Registration.ptr = s.addresses := by
  have same : s.registrations.map Registration.ptr = s.addresses := by
    rw [registrations, List.map_map]
    rfl
  have events := congrArg (List.map Registration.ptr) (h.events 0)
  have watched := congrArg (List.map Registration.ptr) (h.watched 0)
  rw [Poll.map_ptr_setEvents, Poll.map_ptr_setEvents, same] at events watched
  exact ⟨events, watched⟩

theorem Abreast.findEvent (h : s.Abreast a) (present : a ∈ s.addresses) :
    ∃ found, s.poll.findEvent a = some found := by
  rw [← h.map_ptr.1, List.mem_map] at present
  obtain ⟨r, mem, same⟩ := present
  cases none : s.poll.findEvent a with
  | some found => exact ⟨found, rfl⟩
  | none =>
    have other := List.find?_eq_none.mp none r mem
    simp [same] at other

/-- An update catches up with the flags of the channel. -/
theorem Abreast.update (h : s.Abreast a) (nodup : s.addresses.Nodup) (found : s.find a = .ok c) :
    Machine.Ensures (fun s' => s'.InSync ∧ s'.channels = s.channels) (s.update a .ok) := by
  rw [update_eq found]
  obtain ⟨r, known⟩ := h.findEvent (mem_of_find found)
  refine .ok ⟨⟨?_, ?_⟩, rfl⟩
  · simp only [Poll.update, known]
    rw [h.events, setEvents_registrations, registrations_put nodup found rfl]
    rfl
  · simp only [Poll.update, known, if_true]
    rw [h.watched, setEvents_registrations, registrations_put nodup found rfl]
    rfl

/-- A removal drops the channel from all lists. -/
theorem Abreast.remove (h : s.Abreast a) (apart : s.Apart) (found : s.find a = .ok c) :
    Machine.Ensures (fun s' => s'.InSync ∧
      s'.channels = s.channels.filter fun entry => entry.1 ≠ a) (s.remove a .ok) := by
  obtain ⟨r, known⟩ := h.findEvent (mem_of_find found)
  have fds : (s.poll.events.map Registration.fd).Nodup := by
    have same : s.poll.events.map Registration.fd =
        (s.poll.events.map Registration.ptr).map fun a => a % 2 ^ 32 := by
      rw [List.map_map]
      rfl
    rw [same, h.map_ptr.1]
    exact apart
  have dropped {rs : List Registration}
      (same : Poll.setEvents a 0 rs = Poll.setEvents a 0 s.registrations) :
      rs.filter (fun r => r.ptr ≠ a) =
        (s.channels.filter fun entry => entry.1 ≠ a).map fun entry => ⟨entry.1, entry.2.flags⟩ := by
    rw [← filter_setEvents 0 rs, same, filter_setEvents, registrations, List.filter_map]
    rfl
  have removed : s.poll.remove a .ok = .ok
      { events := s.poll.events.filter fun r => r.ptr ≠ a
        watched := s.poll.watched.filter fun r => r.ptr ≠ a } := by
    simp only [Poll.remove, known, if_true, Poll.sweep_eq_filter fds known]
  rw [remove_eq found removed]
  refine .ok ⟨⟨?_, ?_⟩, rfl⟩
  · exact dropped (h.events 0)
  · simp only [Poll.forget, List.filter_filter, Bool.and_self]
    exact dropped (h.watched 0)

end Scheduler

/-! ## Notification -/

section Notification

variable {log : List (Action κ ι)} {actions : List (Action κ ι)} {x : Address} {c : Channel ρ κ}

/-- What is done is no attempt to write to the channel, and does not make it. -/
def Quiet (x : Address) (actions : List (Action κ ι)) : Prop :=
  .attempted x ∉ actions ∧ .added x ∉ actions

/-- Since the last attempt to write to the channel the kernel was told of its interest. -/
def Notified (log : List (Action κ ι)) (x : Address) : Prop :=
  ∃ before after, log = before ++ .modified x :: after ∧ Quiet x after

theorem quiet_of_other (others : ∀ action ∈ actions, action.channel ≠ x) : Quiet x actions :=
  ⟨fun mem => others _ mem rfl, fun mem => others _ mem rfl⟩

theorem Notified.append (h : Notified log x) (quiet : Quiet x actions) :
    Notified (log ++ actions) x := by
  obtain ⟨before, after, rfl, silent⟩ := h
  refine ⟨before, after ++ actions, by simp, ?_⟩
  simp only [Quiet, List.mem_append, not_or]
  exact ⟨⟨silent.1, quiet.1⟩, silent.2, quiet.2⟩

theorem notified_snoc (log : List (Action κ ι)) (x : Address) :
    Notified (log ++ [.modified x]) x :=
  ⟨log, [], rfl, by simp, by simp⟩

/-- What is to hold of a channel, if it is a connection. -/
def Settled (log : List (Action κ ι)) (x : Address) (c : Channel ρ κ) : Prop :=
  c.acceptor = false → c.Wants ∧ (c.queue.buffers ≠ [] → Notified log x)

theorem Settled.append (h : Settled log x c) (quiet : Quiet x actions) :
    Settled (log ++ actions) x c := by
  intro connection
  obtain ⟨wants, notified⟩ := h connection
  exact ⟨wants, fun queued => (notified queued).append quiet⟩

end Notification

/-! ## What a pass of `run` keeps -/

/-- The `epoll_ctl` calls of a pass succeed. -/
structure Visit.Succeeds (v : Visit ι) : Prop where
  arm : v.arm = .ok
  interest : v.interest = .ok
  answer : v.answer.2 = .ok
  flush : v.flush.2 = .ok
  closing : v.closing = .ok
  accepts : ∀ accept ∈ v.accepts, accept.result = .ok

namespace Traced

variable {env : Env ρ κ ι} {t t' : Traced ρ κ ι} {a x : Address} {c c' : Channel ρ κ}
  {actions : List (Action κ ι)}

/-- The channels are those that both records name, with the interests they have; and each
connection is settled. -/
structure Attended (t : Traced ρ κ ι) : Prop where
  nodup : t.scheduler.addresses.Nodup
  sync : t.scheduler.InSync
  settled : ∀ x c, (x, c) ∈ t.scheduler.channels → Settled t.log x c

/-- All but the channel at `a`, which is `c` now. -/
structure Busy (a : Address) (c : Channel ρ κ) (t : Traced ρ κ ι) : Prop where
  nodup : t.scheduler.addresses.Nodup
  found : t.scheduler.find a = .ok c
  abreast : t.scheduler.Abreast a
  others : ∀ x c', (x, c') ∈ t.scheduler.channels → x ≠ a → Settled t.log x c'

theorem Attended.busy (h : t.Attended) (found : t.scheduler.find a = .ok c) : t.Busy a c :=
  ⟨h.nodup, found, h.sync.abreast a, fun x c' mem _ => h.settled x c' mem⟩

theorem Attended.settled_of_find (h : t.Attended) (found : t.scheduler.find a = .ok c) :
    Settled t.log a c :=
  h.settled a c (Scheduler.mem_of_find_ok found)

theorem Busy.note (h : t.Busy a c) (own : ∀ action ∈ actions, action.channel = a) :
    (t.note actions).Busy a c where
  nodup := h.nodup
  found := h.found
  abreast := h.abreast
  others x c' mem other := by
    refine (h.others x c' mem other).append (quiet_of_other ?_)
    intro action done same
    exact other (same.symm.trans (own action done))

theorem Busy.put (h : t.Busy a c) (c' : Channel ρ κ) : (t.put a c').Busy a c' where
  nodup := by
    rw [Traced.put, Scheduler.addresses_put]
    exact h.nodup
  found := Scheduler.find_put (Scheduler.mem_of_find h.found)
  abreast := h.abreast.put c'
  others x c'' mem other := by
    rcases Scheduler.mem_put mem with ⟨same, -⟩ | ⟨-, old⟩
    · exact absurd same other
    · exact h.others x c'' old other

/-- The update at the end of a change. -/
theorem Busy.update (h : t.Busy a c) (wants : c.acceptor = false → c.Wants) :
    Machine.Ensures (fun t' => t'.Attended ∧ t'.scheduler.channels = t.scheduler.channels)
      (t.update a .ok) := by
  refine (h.abreast.update h.nodup h.found).bind fun s ⟨sync, same⟩ => .ok ⟨⟨?_, sync, ?_⟩, same⟩
  · rw [Scheduler.addresses, same]
    exact h.nodup
  · intro x c' mem
    rw [same] at mem
    obtain ⟨r, known⟩ := h.abreast.findEvent (Scheduler.mem_of_find h.found)
    have told : t.modification a = [.modified a] := by
      rw [modification, known, Option.isSome_some, if_pos rfl]
    simp only [told]
    by_cases place : x = a
    · -- the kernel was told just now
      subst place
      obtain rfl := Scheduler.eq_of_mem h.nodup mem (Scheduler.mem_of_find_ok h.found)
      exact fun connection => ⟨wants connection, fun _ => notified_snoc t.log x⟩
    · refine (h.others x c' mem place).append (quiet_of_other ?_)
      intro action done same
      rw [List.mem_singleton.mp done] at same
      exact place same.symm

theorem Busy.remove (h : t.Busy a c) (apart : t.scheduler.Apart) :
    Machine.Ensures (fun t' => t'.Attended ∧ t'.scheduler.Apart) (t.remove a .ok) := by
  have found : Machine.Ensures (fun c => t.scheduler.find a = .ok c) (t.scheduler.find a) :=
    fun _ found => found
  refine found.bind fun c _ => ?_
  refine (h.abreast.remove apart h.found).bind fun s ⟨sync, same⟩ => .ok ⟨⟨?_, sync, ?_⟩, ?_⟩
  · rw [Scheduler.addresses, same]
    exact h.nodup.sublist (List.filter_sublist.map _)
  · intro x c' mem
    rw [same, List.mem_filter, decide_eq_true_eq] at mem
    refine (h.others x c' mem.1 mem.2).append (quiet_of_other ?_)
    intro action done is
    rw [List.mem_singleton.mp done] at is
    exact mem.2 is.symm
  · rw [Scheduler.Apart, Scheduler.addresses, same]
    exact apart.sublist ((List.filter_sublist.map _).map _)

/-- What a pass for a connection keeps. -/
def Steady (t : Traced ρ κ ι) : Prop := t.Attended ∧ t.scheduler.Apart

theorem apart_of_channels (apart : t.scheduler.Apart)
    (same : t'.scheduler.channels = t.scheduler.channels) : t'.scheduler.Apart := by
  rw [Scheduler.Apart, Scheduler.addresses, same]
  exact apart

theorem Steady.processWrite (h : t.Steady) (a : Address) {outcomes : List Turn × CtlResult}
    (succeeds : outcomes.2 = .ok) : Machine.Ensures Steady (t.processWrite env a outcomes) := by
  obtain ⟨turns, result⟩ := outcomes
  subst succeeds
  refine (t.find_ensures a).bind fun c found => ?_
  let written := Io.processWrite env turns c
  have own : ∀ action ∈ writing (ι := ι) a c written, action.channel = a := by
    intro action done
    rw [writing, List.mem_append] at done
    rcases done with done | done
    · split_ifs at done
      · cases done
      · rw [List.mem_singleton.mp done, Action.channel]
    · split_ifs at done
      · rw [List.mem_singleton.mp done, Action.channel]
      · cases done
  have busy := ((h.1.busy found).note own).put written.channel
  have apart : ((t.note (writing a c written)).put a written.channel).scheduler.Apart := by
    rw [Scheduler.Apart, Traced.put, Scheduler.addresses_put]
    exact h.2
  dsimp only
  cases next : (Io.processWrite env turns c).next with
  | again => exact .error _
  | leave =>
    -- the loop has left the interest as it should be
    have wants : written.channel.acceptor = false → written.channel.Wants := by
      rw [processWrite_acceptor]
      intro connection
      have before := (h.1.settled_of_find found connection).1
      exact before.processWrite turns (by rw [next]; simp)
    intro t' updated
    obtain ⟨attended, same⟩ := busy.update wants t' updated
    exact ⟨attended, apart_of_channels apart same⟩
  | remove => exact busy.remove apart

/-- A change that is none of the flags or the queue. -/
theorem Steady.put (h : t.Steady) (found : t.scheduler.find a = .ok c)
    (own : ∀ action ∈ actions, action.channel = a) (quiet : Quiet a actions)
    (flags : c'.flags = c.flags) (queue : c'.queue = c.queue)
    (acceptor : c'.acceptor = c.acceptor) : ((t.note actions).put a c').Steady := by
  have busy := ((h.1.busy found).note own).put c'
  have same : (t.scheduler.put a c').registrations = t.scheduler.registrations :=
    Scheduler.registrations_put h.1.nodup found flags
  refine ⟨⟨busy.nodup, ⟨?_, ?_⟩, ?_⟩, ?_⟩
  · exact h.1.sync.events.trans same.symm
  · exact h.1.sync.watched.trans same.symm
  · intro x c'' mem
    rcases Scheduler.mem_put mem with ⟨rfl, rfl⟩ | ⟨other, old⟩
    · intro connection
      obtain ⟨wants, notified⟩ := h.1.settled_of_find found (acceptor ▸ connection)
      refine ⟨wants.congr (by rw [flags]) (by rw [flags]) (by rw [flags]) queue, fun queued => ?_⟩
      exact (notified (queue ▸ queued)).append quiet
    · exact busy.others x c'' mem other
  · rw [Scheduler.Apart, Traced.put, Scheduler.addresses_put]
    exact h.2

theorem Steady.remove (h : t.Steady) (a : Address) :
    Machine.Ensures Steady (t.remove a .ok) := by
  intro t' removed
  obtain ⟨c, found, -⟩ := Machine.bind_eq_ok.mp removed
  exact (h.1.busy found).remove h.2 t' removed

theorem Steady.readFailed (h : t.Steady) (a : Address) {v : Visit ι} (succeeds : v.closing = .ok)
    (fault : Fault) : Machine.Ensures Steady (t.readFailed a v fault) := by
  cases fault with
  | thrown exception =>
    cases exception with
    | connectionClosedByPeer =>
      rw [Traced.readFailed, succeeds]
      exact h.remove a
    | _ => exact .error _
  | terminated | undefined => exact .error _

theorem Steady.processRead (h : t.Steady) (a : Address) {v : Visit ι} (succeeds : v.Succeeds) :
    Machine.Ensures Steady (t.processRead env a v) := by
  refine (t.find_ensures a).bind fun c found => ?_
  rcases env.onRead v.input c.cookie with ⟨cookie, response⟩
  have own : ∀ action ∈ [(.received a c.cookie v.input cookie : Action κ ι)],
      action.channel = a := by
    intro action done
    rw [List.mem_singleton.mp done, Action.channel]
  have read : ((t.note [.received a c.cookie v.input cookie]).put a
      { c with cookie := cookie }).Steady :=
    h.put found own ⟨by simp, by simp⟩ rfl rfl rfl
  have there : ((t.note [.received a c.cookie v.input cookie]).put a
      { c with cookie := cookie }).scheduler.find a = .ok { c with cookie := cookie } :=
    Scheduler.find_put (Scheduler.mem_of_find found)
  cases response with
  | error fault => exact read.readFailed a succeeds.closing fault
  | ok item =>
    dsimp only
    split_ifs with empty
    · exact .ok read
    · -- the interest in writing is told before the item is queued
      have queued := (read.1.busy there).put ({ c with cookie := cookie }.receive item)
      have wants : ({ c with cookie := cookie }.receive item).acceptor = false →
          ({ c with cookie := cookie }.receive item).Wants := by
        intro connection
        exact ((read.1.settled_of_find there) connection).1.receive empty
      rw [succeeds.interest]
      have apart : (((t.note [.received a c.cookie v.input cookie]).put a
          { c with cookie := cookie }).put a
            ({ c with cookie := cookie }.receive item)).scheduler.Apart := by
        rw [Scheduler.Apart, Traced.put, Scheduler.addresses_put]
        exact read.2
      have updated : Machine.Ensures Steady ((((t.note [.received a c.cookie v.input cookie]).put a
          { c with cookie := cookie }).put a
            ({ c with cookie := cookie }.receive item)).update a .ok) := by
        intro t' updated
        obtain ⟨attended, same⟩ := queued.update wants t' updated
        exact ⟨attended, apart_of_channels apart same⟩
      exact updated.bind fun t steady => steady.processWrite a succeeds.answer

theorem Attended.arm (h : t.Attended) (found : t.scheduler.find a = .ok c) :
    Machine.Ensures (fun t' => t'.Attended ∧ t'.scheduler.addresses = t.scheduler.addresses)
      (t.arm a c .ok) := by
  unfold Traced.arm
  split_ifs
  · intro t' updated
    have wants : c.armed.acceptor = false → c.armed.Wants := by
      intro connection
      refine ((h.settled_of_find found) ?_).1.armed
      unfold Channel.armed at connection
      split_ifs at connection
      exact connection
    obtain ⟨attended, same⟩ := ((h.busy found).put c.armed).update wants t' updated
    refine ⟨attended, ?_⟩
    rw [Scheduler.addresses, same]
    exact Scheduler.addresses_put
  · exact .ok ⟨h, rfl⟩

/-- A new connection. -/
theorem Attended.add (h : t.Attended) {c : Channel ρ κ} {second : CtlResult}
    (fresh : a ∉ t.scheduler.addresses) (settled : c.acceptor = false → c.Wants)
    (empty : c.queue.buffers = []) : (t.add a c .ok second).Attended where
  nodup := by
    rw [Scheduler.addresses, Traced.add, Scheduler.add, List.map_append, List.map_singleton,
      ← List.concat_eq_append]
    exact h.nodup.concat fresh
  sync := by
    have same : (t.scheduler.add a c .ok second).registrations =
        t.scheduler.registrations ++ [⟨a, c.flags⟩] := by
      simp only [Scheduler.registrations, Scheduler.add, List.map_append, List.map_singleton]
    constructor
    · exact (congrArg (· ++ [_]) h.sync.events).trans same.symm
    · exact (congrArg (· ++ [_]) h.sync.watched).trans same.symm
  settled x c' mem := by
    rcases List.mem_append.mp mem with old | new
    · refine (h.settled x c' old).append (quiet_of_other ?_)
      intro action done same
      simp only [reduceCtorEq, if_false, List.mem_singleton] at done
      have place : a = x := by rw [← same, done, Action.channel]
      exact fresh (place ▸ List.mem_map_of_mem old)
    · cases List.mem_singleton.mp new
      exact fun connection => ⟨settled connection, fun queued => absurd empty queued⟩

theorem Attended.addNewConnections (h : t.Attended) {accepts : List Accept}
    (succeed : ∀ accept ∈ accepts, accept.result = .ok) :
    Machine.Ensures Attended (t.addNewConnections env accepts) := by
  refine addNewConnections_ensures (fun t accept attended ok => ?_) h succeed
  rw [ok]
  exact attended.add (accept.fresh _) (fun _ => .new env.null) rfl

/-- A pass of `run`. -/
theorem Attended.visit (h : t.Attended) (apart : t.scheduler.Apart) {e : Event × Visit ι}
    (succeeds : e.2.Succeeds) : Machine.Ensures Attended (t.visit env e) := by
  refine (t.find_ensures e.1.context).bind fun c found => ?_
  rw [succeeds.arm]
  refine (h.arm found).bind fun t' ⟨attended, same⟩ => ?_
  have steady : t'.Steady := by
    refine ⟨attended, ?_⟩
    rw [Scheduler.Apart, same]
    exact apart
  have flush {t : Traced ρ κ ι} (steady : t.Steady) :
      Machine.Ensures Attended (t.flush env e) := by
    unfold Traced.flush
    split_ifs
    · exact fun t' written => (steady.processWrite _ succeeds.flush t' written).1
    · exact .ok steady.1
  split_ifs
  · exact attended.addNewConnections succeeds.accepts
  · rw [succeeds.closing]
    exact fun t'' removed => (steady.remove e.1.context t'' removed).1
  · exact (steady.processRead _ succeeds).bind fun t steady => flush steady
  · exact flush steady

/-! ## Whole runs -/

/-- In each pass that a report leads to, the channels are apart in the low halves of their
addresses and all calls of `epoll_ctl` succeed. -/
def Orderly (env : Env ρ κ ι) (t : Traced ρ κ ι) (report : Option (Report ι)) : Prop :=
  ∀ r ∈ report, Machine.Along (visitStep env)
    (fun t e => t.scheduler.Apart ∧ e.2.Succeeds) t (t.scheduler.awaited r)

theorem Attended.iterate (h : t.Attended) {report : Option (Report ι)}
    (orderly : Orderly env t report) :
    Machine.Ensures (fun r => r.2.Attended) (t.iterate env report) :=
  iterate_ensures (fun _ _ attended met => attended.visit met.1 met.2) h orderly

theorem attended_start (env : Env ρ κ ι) (a : Address) (second : CtlResult) :
    (start env a .ok second).Attended where
  nodup := List.nodup_singleton a
  sync := ⟨rfl, rfl⟩
  settled x c mem := by
    cases List.mem_singleton.mp mem
    exact fun connection => by cases connection

/-- The channel at an address is the only entry for it. -/
theorem filter_place {channels : List (Address × Channel ρ κ)}
    (nodup : (channels.map Prod.fst).Nodup) (mem : (x, c) ∈ channels) :
    channels.filter (fun entry => entry.1 = x) = [(x, c)] := by
  induction channels with
  | nil => cases mem
  | cons entry channels ih =>
    rw [List.map_cons, List.nodup_cons] at nodup
    rcases List.mem_cons.mp mem with rfl | mem
    · have none : channels.filter (fun entry => entry.1 = x) = [] := by
        rw [List.filter_eq_nil_iff]
        intro other there
        have named : other.1 ∈ channels.map Prod.fst := List.mem_map_of_mem there
        have apart : other.1 ≠ x := fun same => nodup.1 (same ▸ named)
        simpa using apart
      rw [List.filter_cons_of_pos (by simp), none]
    · have named : x ∈ channels.map Prod.fst := List.mem_map_of_mem mem
      have apart : entry.1 ≠ x := fun same => nodup.1 (same ▸ named)
      rw [List.filter_cons_of_neg (by simpa using apart)]
      exact ih nodup.2 mem

theorem Attended.registration (h : t.Attended) (found : t.scheduler.find x = .ok c) :
    t.scheduler.registrations.filter (fun r => r.ptr = x) = [⟨x, c.flags⟩] := by
  have one := filter_place h.nodup (Scheduler.mem_of_find_ok found)
  rw [Scheduler.registrations, List.filter_map]
  exact congrArg (List.map fun entry => (⟨entry.1, entry.2.flags⟩ : Registration)) one

end Traced

/-- Between any two iterations of `run` the kernel watches each connection for what it waits
for, as its flags and the record of the poll say: for bytes and for the end, and for room as long
as something is queued. Then it was told so after the last attempt to write. -/
theorem interest_follows (env : Env ρ κ ι) (a : Address) (second : CtlResult)
    (reports : List (Option (Report ι)))
    (orderly : Machine.Along (Traced.iterate env) (Traced.Orderly env)
      (Traced.start env a .ok second) reports)
    (os : List Unit) (t : Traced ρ κ ι)
    (run : Machine.run (Traced.iterate env) (Traced.start env a .ok second) reports = .ok (os, t))
    (x : Address) (c : Channel ρ κ) (found : t.scheduler.find x = .ok c)
    (connection : c.acceptor = false) :
    t.scheduler.poll.watched.filter (fun r => r.ptr = x) = [⟨x, c.flags⟩] ∧
      t.scheduler.poll.events.filter (fun r => r.ptr = x) = [⟨x, c.flags⟩] ∧
      c.flags &&& read ≠ 0 ∧ c.flags &&& termination ≠ 0 ∧
      (c.flags &&& write ≠ 0 ↔ c.queue.buffers ≠ []) ∧
      (c.queue.buffers ≠ [] → Notified t.log x) := by
  have keeps : ∀ (t : Traced ρ κ ι) report, t.Attended → Traced.Orderly env t report →
      Machine.Ensures (fun r => r.2.Attended) (t.iterate env report) :=
    fun t report attended orderly => attended.iterate orderly
  have attended : t.Attended :=
    Machine.run_ensures keeps (Traced.attended_start env a second) orderly (os, t) run
  have recorded := attended.registration found
  obtain ⟨wants, notified⟩ := attended.settled_of_find found connection
  refine ⟨?_, ?_, wants.reads, wants.terminates, wants.writes, notified⟩
  · rw [attended.sync.watched, recorded]
  · rw [attended.sync.events, recorded]

/-- A connection is accepted and has a reply that the kernel takes a first byte of. -/
theorem interest_follows_partly :
    let env : Env Unit Unit Unit :=
      ⟨fun _ => [], ⟨12⟩, fun _ => [], fun _ c => (c, .ok (.ofData [1, 2, 3] true)), id, ()⟩
    let accept : Accept :=
      { place := fun addresses => addresses.sum + 1
        fresh := fun _ mem => Nat.not_succ_le_self _ (List.le_sum_of_mem mem)
        nonBlocking := true
        result := .ok
        second := .ok }
    let turns : List Turn := [⟨false, [.ok 1], .failed .eagain, false⟩,
      ⟨false, [.failed .eagain], .failed .eagain, false⟩]
    let report₁ : Report Unit :=
      .ofEvent (⟨0, read⟩, ⟨.ok, (), .ok, ([], .ok), ([], .ok), .ok, [accept]⟩)
    let report₂ : Report Unit :=
      .ofEvent (⟨1, read⟩, ⟨.ok, (), .ok, (turns, .ok), ([], .ok), .ok, []⟩)
    ∃ os t c, Machine.run (Traced.iterate env) (Traced.start env 0 .ok .ok)
        [some report₁, some report₂] = .ok (os, t) ∧
      t.scheduler.find 1 = .ok c ∧ c.queue.buffers ≠ [] ∧
      t.scheduler.poll.watched.filter (fun r => r.ptr = 1) = [⟨1, c.flags⟩] ∧
      c.flags &&& write ≠ 0 ∧ Notified t.log 1 := by
  intro env accept turns report₁ report₂
  have succeeds (turns : List Turn) (accepts : List Accept)
      (all : ∀ accept ∈ accepts, accept.result = .ok) :
      (⟨.ok, (), .ok, (turns, .ok), ([], .ok), .ok, accepts⟩ : Visit Unit).Succeeds :=
    ⟨rfl, rfl, rfl, rfl, rfl, all⟩
  have accepted : ((Traced.start env 0 .ok .ok).iterate env (some report₁)).map
      (fun r => (r.2.scheduler.addresses, r.2.scheduler.poll.watchedPtrs)) =
        .ok ([0, 1], [0, 1]) := by decide +kernel
  have orderly : Machine.Along (Traced.iterate env) (Traced.Orderly env)
      (Traced.start env 0 .ok .ok) [some report₁, some report₂] := by
    refine ⟨?_, fun _ t step => ⟨?_, fun _ _ _ => trivial⟩⟩
    · rintro _ ⟨⟩
      exact ⟨⟨List.nodup_singleton _, succeeds [] [accept] (by simp [accept])⟩,
        fun _ _ _ => trivial⟩
    · rintro _ ⟨⟩
      rw [step] at accepted
      simp only [Except.map, Except.ok.injEq, Prod.mk.injEq] at accepted
      have reported : t.scheduler.awaited report₂ =
          [(⟨1, read⟩, ⟨.ok, (), .ok, (turns, .ok), ([], .ok), .ok, []⟩)] := by
        simp [Scheduler.awaited, report₂, Report.ofEvent, accepted.2]
      have apart : t.scheduler.Apart := by
        rw [Scheduler.Apart, accepted.1]
        decide
      rw [reported]
      exact ⟨⟨apart, succeeds turns [] (by simp)⟩, fun _ _ _ => trivial⟩
  have left : (Machine.run (Traced.iterate env) (Traced.start env 0 .ok .ok)
      [some report₁, some report₂]).map (fun r => (r.2.scheduler.find 1).toOption.map fun c =>
        (c.acceptor, c.queue.buffers.isEmpty)) = .ok (some (false, false)) := by decide +kernel
  obtain ⟨⟨os, t⟩, run, seen⟩ := Machine.exists_ok_of_map left
  cases found : t.scheduler.find 1 with
  | error stop => simp [found, Except.toOption] at seen
  | ok c =>
    simp only [found, Except.toOption, Option.map_some, Option.some.injEq, Prod.mk.injEq,
      List.isEmpty_eq_false_iff] at seen
    obtain ⟨watched, -, -, -, waits, notified⟩ :=
      interest_follows env 0 .ok _ orderly os t run 1 c found seen.1
    exact ⟨os, t, c, run, found, seen.2, watched, waits.mpr seen.2, notified seen.2⟩

end Viking.Io
