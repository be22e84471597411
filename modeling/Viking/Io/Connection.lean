/-
# One connection of the scheduler

What the scheduler does with one channel that is no acceptor, apart from the others: a
read event runs the read callback and writes its reply, a write event writes what is
queued. `visit_follows` says that a pass of `run` does this to the channel of its event.

`Drains` says, of a queue and of what the kernel makes of it, that all that is queued is
taken; it is when `process_write` comes to its branch for an empty queue.
-/

import Viking.Io.Scheduler

namespace Viking.Io

open Epoll

variable {ρ κ ι : Type}

/-! ## When the queue is emptied -/

/-- Over these outcomes the kernel takes all that is in the queue. -/
def Drains (env : Env ρ κ ι) : List Turn → List (Buffer ρ) → Prop
  | [], _ => False
  | t :: turns, queue =>
    ∃ front rest resolved start, queue = front :: rest ∧
      Channel.Starts env t front resolved start ∧
      let filling := fillChannel env t start
      let left := filling.front.toList ++ rest
      filling.result ≠ none ∧ left = [] ∨
        filling.result = some false ∧ left ≠ [] ∧ Drains env turns left

section Cookie

variable {env : Env ρ κ ι} {t : Turn} {c : Channel ρ κ}

theorem Channel.turn_of_starts {front start : Buffer ρ} {rest : List (Buffer ρ)}
    {resolved : List FutureId} (queue : c.queue.buffers = front :: rest)
    (starts : Channel.Starts env t front resolved start) :
    c.turn env t = c.write env t resolved start rest := by
  cases starts with
  | sync sync =>
    cases front with
    | memory b => simp only [turn, queue]
    | file f => simp only [turn, queue]
    | async a => cases sync
  | resolved a ready value => simp [turn, queue, ready, value]

/-- What a pass does to the queue as a whole and to the cookie. -/
theorem Channel.turn_queue (env : Env ρ κ ι) (t : Turn) (c : Channel ρ κ) :
    (c.turn env t).channel.queue.keepFileOpen = c.queue.keepFileOpen ∧
      (c.turn env t).channel.cookie =
        if (c.turn env t).drained = true ∧ c.queue.keepFileOpen = true then env.onRemove c.cookie
        else c.cookie := by
  rcases c.turn_cases env t with ⟨-, turn⟩ | ⟨a, rest, -, -, turn⟩ |
    ⟨front, rest, resolved, start, -, -, turn⟩
  · rw [turn]
    simp
  · rw [turn]
    simp
  · rw [turn]
    constructor
    · simp only [write, afterFill_queue]
    · exact afterFill_cookie

theorem Channel.not_drained_of_again (next : (c.turn env t).next = .again) :
    (c.turn env t).drained = false := by
  rcases c.turn_cases env t with ⟨-, turn⟩ | ⟨a, rest, -, -, turn⟩ |
    ⟨front, rest, resolved, start, -, -, turn⟩
  · rw [turn]
  · rw [turn]
  · rw [turn] at next ⊢
    have left := (afterFill_again.mp next).2
    -- A pass after which the loop goes on has left something in the queue.
    rw [← Bool.not_eq_true]
    intro drained
    exact left (afterFill_drained.mp drained).2

/-- `process_write` changes the cookie in its branch for an empty queue only. -/
theorem processWrite_cookie (env : Env ρ κ ι) (turns : List Turn) (c : Channel ρ κ) :
    (processWrite env turns c).channel.cookie =
      if (processWrite env turns c).drained = true ∧ c.queue.keepFileOpen = true then
        env.onRemove c.cookie
      else c.cookie := by
  induction turns generalizing c with
  | nil =>
    simp only [processWrite]
    split_ifs <;> simp_all
  | cons t turns ih =>
    have turn := c.turn_queue env t
    cases next : (c.turn env t).next with
    | again =>
      -- the cookie is still the one before this pass
      rw [Channel.not_drained_of_again next] at turn
      simp only [Bool.false_eq_true, false_and, if_false] at turn
      simp only [processWrite, next]
      rw [ih, turn.1, turn.2]
    | leave | remove =>
      simp only [processWrite, next]
      exact turn.2

theorem processWrite_drained (env : Env ρ κ ι) (turns : List Turn) (c : Channel ρ κ) :
    (processWrite env turns c).drained = true ↔ Drains env turns c.queue.buffers := by
  induction turns generalizing c with
  | nil =>
    simp only [processWrite, Drains, iff_false]
    split_ifs <;> simp
  | cons t turns ih =>
    have drains_iff {front start : Buffer ρ} {rest : List (Buffer ρ)} {resolved : List FutureId}
        (queue : c.queue.buffers = front :: rest)
        (starts : Channel.Starts env t front resolved start) :
        (processWrite env (t :: turns) c).drained = true ↔
          (fillChannel env t start).result ≠ none ∧
              (fillChannel env t start).front.toList ++ rest = [] ∨
            (fillChannel env t start).result = some false ∧
              (fillChannel env t start).front.toList ++ rest ≠ [] ∧
              Drains env turns ((fillChannel env t start).front.toList ++ rest) := by
      -- What `fill_channel` makes of the front decides both about the pass and about the loop.
      have turn := Channel.turn_of_starts queue starts
      have left : (c.turn env t).channel.queue.buffers =
          (fillChannel env t start).front.toList ++ rest := by
        rw [turn]
        exact congrArg ScheduleItem.buffers Channel.afterFill_queue
      have emptied : (c.turn env t).drained = true ↔ (fillChannel env t start).result ≠ none ∧
          (fillChannel env t start).front.toList ++ rest = [] := by
        rw [turn]
        exact Channel.afterFill_drained
      have again : (c.turn env t).next = .again ↔ (fillChannel env t start).result = some false ∧
          (fillChannel env t start).front.toList ++ rest ≠ [] := by
        rw [turn]
        exact Channel.afterFill_again
      cases next : (c.turn env t).next with
      | again =>
        have goes := again.mp next
        simp only [processWrite, next]
        -- Use IH on the queue that this pass has left.
        rw [ih, left]
        simp [goes.1, goes.2]
      | leave | remove =>
        have ends : ¬ ((fillChannel env t start).result = some false ∧
            (fillChannel env t start).front.toList ++ rest ≠ []) := by
          rw [← again, next]
          simp
        simp only [processWrite, next]
        rw [emptied]
        constructor
        · exact .inl
        · rintro (taken | ⟨partly, rest, -⟩)
          · exact taken
          · exact absurd ⟨partly, rest⟩ ends
    constructor
    · intro drained
      rcases c.turn_cases env t with ⟨-, turn⟩ | ⟨a, rest, -, -, turn⟩ |
        ⟨front, rest, resolved, start, queue, starts, -⟩
      · simp [processWrite, turn] at drained
      · simp [processWrite, turn] at drained
      -- Only a pass that comes to `fill_channel` empties the queue.
      · exact ⟨front, rest, resolved, start, queue, starts, (drains_iff queue starts).mp drained⟩
    · rintro ⟨front, rest, resolved, start, queue, starts, taken⟩
      exact (drains_iff queue starts).mpr taken

/-- A channel that is kept open is not removed when its queue is emptied. -/
theorem processWrite_leaves {turns : List Turn} (keep : c.queue.keepFileOpen = true)
    (drained : (processWrite env turns c).drained = true) :
    (processWrite env turns c).next = .leave := by
  induction turns generalizing c with
  | nil =>
    simp only [processWrite] at drained
    split_ifs at drained
  | cons t turns ih =>
    cases next : (c.turn env t).next with
    | again =>
      simp only [processWrite, next] at drained ⊢
      exact ih ((c.turn_queue env t).1.trans keep) drained
    | leave => simp only [processWrite, next]
    | remove =>
      simp only [processWrite, next] at drained
      rcases c.turn_cases env t with ⟨-, turn⟩ | ⟨a, rest, -, -, turn⟩ |
        ⟨front, rest, resolved, start, -, -, turn⟩
      · simp [turn] at drained
      · simp [turn] at drained
      · -- neither the one reason for a removal nor the other
        rw [turn] at drained next
        have taken := Channel.afterFill_drained.mp drained
        rcases Channel.afterFill_remove.mp next with failed | ⟨-, closes⟩
        · exact absurd failed taken.1
        · exact absurd (keep.symm.trans closes) (by simp)

end Cookie

/-! ## The events of a connection -/

/-- What an event is to its channel: a reason to read, or to write. The outcomes are
those of the call of `process_write`. -/
inductive Activity (ι : Type)
  | readable (input : ι) (turns : List Turn)
  | writable (turns : List Turn)

/-- A channel, as long as it is not removed. -/
structure Connection (ρ κ : Type) where
  channel : Channel ρ κ
  alive : Bool

namespace Connection

variable (env : Env ρ κ ι)

/-- `remove` -/
def removed (c : Channel ρ κ) : Connection ρ κ :=
  ⟨{ c with cookie := env.onRemove c.cookie }, false⟩

/-- `process_write` -/
def write (c : Channel ρ κ) (turns : List Turn) : Except Stop (Connection ρ κ) :=
  let written := processWrite env turns c
  match written.next with
  | .again => .error .unfinished
  | .leave => .ok ⟨written.channel, true⟩
  | .remove => .ok (removed env written.channel)

/-- `process_read` -/
def read (c : Channel ρ κ) (input : ι) (turns : List Turn) : Except Stop (Connection ρ κ) :=
  let (cookie, response) := env.onRead input c.cookie
  let c := { c with cookie := cookie }
  match response with
  -- an item without buffers converts to `false`: the request is not complete
  | .ok item => if item.buffers = [] then .ok ⟨c, true⟩ else write env (c.receive item) turns
  | .error (.thrown .connectionClosedByPeer) => .ok (removed env c)
  | .error (.thrown _) => .error (.fault .terminated)
  | .error fault => .error (.fault fault)

/-- Nothing happens to a channel that was removed. -/
def step (s : Connection ρ κ) : Activity ι → Except Stop (Connection ρ κ)
  | .readable input turns => if s.alive then read env s.channel input turns else .ok s
  | .writable turns => if s.alive then write env s.channel turns else .ok s

end Connection

/-- What the event gives its channel to do. -/
def activities (e : Event × Visit ι) : List (Activity ι) :=
  (if e.1.canRead then [.readable e.2.input e.2.answer.1] else []) ++
    if e.1.canWrite then [.writable e.2.flush.1] else []

/-! ## The scheduler does this -/

section Follows

open Scheduler

variable {env : Env ρ κ ι} {s s' : Scheduler ρ κ} {a : Address} {c : Channel ρ κ}
  {r : Except Stop (Scheduler ρ κ)} {k : Except Stop (Connection ρ κ)}

/-- When the scheduler returns, the channel at `a` is what the connection says, and is
there as long as the connection lives. -/
def Follows (a : Address) (r : Except Stop (Scheduler ρ κ)) (k : Except Stop (Connection ρ κ)) :
    Prop :=
  ∀ s', r = .ok s' → ∃ connection, k = .ok connection ∧
    if connection.alive then s'.find a = .ok connection.channel else a ∉ s'.addresses

theorem update_follows {result : CtlResult} (found : s.find a = .ok c) :
    Follows a (s.update a result) (.ok ⟨c, true⟩) := by
  intro s' updated
  exact ⟨⟨c, true⟩, rfl, find_update found updated⟩

theorem remove_follows {result : CtlResult} {c' : Channel ρ κ} (found : s.find a = .ok c) :
    Follows a (s.remove a result) (.ok (Connection.removed env c')) := by
  intro s' removed
  refine ⟨_, rfl, ?_⟩
  exact ((keeps_remove (mem_of_find found)).stays s' removed).mp

theorem processWrite_follows (found : s.find a = .ok c) (outcomes : List Turn × CtlResult) :
    Follows a (s.processWrite env a outcomes) (Connection.write env c outcomes.1) := by
  have there := find_put (c := (Io.processWrite env outcomes.1 c).channel) (mem_of_find found)
  rw [Scheduler.processWrite, found]
  simp only [bind, Except.bind, Connection.write]
  cases (Io.processWrite env outcomes.1 c).next with
  | again =>
    intro s' returned
    cases returned
  | leave => exact update_follows there
  | remove => exact remove_follows there

theorem processRead_follows (found : s.find a = .ok c) (v : Visit ι) :
    Follows a (s.processRead env a v) (Connection.read env c v.input v.answer.1) := by
  rcases read : env.onRead v.input c.cookie with ⟨cookie, response⟩
  have there := find_put (c := { c with cookie := cookie }) (mem_of_find found)
  cases response with
  | error fault =>
    rw [processRead_of_error found read]
    simp only [Connection.read, read]
    by_cases closed : fault = .thrown .connectionClosedByPeer
    · subst closed
      exact remove_follows there
    · obtain ⟨fault', stopped⟩ := readFailed_of_ne (s := s.put a { c with cookie := cookie })
        (a := a) (v := v) closed
      rw [stopped]
      intro s' returned
      cases returned
  | ok item =>
    rw [processRead_of_reply found read]
    simp only [Connection.read, read]
    split_ifs with empty
    · intro s' returned
      cases returned
      exact ⟨_, rfl, there⟩
    · have queued := find_put (c := { c with cookie := cookie }.receive item) (mem_of_find there)
      rw [update_eq queued v.interest]
      exact processWrite_follows (find_update queued (update_eq queued v.interest)) v.answer

/-- A pass of `run` does to a channel that is no acceptor, and whose event does not end it,
what the connection does. -/
theorem visit_follows {e : Event × Visit ι} (found : s.find e.1.context = .ok c)
    (connection : c.acceptor = false) (goes : e.1.canTerminate = false) :
    Follows e.1.context (s.visit env e)
      ((activities e).foldlM (Connection.step env) ⟨c.armed, true⟩) := by
  obtain ⟨s₁, arm, -, there, -⟩ := arm_eq found e.2.arm
  -- The second half of the pass, from whatever channel the first has left.
  have flush {s : Scheduler ρ κ} {c : Channel ρ κ} (found : s.find e.1.context = .ok c) :
      Follows e.1.context (s.flush env e) ((if e.1.canWrite then [.writable e.2.flush.1]
        else []).foldlM (Connection.step env) ⟨c, true⟩) := by
    rw [Scheduler.flush]
    split_ifs
    · simpa [Connection.step] using processWrite_follows found e.2.flush
    · intro s' returned
      cases returned
      exact ⟨_, rfl, found⟩
  rw [visit_eq found arm, activities, List.foldlM_append]
  simp only [connection, goes, Bool.false_eq_true, if_false]
  by_cases readable : e.1.canRead = true
  · simp only [readable, if_true, List.foldlM_cons, List.foldlM_nil, Connection.step]
    intro s' visited
    obtain ⟨s₂, read, flushed⟩ := Machine.bind_eq_ok.mp visited
    -- Split on whether the read has left the channel.
    obtain ⟨⟨c', alive⟩, reads, channel⟩ := processRead_follows there e.2 s₂ read
    rw [reads]
    cases alive with
    | true => exact flush channel s' flushed
    | false =>
      -- the scheduler returns only when it does not write to the channel now
      have gone : e.1.context ∉ s₂.addresses := by simpa using channel
      rw [Scheduler.flush] at flushed
      split_ifs at flushed ⊢ with writable
      · rw [Scheduler.processWrite, find_of_not_mem gone] at flushed
        cases flushed
      · cases flushed
        exact ⟨_, rfl, by simpa using gone⟩
  · simp only [readable]
    exact flush there

end Follows

end Viking.Io
