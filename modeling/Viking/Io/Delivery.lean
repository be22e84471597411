/-
# What the clients get

On every connection of every run, what the kernel has taken is a first part of what `on_read` has
answered on that connection, and while its channel is there the rest is in the queue: nothing is
lost or sent twice, nothing is sent out of its order, and nothing gets to another connection. The
one exception are connections where a future was answered while something was queued.

`Served` is what is kept, one lemma for each thing that a pass does to a life, and
`answers_delivered` is the result.
-/

import Viking.Io.Lives
import Viking.Io.Output

namespace Viking.Io

open Epoll

variable {ρ κ ι : Type}

instance (files : Fd → Bytes) : (b : Buffer ρ) → Decidable (b.Covered files)
  | .file f => inferInstanceAs (Decidable (f.Covered files))
  | .memory _ | .async _ => .isTrue trivial

/-- What a call of `on_read` answers. -/
def Env.answer (env : Env ρ κ ι) (call : ι × κ) : List (Buffer ρ) :=
  match (env.onRead call.1 call.2).2 with
  | .ok item => item.buffers
  | .error _ => []

/-- The call answers, if it does, with buffers that have their bytes at hand, or with one
future, and the files are as long as their buffers say. -/
def Env.Answers (env : Env ρ κ ι) (call : ι × κ) : Prop :=
  ((∀ b ∈ env.answer call, b.isAsync = false) ∨ ∃ a, env.answer call = [.async a]) ∧
    ∀ b ∈ env.answer call, b.Covered env.files

/-! ## Passes of `process_write` -/

section Sessions

variable {env : Env ρ κ ι} {buffers : List (Buffer ρ)} {s s' : Session ρ κ}

/-- Only the queue of a channel that is there counts. -/
theorem Delivered.congr (h : Delivered env buffers s) (accepted : s'.accepted = s.accepted)
    (resolved : s'.resolved = s.resolved)
    (queue : s'.alive = true →
      s.alive = true ∧ s'.channel.queue.buffers = s.channel.queue.buffers) :
    Delivered env buffers s' where
  parts := by
    obtain ⟨done, todo, part, taken, as⟩ := h.parts
    exact ⟨done, todo, part, taken, as.split, accepted.trans as.accepted,
      resolved.trans as.resolved, as.cut⟩
  kept alive := by
    obtain ⟨alive, same⟩ := queue alive
    obtain ⟨done, todo, part, taken, as, standing⟩ := h.kept alive
    refine ⟨done, todo, part, taken, ⟨as.split, accepted.trans as.accepted,
      resolved.trans as.resolved, as.cut⟩, ?_⟩
    exact same ▸ standing

theorem Delivered.turns (values : ∀ v, env.onBarrier v ≠ [])
    (covered : ∀ b ∈ buffers, b.Covered env.files) (h : Delivered env buffers s)
    (turns : List Turn) : Delivered env buffers (s.run env (turns.map Op.turn)) := by
  induction turns generalizing s with
  | nil => exact h
  | cons t turns ih =>
    rw [List.map_cons, Session.run_cons]
    refine ih ?_
    by_cases alive : s.alive = true
    · rw [Session.step_turn env alive]
      exact ((h.kept alive).turn values covered t).1
    · rw [Session.step, if_neg alive]
      exact h

end Sessions

/-! ## What a pass of `run` does to a life -/

namespace Life

variable {env : Env ρ κ ι} {l : Life ρ κ ι}

/-- The answers are those of the calls, and when all calls answer well they are delivered, unless a
future was answered when something was queued. -/
structure Served (env : Env ρ κ ι) (l : Life ρ κ ι) : Prop where
  answers : l.answers = l.calls.flatMap env.answer
  delivered : (∀ call ∈ l.calls, env.Answers call) → l.overtaken = false →
    Delivered env l.answers l.session

theorem Served.covered (h : Served env l) (well : ∀ call ∈ l.calls, env.Answers call) :
    ∀ b ∈ l.answers, b.Covered env.files := by
  intro b mem
  rw [h.answers, List.mem_flatMap] at mem
  obtain ⟨call, called, answered⟩ := mem
  exact (well call called).2 b answered

theorem served_start {c : Channel ρ κ} (empty : c.queue.buffers = []) :
    Served env (start c : Life ρ κ ι) :=
  ⟨rfl, fun _ _ => delivered_start empty⟩

theorem Served.remove (h : Served env l) : Served env (l.remove env) := by
  refine ⟨h.answers, fun well clear => (h.delivered well clear).congr rfl rfl fun alive => ?_⟩
  cases alive

theorem Served.setChannel (h : Served env l) {c : Channel ρ κ}
    (queue : c.queue = l.session.channel.queue) : Served env (l.setChannel c) :=
  ⟨h.answers, fun well clear => (h.delivered well clear).congr rfl rfl fun alive =>
    ⟨alive, congrArg ScheduleItem.buffers queue⟩⟩

theorem Served.write (values : ∀ v, env.onBarrier v ≠ []) (h : Served env l)
    (alive : l.session.alive = true) (turns : List Turn) : Served env (l.write env turns) := by
  obtain ⟨passes, same⟩ := Session.processWrite_eq_run env turns l.session alive
  have written (dropped : List κ) : Served env
      { l with
        session := l.session.after (processWrite env turns l.session.channel)
        dropped := dropped } := by
    refine ⟨h.answers, fun well clear => ?_⟩
    rw [← same]
    exact (h.delivered well clear).turns values (h.covered well) passes
  unfold Life.write
  dsimp only
  split_ifs
  · exact (written _).remove
  · exact (written _).remove
  · exact written _
  · exact written _

/-- The call of `on_read` that finds `cookie` answers nothing. -/
theorem Served.called (h : Served env l) {call : ι × κ} (empty : env.answer call = []) :
    Served env { l with calls := l.calls ++ [call] } where
  answers := by rw [List.flatMap_append, List.flatMap_singleton, empty, List.append_nil, h.answers]
  delivered well clear := h.delivered (fun call mem => well call (List.mem_append_left _ mem)) clear

/-- An answer goes to the end of the queue. -/
theorem Served.receive (h : Served env l) (alive : l.session.alive = true) {call : ι × κ}
    {item : ScheduleItem ρ} (answer : env.answer call = item.buffers)
    (nonempty : item.buffers ≠ []) :
    Served env ({ l with calls := l.calls ++ [call] }.receive item) where
  answers := by
    show l.answers ++ item.buffers = (l.calls ++ [call]).flatMap env.answer
    rw [List.flatMap_append, List.flatMap_singleton, answer, h.answers]
  delivered well clear := by
    obtain ⟨before, now⟩ := Bool.or_eq_false_iff.mp clear
    have uniform := (well call (List.mem_append_right _ (List.mem_singleton.mpr rfl))).1
    rw [answer] at uniform
    let reply : Reply ρ := ⟨item, nonempty, uniform⟩
    have queued : l.session.step env (.enqueue reply) =
        { l.session with channel := l.session.channel.receive item } := if_pos alive
    have appends : l.session.Appends (.enqueue reply) := by
      intro _ async
      have front : item.isFrontAsync = true := async
      rw [front, Bool.true_and, Bool.not_eq_false', List.isEmpty_iff] at now
      exact now
    have delivered := h.delivered (fun call mem => well call (List.mem_append_left _ mem)) before
    have enqueued := delivered.enqueue appends
    rw [queued] at enqueued
    exact enqueued

variable (values : ∀ v, env.onBarrier v ≠ [])

include values

theorem Served.read (h : Served env l) (alive : l.session.alive = true) (input : ι)
    (turns : List Turn) : Served env (l.read env input turns) := by
  rcases called : env.onRead input l.session.channel.cookie with ⟨cookie, response⟩
  have kept := h.setChannel (c := { l.session.channel with cookie := cookie }) rfl
  simp only [Life.read, called]
  cases response with
  | error fault => exact kept.remove
  | ok item =>
    have answer : env.answer (input, l.session.channel.cookie) = item.buffers := by
      rw [Env.answer, called]
    dsimp only
    split_ifs with empty
    · exact kept.called (answer.trans empty)
    · exact (kept.receive alive answer empty).write values alive turns

theorem Served.steps (h : Served env l) (activities : List (Activity ι)) :
    Served env (activities.foldl (step env) l) := by
  induction activities generalizing l with
  | nil => exact h
  | cons activity activities ih =>
    refine ih ?_
    by_cases alive : l.session.alive = true
    · rw [step_of_alive alive]
      cases activity with
      | readable input turns => exact h.read values alive input turns
      | writable turns => exact h.write values alive turns
    · rw [step_of_not_alive (Bool.eq_false_of_not_eq_true alive)]
      exact h

theorem Served.visit (h : Served env l) (e : Event × Visit ι) : Served env (l.visit env e) := by
  have armed : Served env (l.setChannel l.session.channel.armed) := by
    refine h.setChannel ?_
    unfold Channel.armed
    split_ifs <;> rfl
  unfold Life.visit
  dsimp only
  split_ifs
  · exact armed
  · exact armed.remove
  · exact armed.steps values _

end Life

/-! ## Whole runs -/

namespace Scheduler

variable {env : Env ρ κ ι} {a : Address} {result second : CtlResult}
  {reports : List (Option (Report ι))} {os : List Unit} {s' : Scheduler ρ κ}

theorem served_lives (values : ∀ v, env.onBarrier v ≠ []) (x : Address) :
    ∀ l ∈ lives env a result second reports x, l.Served env :=
  forall_lives (fun _ empty _ => Life.served_start empty) (fun _ e h => h.visit values e) x

/-- A life that has not ended is that of the channel at its address. -/
theorem Lived.find_of_alive {x : Address} {l : Life ρ κ ι} {lives : List (Life ρ κ ι)}
    (h : Lived a x s' lives) (mem : l ∈ lives) (alive : l.session.alive = true) :
    s'.find x = .ok l.session.channel := by
  cases lives with
  | nil => cases mem
  | cons last past =>
    rcases List.mem_cons.mp mem with rfl | earlier
    · exact Machine.toOption_eq_some.mp (h.channel.trans (if_pos alive))
    · have ended := h.ended l earlier
      rw [alive] at ended
      cases ended

/-- Over every run of the scheduler, on every connection that an address has had: the kernel has
taken a first part of what was answered there, and the rest is in the queue of the channel as long
as the connection lives. -/
theorem answers_delivered (values : ∀ v, env.onBarrier v ≠ [])
    (returned : Machine.run (iterate env) (start env a result second) reports = .ok (os, s'))
    (x : Address) :
    ∀ l ∈ lives env a result second reports x,
      (∀ call ∈ l.calls, env.Answers call) → l.overtaken = false →
        let whole := l.calls.flatMap env.answer
        l.session.accepted <+: env.contents whole ∧ l.session.resolved <+: futures whole ∧
          (l.session.alive = true → ∃ c, s'.find x = .ok c ∧
            l.session.accepted ++ env.contents c.queue.buffers = env.contents whole) := by
  intro l mem well clear
  have served := served_lives values x l mem
  have delivered := served.delivered well clear
  rw [served.answers] at delivered
  refine ⟨delivered.accepted_part, delivered.resolved_part, fun alive => ?_⟩
  refine ⟨l.session.channel, (lived_run returned x).find_of_alive mem alive, ?_⟩
  exact (delivered.kept alive).accepted_rest

/-- Two connections are answered in turns, and the socket of the first takes one byte at a time. -/
theorem answers_delivered_two :
    let env : Env Unit Unit Unit :=
      ⟨fun _ => [], ⟨12⟩, fun _ => [0], fun _ c => (c, .ok (.ofData (bytes "hi") true)), id, ()⟩
    let accept : Accept :=
      { place := fun addresses => addresses.sum + 1
        fresh := fun _ mem => Nat.not_succ_le_self _ (List.le_sum_of_mem mem)
        nonBlocking := true
        result := .ok
        second := .ok }
    let full : Turn := ⟨false, [], .failed .eagain, false⟩
    let turns : List Turn := [{ full with sends := [.ok 1] }, full]
    let meets (accepts : List Accept) : Visit Unit :=
      ⟨.ok, (), .ok, (turns, .ok), (turns, .ok), .ok, accepts⟩
    let reports : List (Option (Report Unit)) :=
      [some (.ofEvent (⟨0, Epoll.read⟩, meets [accept, accept])),
        some (.ofEvent (⟨1, Epoll.read⟩, meets [])), some (.ofEvent (⟨2, Epoll.read⟩, meets [])),
        some (.ofEvent (⟨1, Epoll.read ||| Epoll.write⟩, meets []))]
    (lives env 0 .ok .ok reports 1).map (fun l => (l.session.accepted, l.overtaken)) =
        [(bytes "hih", false)] ∧
      ∃ s' : Scheduler Unit Unit, ∀ l ∈ lives env 0 .ok .ok reports 1,
        let whole := l.calls.flatMap env.answer
        l.session.accepted <+: env.contents whole ∧ l.session.resolved <+: futures whole ∧
          (l.session.alive = true → ∃ c, s'.find 1 = .ok c ∧
            l.session.accepted ++ env.contents c.queue.buffers = env.contents whole) := by
  intro env accept full turns meets reports
  have well (call : Unit × Unit) : env.Answers call := by
    simp [Env.Answers, Env.answer, env, ScheduleItem.ofData, Buffer.isAsync, Buffer.Covered]
  obtain ⟨⟨os, s'⟩, returned⟩ := Machine.exists_ok_of_toBool
    (show (Machine.run (iterate env) (start env 0 .ok .ok) reports).toBool = true by
      decide +kernel)
  have clear : ∀ l ∈ lives env 0 .ok .ok reports 1, l.overtaken = false := by decide +kernel
  refine ⟨by decide +kernel, s', fun l mem => ?_⟩
  exact answers_delivered (fun _ => List.cons_ne_nil _ _) returned 1 l mem (fun call _ => well call)
    (clear l mem)

end Scheduler

end Viking.Io
