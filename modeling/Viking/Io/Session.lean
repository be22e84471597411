/-
# The life of a channel's queue

A session is a channel over its life: replies of the read callback enter its queue and
passes of `process_write` leave it, in any order, until the channel is removed. It
records what the kernel has taken and the futures whose value was asked for.
-/

import Viking.Io.Channel
import Viking.Lib.Machine

namespace Viking.Io

variable {ρ κ ι : Type}

/-- What the read callback returns when it answers: buffers with their bytes at hand, or
one future. -/
structure Reply (ρ : Type) where
  item : ScheduleItem ρ
  nonempty : item.buffers ≠ []
  uniform : (∀ b ∈ item.buffers, b.isAsync = false) ∨ ∃ a, item.buffers = [.async a]

namespace Reply

/-- The reply is a future. -/
def isAsync (reply : Reply ρ) : Bool := reply.item.isFrontAsync

theorem isAsync_iff (reply : Reply ρ) :
    reply.isAsync = true ↔ ∃ a, reply.item.buffers = [.async a] := by
  rcases reply.uniform with sync | ⟨a, h⟩
  · obtain ⟨front, rest, h⟩ := List.exists_cons_of_ne_nil reply.nonempty
    -- The first buffer has its bytes at hand, and so has every other.
    have : front.isAsync = false := sync front (h ▸ List.mem_cons_self)
    simp only [isAsync, ScheduleItem.isFrontAsync, h, this, Bool.false_eq_true, false_iff,
      List.cons.injEq, not_exists, not_and]
    intro a rfl
    cases this
  · simp [isAsync, ScheduleItem.isFrontAsync, h, Buffer.isAsync]

/-- Bytes at hand, in one buffer. -/
def ofData (data : Bytes) (keep : Bool) : Reply ρ where
  item := .ofData data keep
  nonempty := by simp [ScheduleItem.ofData]
  uniform := .inl (by simp [ScheduleItem.ofData, Buffer.isAsync])

/-- A future. -/
def ofFuture (a : AsyncBuffer ρ) (keep : Bool) : Reply ρ where
  item := .ofFuture a keep
  nonempty := by simp [ScheduleItem.ofFuture]
  uniform := .inr ⟨a, rfl⟩

end Reply

/-- What happens to a channel: a reply to it is queued, or a pass of `process_write`
takes place. -/
inductive Op (ρ : Type)
  | enqueue (reply : Reply ρ)
  | turn (t : Turn)

structure Session (ρ κ : Type) where
  channel : Channel ρ κ
  alive : Bool
  accepted : Bytes
  resolved : List FutureId

namespace Session

/-- Nothing has been sent on the channel. -/
def start (c : Channel ρ κ) : Session ρ κ := ⟨c, true, [], []⟩

/-- The session after a pass or a call of `process_write`. -/
def after (s : Session ρ κ) (turned : Turned ρ κ) : Session ρ κ where
  channel := turned.channel
  alive := turned.next ≠ .remove
  accepted := s.accepted ++ turned.accepted
  resolved := s.resolved ++ turned.resolved

/-- Nothing happens to a channel that was removed. -/
def step (env : Env ρ κ ι) (s : Session ρ κ) : Op ρ → Session ρ κ
  | .enqueue reply => if s.alive then { s with channel := s.channel.receive reply.item } else s
  | .turn t => if s.alive then s.after (s.channel.turn env t) else s

def run (env : Env ρ κ ι) (s : Session ρ κ) (ops : List (Op ρ)) : Session ρ κ :=
  ops.foldl (step env) s

@[simp] theorem run_nil (env : Env ρ κ ι) (s : Session ρ κ) : s.run env [] = s := rfl

@[simp] theorem run_cons (env : Env ρ κ ι) (s : Session ρ κ) (op : Op ρ) (ops : List (Op ρ)) :
    s.run env (op :: ops) = (s.step env op).run env ops := rfl

theorem run_append (env : Env ρ κ ι) (s : Session ρ κ) (ops ops' : List (Op ρ)) :
    s.run env (ops ++ ops') = (s.run env ops).run env ops' :=
  List.foldl_append

theorem step_turn (env : Env ρ κ ι) {s : Session ρ κ} (alive : s.alive = true) (t : Turn) :
    s.step env (.turn t) = s.after (s.channel.turn env t) := if_pos alive

/-- A call of `process_write` is a run of passes. -/
theorem processWrite_eq_run (env : Env ρ κ ι) (turns : List Turn) (s : Session ρ κ)
    (alive : s.alive = true) :
    ∃ passes : List Turn,
      s.run env (passes.map Op.turn) = s.after (processWrite env turns s.channel) := by
  induction turns generalizing s with
  | nil =>
    by_cases queue : s.channel.queue.buffers = []
    · -- the loop is not entered, whatever the pass would have met
      let t : Turn := ⟨false, [], .failed .eagain, false⟩
      refine ⟨[t], ?_⟩
      rw [List.map_singleton, run_cons, run_nil, step_turn env alive, processWrite, if_pos queue,
        Channel.turn, queue]
    · refine ⟨[], ?_⟩
      simp [processWrite, queue, after, ← alive]
  | cons t turns ih =>
    cases next : (s.channel.turn env t).next with
    | again =>
      -- The loop goes on, on a channel that was not removed: use IH.
      have alive' : (s.after (s.channel.turn env t)).alive = true := by simp [after, next]
      obtain ⟨passes, same⟩ := ih _ alive'
      refine ⟨t :: passes, ?_⟩
      rw [List.map_cons, run_cons, step_turn env alive, same]
      simp [after, processWrite, next, List.append_assoc]
    | leave | remove =>
      -- The call returns in this pass.
      refine ⟨[t], ?_⟩
      rw [List.map_singleton, run_cons, run_nil, step_turn env alive]
      simp [processWrite, next]

end Session

end Viking.Io
