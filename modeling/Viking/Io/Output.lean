/-
# What the kernel gets

A session in which everything is queued at the end. The buffers offered to the channel
are cut in two: those that are gone, and those of which the queue is what is left. The
cut may lie within a buffer, which then has sent a first part of its content and is
in the queue in another form: a shorter vector, a file at another offset, the rest of
a file in memory, the value of a future.

`Delivered` is this invariant. `delivered_run` says that it holds after every run, and
the theorems behind it what it means for the bytes the kernel took, for the futures
whose value was asked for, and for the end of the queue.
-/

import Mathlib.Data.List.Basic
import Viking.Io.Session

namespace Viking.Io

variable {ρ κ ι : Type}

/-- The buffers that an operation puts into the queue. -/
def Op.buffers : Op ρ → List (Buffer ρ)
  | .enqueue reply => reply.item.buffers
  | .turn _ => []

/-- The buffers offered in a run, in their order. -/
def offered (ops : List (Op ρ)) : List (Buffer ρ) := ops.flatMap Op.buffers

/-- The content of buffers. -/
def Env.contents (env : Env ρ κ ι) (buffers : List (Buffer ρ)) : Bytes :=
  buffers.flatMap env.content

/-- The futures among buffers. -/
def futures (buffers : List (Buffer ρ)) : List FutureId := buffers.filterMap Buffer.future

section Lists

variable (env : Env ρ κ ι) (xs ys : List (Buffer ρ)) (b : Buffer ρ)

@[simp] theorem contents_nil : env.contents ([] : List (Buffer ρ)) = [] := rfl

@[simp] theorem contents_cons : env.contents (b :: xs) = env.content b ++ env.contents xs := rfl

@[simp] theorem contents_append :
    env.contents (xs ++ ys) = env.contents xs ++ env.contents ys := List.flatMap_append

@[simp] theorem futures_nil : futures ([] : List (Buffer ρ)) = [] := rfl

@[simp] theorem futures_cons : futures (b :: xs) = b.future.toList ++ futures xs := by
  cases h : b.future <;> simp [futures, h]

@[simp] theorem futures_append : futures (xs ++ ys) = futures xs ++ futures ys :=
  List.filterMap_append

theorem offered_snoc (ops : List (Op ρ)) (op : Op ρ) :
    offered (ops ++ [op]) = offered ops ++ op.buffers := by
  simp [offered]

end Lists

/-- The operation puts its buffers at the end of the queue: a future finds it empty. -/
def Session.Appends (s : Session ρ κ) : Op ρ → Prop
  | .enqueue reply =>
    s.alive = true → reply.isAsync = true → s.channel.queue.buffers = []
  | .turn _ => True

/-- The queue is what is left of the buffers `todo` when the bytes `part` of the first
have been sent and the futures `taken` have been asked for theirs. -/
inductive Standing (env : Env ρ κ ι) :
    List (Buffer ρ) → List (Buffer ρ) → Bytes → List FutureId → Prop
  | untouched (todo : List (Buffer ρ)) : Standing env todo todo [] []
  | begun {first b : Buffer ρ} {rest : List (Buffer ρ)} {part : Bytes}
    (content : part ++ env.content b = env.content first) (sync : b.isAsync = false)
    (covered : b.Covered env.files) :
    Standing env (first :: rest) (b :: rest) part first.future.toList

/-- No more than the first of `todo` has been begun; a future that has is resolved. -/
inductive Cut (env : Env ρ κ ι) : List (Buffer ρ) → Bytes → List FutureId → Prop
  | between (todo : List (Buffer ρ)) : Cut env todo [] []
  | within {first : Buffer ρ} {part : Bytes} (rest : List (Buffer ρ))
    (part_of : part <+: env.content first) :
    Cut env (first :: rest) part first.future.toList

namespace Standing

variable {env : Env ρ κ ι} {todo queue more : List (Buffer ρ)} {part : Bytes}
  {taken : List FutureId}

theorem cut (h : Standing env todo queue part taken) : Cut env todo part taken := by
  cases h with
  | untouched => exact .between todo
  | begun content sync covered => exact .within _ ⟨_, content⟩

theorem append (h : Standing env todo queue part taken) (more : List (Buffer ρ)) :
    Standing env (todo ++ more) (queue ++ more) part taken := by
  cases h with
  | untouched => exact .untouched _
  | begun content sync covered => exact .begun content sync covered

/-- What was sent and what is queued make up the content. -/
theorem contents (h : Standing env todo queue part taken) :
    part ++ env.contents queue = env.contents todo := by
  cases h with
  | untouched => rfl
  | begun content sync covered => rw [contents_cons, contents_cons, ← List.append_assoc, content]

end Standing

theorem Cut.append {env : Env ρ κ ι} {todo : List (Buffer ρ)} {part : Bytes}
    {taken : List FutureId} (h : Cut env todo part taken) (more : List (Buffer ρ)) :
    Cut env (todo ++ more) part taken := by
  cases h with
  | between => exact .between _
  | within rest part_of => exact .within _ part_of

/-- The buffers offered so far are those that are gone, `done`, and `todo`, of which the
first may have been begun. -/
structure DeliveredAs (env : Env ρ κ ι) (buffers : List (Buffer ρ)) (s : Session ρ κ)
    (done todo : List (Buffer ρ)) (part : Bytes) (taken : List FutureId) : Prop where
  split : done ++ todo = buffers
  accepted : s.accepted = env.contents done ++ part
  resolved : s.resolved = futures done ++ taken
  cut : Cut env todo part taken

/-- What is not gone is in the queue. -/
def Kept (env : Env ρ κ ι) (buffers : List (Buffer ρ)) (s : Session ρ κ) : Prop :=
  ∃ done todo part taken, DeliveredAs env buffers s done todo part taken ∧
    Standing env todo s.channel.queue.buffers part taken

structure Delivered (env : Env ρ κ ι) (buffers : List (Buffer ρ)) (s : Session ρ κ) : Prop where
  parts : ∃ done todo part taken, DeliveredAs env buffers s done todo part taken
  kept : s.alive = true → Kept env buffers s

theorem Kept.delivered {env : Env ρ κ ι} {buffers : List (Buffer ρ)} {s : Session ρ κ}
    (h : Kept env buffers s) : Delivered env buffers s where
  parts := by
    obtain ⟨done, todo, part, taken, as, -⟩ := h
    exact ⟨done, todo, part, taken, as⟩
  kept _ := h

/-! ## Steps -/

section Steps

variable {env : Env ρ κ ι} {buffers : List (Buffer ρ)} {s : Session ρ κ}

theorem future_eq_none {b : Buffer ρ} (sync : b.isAsync = false) : b.future = none := by
  cases b with
  | memory b => rfl
  | file f => rfl
  | async a => cases sync

/-- What `fill_channel` gets is what is left of the first of `todo`, whose future has
been asked for its value by then. -/
theorem Standing.starts {todo rest : List (Buffer ρ)} {front start : Buffer ρ} {part : Bytes}
    {taken resolved : List FutureId} {t : Turn}
    (h : Standing env todo (front :: rest) part taken)
    (starts : Channel.Starts env t front resolved start)
    (covered : ∀ b ∈ todo, b.Covered env.files) :
    ∃ first, todo = first :: rest ∧ part ++ env.content start = env.content first ∧
      taken ++ resolved = first.future.toList ∧ start.isAsync = false ∧
      start.Covered env.files := by
  cases h with
  | untouched =>
    cases starts with
    | sync sync =>
      refine ⟨front, rfl, rfl, ?_, sync, covered front List.mem_cons_self⟩
      rw [future_eq_none sync]
      rfl
    -- The value of the future has taken its place, with the same content.
    | resolved a ready value => exact ⟨.async a, rfl, rfl, rfl, rfl, trivial⟩
  | begun content sync covered' =>
    cases starts with
    | sync _ => exact ⟨_, rfl, content, List.append_nil _, sync, covered'⟩
    -- A future is never left in part.
    | resolved a ready value => cases sync

section Write

variable {done rest : List (Buffer ρ)} {first start : Buffer ρ} {part : Bytes}
  {taken resolved : List FutureId} {t : Turn}
  (h : DeliveredAs env buffers s done (first :: rest) part taken)
  (content : part ++ env.content start = env.content first)
  (asked : taken ++ resolved = first.future.toList)
  (sends : (fillChannel env t start).Sends env (env.content start))

include h content asked sends

/-- A pass that comes to `fill_channel` moves the cut within the first of `todo`. -/
theorem DeliveredAs.write :
    DeliveredAs env buffers (s.after (s.channel.write env t resolved start rest)) done
      (first :: rest) (part ++ (fillChannel env t start).accepted) first.future.toList where
  split := h.split
  accepted := by
    rw [← List.append_assoc, ← h.accepted]
    rfl
  resolved := by
    rw [← asked, ← List.append_assoc, ← h.resolved]
    rfl
  cut := by
    refine .within rest ?_
    -- The bytes of this pass follow those sent before, within the content of `first`.
    rw [← content]
    exact (List.prefix_append_right_inj part).mpr sends.taken

/-- Unless the channel is given up, what is not sent stays in the queue. -/
theorem DeliveredAs.write_kept (returned : (fillChannel env t start).result ≠ none) :
    Kept env buffers (s.after (s.channel.write env t resolved start rest)) := by
  have moved := h.write content asked sends
  have whole := sends.rest returned
  have queue : (s.after (s.channel.write env t resolved start rest)).channel.queue.buffers =
      (fillChannel env t start).front.toList ++ rest :=
    congrArg ScheduleItem.buffers Channel.afterFill_queue
  cases left : (fillChannel env t start).front with
  | none =>
    -- the buffer is gone, and with it its future
    have all : part ++ (fillChannel env t start).accepted = env.content first := by
      rw [← content, ← whole, left, Env.left, Option.elim_none, List.append_nil]
    refine ⟨done ++ [first], rest, [], [], ⟨?_, ?_, ?_, .between rest⟩, ?_⟩
    · rw [← h.split, List.append_assoc]
      rfl
    · rw [moved.accepted, all]
      simp
    · rw [moved.resolved]
      simp
    · rw [queue, left]
      exact .untouched rest
  | some b =>
    -- The buffer stays in front, begun.
    refine ⟨done, first :: rest, _, _, moved, ?_⟩
    rw [queue, left]
    refine .begun ?_ (sends.sync b left) (sends.covered b left)
    rw [List.append_assoc, ← content, ← whole, left]
    rfl

end Write

/-- A pass that sends nothing and resolves nothing. -/
theorem Kept.idle (h : Kept env buffers s) {t : Turn}
    (turn : s.channel.turn env t = ⟨s.channel.settle false, [], [], false, .leave⟩) :
    Delivered env buffers (s.after (s.channel.turn env t)) ∧
      ((s.channel.turn env t).drained = true →
        Kept env buffers (s.after (s.channel.turn env t)) ∧
          (s.channel.turn env t).channel.queue.buffers = []) := by
  obtain ⟨done, todo, part, taken, h, standing⟩ := h
  have same : Kept env buffers (s.after (s.channel.turn env t)) := by
    rw [turn]
    exact ⟨done, todo, part, taken, ⟨h.split, by simp [Session.after, h.accepted],
      by simp [Session.after, h.resolved], h.cut⟩, standing⟩
  refine ⟨same.delivered, fun drained => ?_⟩
  rw [turn] at drained
  cases drained

/-- A pass leaves the invariant, and the queue complete unless it is cut short. -/
theorem Kept.turn (values : ∀ v, env.onBarrier v ≠ [])
    (covered : ∀ b ∈ buffers, b.Covered env.files) (h : Kept env buffers s) (t : Turn) :
    Delivered env buffers (s.after (s.channel.turn env t)) ∧
      ((s.channel.turn env t).drained = true →
        Kept env buffers (s.after (s.channel.turn env t)) ∧
          (s.channel.turn env t).channel.queue.buffers = []) := by
  have kept := h
  obtain ⟨done, todo, part, taken, h, standing⟩ := h
  rcases s.channel.turn_cases env t with ⟨queue, turn⟩ | ⟨a, rest, queue, empty, turn⟩ |
    ⟨front, rest, resolved, start, queue, starts, turn⟩
  -- Nothing is queued, and the pass does nothing.
  · exact kept.idle turn
  · -- a value is never empty, so the future is not ready
    have waiting : t.ready ≠ true := fun ready => values a.value (empty ready)
    rw [if_neg waiting] at turn
    exact kept.idle turn
  · rw [queue] at standing
    have covered' : ∀ b ∈ todo, b.Covered env.files := fun b hb =>
      covered b (h.split ▸ List.mem_append_right done hb)
    obtain ⟨first, rfl, content, asked, sync, start_covered⟩ := standing.starts starts covered'
    have sends := fillChannel_sends (t := t) sync start_covered
    rw [turn]
    constructor
    · refine ⟨⟨_, _, _, _, h.write content asked sends⟩, fun alive => ?_⟩
      apply h.write_kept content asked sends
      -- a channel that is alive was not given up
      intro thrown
      simp only [Session.after, decide_eq_true_eq] at alive
      exact alive (Channel.afterFill_remove.mpr (.inl thrown))
    · intro drained
      obtain ⟨returned, empty⟩ := Channel.afterFill_drained.mp drained
      refine ⟨h.write_kept content asked sends returned, ?_⟩
      exact (congrArg ScheduleItem.buffers Channel.afterFill_queue).trans empty

/-- A reply whose buffers go to the end of the queue. -/
theorem Delivered.enqueue {reply : Reply ρ} (h : Delivered env buffers s)
    (appends : s.Appends (.enqueue reply)) :
    Delivered env (buffers ++ reply.item.buffers) (s.step env (.enqueue reply)) := by
  by_cases alive : s.alive = true
  · obtain ⟨done, todo, part, taken, as, standing⟩ := h.kept alive
    have queue : (s.channel.receive reply.item).queue.buffers =
        s.channel.queue.buffers ++ reply.item.buffers := by
      have front : reply.item.isFrontAsync = reply.isAsync := rfl
      by_cases async : reply.isAsync = true
      · obtain ⟨a, single⟩ := reply.isAsync_iff.mp async
        -- Before the first intact buffer of an empty queue is at its end.
        simp [Channel.receive, Channel.enqueueItem, front, async, appends alive async, single,
          ScheduleItem.putAfterFirstIntact]
      · simp [Channel.receive, Channel.enqueueItem, front, async, ScheduleItem.putBack]
    rw [Session.step, if_pos alive]
    apply Kept.delivered
    refine ⟨done, todo ++ reply.item.buffers, part, taken, ⟨?_, as.accepted, as.resolved,
      as.cut.append _⟩, ?_⟩
    · rw [← as.split, List.append_assoc]
    · rw [queue]
      exact standing.append _
  · obtain ⟨done, todo, part, taken, as⟩ := h.parts
    -- A channel that is gone gets nothing, so what is offered now stays undone.
    rw [Session.step, if_neg alive]
    refine ⟨⟨done, todo ++ reply.item.buffers, part, taken, ?_, as.accepted, as.resolved,
      as.cut.append _⟩, fun alive' => absurd alive' alive⟩
    rw [← as.split, List.append_assoc]

end Steps

/-! ## Runs -/

section Runs

variable (env : Env ρ κ ι) (s : Session ρ κ)

/-- Every reply of a run goes to the end of the queue. -/
def AppendsAlong (ops : List (Op ρ)) : Prop :=
  ∀ ops' op, ops' ++ [op] <+: ops → (s.run env ops').Appends op

variable {env s}

theorem appendsAlong_iff {ops : List (Op ρ)} :
    AppendsAlong env s ops ↔ Machine.AlongFold (Session.step env) Session.Appends s ops :=
  Machine.alongFold_iff.symm

theorem appendsAlong_nil : AppendsAlong env s [] := appendsAlong_iff.mpr trivial

theorem appendsAlong_cons {op : Op ρ} {ops : List (Op ρ)} :
    AppendsAlong env s (op :: ops) ↔ s.Appends op ∧ AppendsAlong env (s.step env op) ops := by
  rw [appendsAlong_iff, appendsAlong_iff, Machine.AlongFold]

/-- Nothing is offered, sent or asked for when a session starts. -/
theorem delivered_start {c : Channel ρ κ} (empty : c.queue.buffers = []) :
    Delivered env [] (.start c) := by
  have as : DeliveredAs env [] (.start c) [] [] [] [] := ⟨rfl, rfl, rfl, .between []⟩
  apply Kept.delivered
  refine ⟨[], [], [], [], as, ?_⟩
  rw [Session.start, empty]
  exact .untouched []

theorem delivered_run (values : ∀ v, env.onBarrier v ≠ []) (fresh : Delivered env [] s)
    {ops : List (Op ρ)} (covered : ∀ b ∈ offered ops, b.Covered env.files)
    (appends : AppendsAlong env s ops) : Delivered env (offered ops) (s.run env ops) := by
  induction ops using List.reverseRecOn with
  | nil => exact fresh
  | append_singleton ops op ih =>
    rw [offered_snoc] at covered ⊢
    have before := ih (fun b hb => covered b (List.mem_append_left _ hb))
      fun ops' op' h => appends ops' op' (h.trans (List.prefix_append ops [op]))
    rw [Session.run_append, Session.run_cons, Session.run_nil]
    cases op with
    | enqueue reply => exact before.enqueue (appends ops _ List.prefix_rfl)
    | turn t =>
      rw [Op.buffers, List.append_nil]
      by_cases alive : (s.run env ops).alive = true
      · rw [Session.step_turn env alive]
        have covered' : ∀ b ∈ offered ops, b.Covered env.files := fun b hb =>
          covered b (List.mem_append_left _ hb)
        exact ((before.kept alive).turn values covered' t).1
      · rw [Session.step, if_neg alive]
        exact before

end Runs

/-! ## What a delivery is worth -/

section Worth

variable {env : Env ρ κ ι} {buffers : List (Buffer ρ)} {s : Session ρ κ}

theorem Cut.part_of {todo : List (Buffer ρ)} {part : Bytes} {taken : List FutureId}
    (h : Cut env todo part taken) : part <+: env.contents todo := by
  cases h with
  | between => exact List.nil_prefix
  | within rest part_of => exact part_of.trans (List.prefix_append _ _)

theorem Cut.taken_of {todo : List (Buffer ρ)} {part : Bytes} {taken : List FutureId}
    (h : Cut env todo part taken) : taken <+: futures todo := by
  cases h with
  | between => exact List.nil_prefix
  | within rest part_of =>
    rw [futures_cons]
    exact List.prefix_append _ _

/-- The kernel has taken a first part of what was offered. -/
theorem Delivered.accepted_part (h : Delivered env buffers s) :
    s.accepted <+: env.contents buffers := by
  obtain ⟨done, todo, part, taken, h⟩ := h.parts
  rw [h.accepted, ← h.split, contents_append]
  exact (List.prefix_append_right_inj _).mpr h.cut.part_of

/-- The rest is in the queue. -/
theorem Kept.accepted_rest (h : Kept env buffers s) :
    s.accepted ++ env.contents s.channel.queue.buffers = env.contents buffers := by
  obtain ⟨done, todo, part, taken, h, standing⟩ := h
  rw [h.accepted, ← h.split, contents_append, List.append_assoc, standing.contents]

/-- The futures are asked in their order, each at most once. -/
theorem Delivered.resolved_part (h : Delivered env buffers s) :
    s.resolved <+: futures buffers := by
  obtain ⟨done, todo, part, taken, h⟩ := h.parts
  rw [h.resolved, ← h.split, futures_append]
  exact (List.prefix_append_right_inj _).mpr h.cut.taken_of

theorem Cut.part_before {between after : List (Buffer ρ)} {a : AsyncBuffer ρ} {part : Bytes}
    {taken : List FutureId} (h : Cut env (between ++ .async a :: after) part taken)
    (unresolved : a.future ∉ taken) : part <+: env.contents between := by
  cases between with
  | nil =>
    rw [List.nil_append] at h
    cases h with
    | between => exact List.nil_prefix
    | within => exact absurd (List.mem_singleton_self a.future) unresolved
  | cons b between =>
    rw [List.cons_append] at h
    cases h with
    | between => exact List.nil_prefix
    | within _ part_of => exact part_of.trans (List.prefix_append _ _)

/-- Nothing of a future that was not asked for its value, and nothing behind it. -/
theorem Delivered.accepted_before {before after : List (Buffer ρ)} {a : AsyncBuffer ρ}
    (h : Delivered env buffers s) (place : buffers = before ++ .async a :: after)
    (unresolved : a.future ∉ s.resolved) : s.accepted <+: env.contents before := by
  obtain ⟨done, todo, part, taken, h⟩ := h.parts
  have same := h.split.trans place
  have cut := h.cut
  rw [h.resolved, List.mem_append, not_or] at unresolved
  rw [h.accepted]
  -- Compare where the cut is with where the future is.
  rcases List.append_eq_append_iff.mp same with ⟨between, rfl, rest⟩ | ⟨between, rfl, rest⟩
  · -- the cut is at the future or before it
    rw [rest] at cut
    rw [contents_append]
    exact (List.prefix_append_right_inj _).mpr (cut.part_before unresolved.2)
  · cases between with
    | nil =>
      rw [List.nil_append] at rest
      rw [← rest] at cut
      have none : part <+: env.contents [] :=
        Cut.part_before (show Cut env ([] ++ .async a :: after) part taken from cut) unresolved.2
      simp [List.eq_nil_of_prefix_nil none]
    | cons b between =>
      -- the future is gone, so it was asked
      rw [List.cons_append, List.cons.injEq] at rest
      apply absurd _ unresolved.1
      rw [← rest.1, futures_append, futures_cons]
      simp [Buffer.future]

/-- The branch for an empty queue is taken only when everything offered was taken. -/
theorem Kept.drained (values : ∀ v, env.onBarrier v ≠ [])
    (covered : ∀ b ∈ buffers, b.Covered env.files) (h : Kept env buffers s) {t : Turn}
    (drained : (s.channel.turn env t).drained = true) :
    s.accepted ++ (s.channel.turn env t).accepted = env.contents buffers := by
  obtain ⟨kept, empty⟩ := (h.turn values covered t).2 drained
  have rest := kept.accepted_rest
  rw [Session.after, empty, contents_nil, List.append_nil] at rest
  exact rest

end Worth

end Viking.Io
