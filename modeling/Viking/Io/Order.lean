/-
# The order of responses

Which buffer of the queue is which: `Labelled` gives every buffer that is queued the
number of its arrival. The labelled queue is worked by operations of its own, in which
a label stays with its buffer: `put` for a reply, `pass` for a pass through the loop. By
its type it is the queue of the session with labels added, so these operations do to the
buffers what the session does. The queue is in order when its labels are the last ones
that were given out, in a row.

`in_order_iff` says when that is so at every moment of a run. A reply that is a future
goes in front of the first intact buffer, so there must be none.
-/

import Viking.Io.Session
import Viking.Lib.Insertion
import Viking.Lib.Machine

namespace Viking.Io

variable {ρ κ ι : Type}

/-- A session with a number for each buffer of its queue; `enqueued` is the next one. -/
structure Labelled (ρ κ : Type) where
  session : Session ρ κ
  queue : List (Buffer ρ × Nat)
  enqueued : Nat
  labels : queue.map Prod.fst = session.channel.queue.buffers

namespace Labelled

variable {env : Env ρ κ ι} {s : Labelled ρ κ}

/-- A channel with nothing queued, nothing numbered. -/
def start (flags : UInt32) (cookie : κ) : Labelled ρ κ := ⟨.start (.new flags cookie), [], 0, rfl⟩

/-- The queue after a reply whose buffers are numbered from `enqueued` on. -/
def put (s : Labelled ρ κ) (reply : Reply ρ) : List (Buffer ρ × Nat) :=
  let new := reply.item.buffers.zipIdx s.enqueued
  if reply.isAsync then Insertion.beforeFirst (fun b => b.1.intact) new.reverse s.queue
  else s.queue ++ new

theorem map_fst_put (s : Labelled ρ κ) (reply : Reply ρ) :
    (s.put reply).map Prod.fst = (s.session.channel.receive reply.item).queue.buffers := by
  have front : reply.item.isFrontAsync = reply.isAsync := rfl
  simp only [put, Channel.receive, Channel.enqueueItem, front]
  by_cases async : reply.isAsync = true
  · rw [if_pos async, Insertion.map_beforeFirst (q := Buffer.intact) fun _ => rfl, s.labels]
    simp [async, ScheduleItem.putAfterFirstIntact]
  · rw [if_neg async, List.map_append, s.labels]
    simp [async, ScheduleItem.putBack]

/-- The queue after a pass: what is left of the front buffer keeps its label, and the
buffers behind it are the same, with theirs. -/
def pass (env : Env ρ κ ι) (t : Turn) : List (Buffer ρ × Nat) → List (Buffer ρ × Nat)
  | [] => []
  | (front, label) :: rest => ((Channel.left env t front).toList.map fun b => (b, label)) ++ rest

theorem map_fst_pass (s : Labelled ρ κ) (t : Turn) :
    (pass env t s.queue).map Prod.fst = (s.session.channel.turn env t).channel.queue.buffers := by
  have labels := s.labels
  cases queue : s.queue with
  | nil =>
    rw [queue] at labels
    rw [Channel.turn_buffers_nil labels.symm]
    rfl
  | cons first rest =>
    obtain ⟨front, label⟩ := first
    rw [queue, List.map_cons] at labels
    rw [Channel.turn_buffers labels.symm, pass, List.map_append, List.map_map]
    congr 1
    exact List.map_id _

/-- A pass drops the label at the front or none. -/
theorem map_snd_pass_suffix (env : Env ρ κ ι) (t : Turn) (queue : List (Buffer ρ × Nat)) :
    (pass env t queue).map Prod.snd <:+ queue.map Prod.snd := by
  cases queue with
  | nil => exact List.suffix_rfl
  | cons first rest =>
    obtain ⟨front, label⟩ := first
    rw [pass, List.map_append, List.map_cons]
    cases Channel.left env t front with
    | none => exact List.suffix_cons label _
    | some b => exact List.suffix_rfl

/-- What the session does, with the labels. -/
def step (env : Env ρ κ ι) (s : Labelled ρ κ) : Op ρ → Labelled ρ κ
  | .enqueue reply =>
    if alive : s.session.alive then
      { session := s.session.step env (.enqueue reply)
        queue := s.put reply
        enqueued := s.enqueued + reply.item.buffersLeft
        labels := by simp only [Session.step, alive, if_true, map_fst_put] }
    else s
  | .turn t =>
    if alive : s.session.alive then
      { session := s.session.step env (.turn t)
        queue := pass env t s.queue
        enqueued := s.enqueued
        labels := by simp only [Session.step_turn env alive, Session.after, map_fst_pass] }
    else s

def run (env : Env ρ κ ι) (s : Labelled ρ κ) (ops : List (Op ρ)) : Labelled ρ κ :=
  ops.foldl (step env) s

theorem session_step (op : Op ρ) : (s.step env op).session = s.session.step env op := by
  cases op <;> by_cases alive : s.session.alive = true <;> simp [step, Session.step, alive]

theorem session_run (ops : List (Op ρ)) :
    (s.run env ops).session = s.session.run env ops := by
  induction ops generalizing s with
  | nil => rfl
  | cons op ops ih =>
    rw [run, List.foldl_cons, ← run, ih, session_step, Session.run_cons]

/-- The labels in the queue are those given out last, in a row. -/
def InOrder (s : Labelled ρ κ) : Prop := s.queue.map Prod.snd <:+ List.range s.enqueued

/-- A future is only queued behind buffers that have all been sent in part. -/
def Clear (s : Session ρ κ) : Op ρ → Prop
  | .enqueue reply =>
    s.alive = true → reply.isAsync = true → ∀ b ∈ s.channel.queue.buffers, b.intact = false
  | .turn _ => True

/-- New labels at the end continue the row. -/
theorem suffix_append {labels : List Nat} {n : Nat} (h : labels <:+ List.range n) (k : Nat) :
    labels ++ List.range' n k <:+ List.range (n + k) := by
  obtain ⟨before, h⟩ := h
  refine ⟨before, ?_⟩
  rw [← List.append_assoc, h, List.range_eq_range', List.range_eq_range',
    ← List.range'_append_1, Nat.zero_add]

theorem inOrder_enqueue {reply : Reply ρ} (h : s.InOrder) (alive : s.session.alive = true) :
    (s.step env (.enqueue reply)).InOrder ↔ Clear s.session (.enqueue reply) := by
  simp only [InOrder, step, alive, dif_pos, Clear, forall_const, put]
  cases async : reply.isAsync with
  | false =>
    -- Bytes at hand go to the end of the queue, whatever is in it.
    simp only [Bool.false_eq_true, if_false, false_implies, iff_true, List.map_append,
      List.zipIdx_map_snd]
    exact suffix_append h _
  | true =>
    obtain ⟨a, buffers⟩ := reply.isAsync_iff.mp async
    -- the reply is one buffer, with the next label
    have fresh : ∀ b ∈ s.queue, b.2 ∉ [(Buffer.async a, s.enqueued)].map Prod.snd := by
      intro b hb
      have old : b.2 ∈ List.range s.enqueued := h.subset (List.mem_map_of_mem hb)
      rw [List.mem_range] at old
      rw [List.map_singleton, List.mem_singleton]
      exact old.ne
    have last := suffix_append h 1
    have behind := Insertion.map_beforeFirst_eq_append_iff
      (p := fun b : Buffer ρ × Nat => b.1.intact) (List.cons_ne_nil _ _) fresh
    simp only [buffers, List.zipIdx_cons, List.zipIdx_nil, List.reverse_singleton, if_true,
      ScheduleItem.buffersLeft, List.length_singleton, forall_const, ← s.labels, List.mem_map,
      forall_exists_index, and_imp, forall_apply_eq_imp_iff₂, ← behind]
    constructor
    · -- of two ends of the row with one length there is only one
      intro h'
      have length := (Insertion.beforeFirst_perm : List.Perm (Insertion.beforeFirst
        (fun b : Buffer ρ × Nat => b.1.intact) [(Buffer.async a, s.enqueued)] s.queue) _).length_eq
      apply (List.suffix_of_suffix_length_le h' last _).eq_of_length
      all_goals simp [length, Nat.add_comm]
    · intro h'
      rw [h']
      exact last

theorem inOrder_turn {t : Turn} (h : s.InOrder) : (s.step env (.turn t)).InOrder := by
  by_cases alive : s.session.alive = true
  · simp only [InOrder, step, alive, dif_pos]
    -- Labels go from the front only, so the row keeps its end.
    exact (map_snd_pass_suffix env t s.queue).trans h
  · simpa only [step, alive, dif_neg, Bool.false_eq_true, not_false_eq_true] using h

theorem inOrder_step (op : Op ρ) (h : s.InOrder) :
    (s.step env op).InOrder ↔ Clear s.session op := by
  cases op with
  | turn t => exact iff_of_true (inOrder_turn h) trivial
  | enqueue reply =>
    by_cases alive : s.session.alive = true
    · exact inOrder_enqueue h alive
    · simp [step, alive, Clear, h]

end Labelled

section

variable (env : Env ρ κ ι) (flags : UInt32) (cookie : κ)

/-- Through a run the queue is in order at every moment, so that what is left in it is
the end of the replies in the order in which they were returned, iff whenever the
reply is a future no buffer of the queue is intact. -/
theorem in_order_iff (ops : List (Op ρ)) :
    (∀ ops', ops' <+: ops → ((Labelled.start flags cookie).run env ops').InOrder) ↔
      ∀ ops' op, ops' ++ [op] <+: ops →
        Labelled.Clear ((Session.start (.new flags cookie)).run env ops') op := by
  -- The invariant is exact step by step, so it is exact along the run.
  have start : (Labelled.start (ρ := ρ) flags cookie).InOrder := List.nil_suffix
  have session (ops' : List (Op ρ)) : (Session.start (.new flags cookie)).run env ops' =
      ((Labelled.start flags cookie).run env ops').session := by
    rw [Labelled.session_run]
    rfl
  simp only [session]
  exact Machine.foldl_invariant_iff start fun s op h => Labelled.inOrder_step op h

end

/-- A file is being sent, with part of its header gone, when a future is queued: it
goes between the header and the file. -/
theorem future_splits_response :
    ¬ ∀ (env : Env Unit Unit Unit) (ops : List (Op Unit)),
      ((Labelled.start Epoll.read ()).run env ops).InOrder := by
  intro all
  let env : Env Unit Unit Unit :=
    ⟨fun _ => bytes "content", ⟨12⟩, fun _ => bytes "later", fun _ c => (c, .ok (.empty true)), id,
      ()⟩
  let file : Reply Unit :=
    { item := ⟨[.memory (.new (bytes "header")), .file (.opened (bytes "/file") 3 7 (by decide)),
        .memory (.new (bytes "end"))], true⟩
      nonempty := List.cons_ne_nil _ _
      uniform := .inl (by simp [Buffer.isAsync]) }
  let full : Turn := ⟨false, [], .failed .eagain, false⟩
  -- The labels are 0, 3, 1, 2 once the future is queued.
  have fails : ¬ ((Labelled.start Epoll.read ()).run env
      [.enqueue file, .turn { full with sends := [.ok 2] }, .turn full,
        .enqueue (.ofFuture ⟨0, ()⟩ true)]).queue.map Prod.snd <:+ List.range 4 := by
    decide +kernel
  exact fails (all env _)

end Viking.Io
