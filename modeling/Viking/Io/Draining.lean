/-
# The end of a queue

An item is queued on a channel and `process_write` passes over the queue until it is empty:
`written` is the session of these passes. When the queue is empty its flag decides about
the channel.

Two channels with the same buffers in their queues stay alike, whatever their flags are, up to
that moment; a future is alike to the bytes of its value from the pass on that finds it ready.
-/

import Viking.Io.Connection
import Viking.Io.Output

namespace Viking.Io

variable {ρ κ ι : Type}

/-! ## The flag of the queue -/

section Queue

variable {env : Env ρ κ ι} {c : Channel ρ κ} {item : ScheduleItem ρ}

/-- The channel when the item was queued and `process_write` has made some passes. -/
def written (env : Env ρ κ ι) (c : Channel ρ κ) (item : ScheduleItem ρ) (turns : List Turn) :
    Session ρ κ :=
  (Session.start (c.receive item)).run env (turns.map Op.turn)

theorem run_turns_keep (s : Session ρ κ) (turns : List Turn) :
    (s.run env (turns.map Op.turn)).channel.queue.keepFileOpen =
      s.channel.queue.keepFileOpen := by
  induction turns generalizing s with
  | nil => rfl
  | cons t turns ih =>
    rw [List.map_cons, Session.run_cons, ih, Session.step]
    split_ifs
    · exact (s.channel.turn_queue env t).1
    · rfl

/-- A pass that empties the queue has come to `fill_channel`. -/
theorem write_of_drained {t : Turn} (drained : (c.turn env t).drained = true) :
    ∃ resolved start rest, c.turn env t = c.write env t resolved start rest := by
  rcases c.turn_cases env t with ⟨-, turn⟩ | ⟨a, rest, -, -, turn⟩ |
    ⟨front, rest, resolved, start, -, -, turn⟩
  · rw [turn] at drained
    cases drained
  · rw [turn] at drained
    cases drained
  · exact ⟨resolved, start, rest, turn⟩

/-- When the queue is empty the flag decides. -/
theorem remove_of_drained {t : Turn} (drained : (c.turn env t).drained = true) :
    (c.turn env t).next ≠ .remove ↔ c.queue.keepFileOpen = true := by
  obtain ⟨resolved, start, rest, turn⟩ := write_of_drained drained
  rw [turn] at drained ⊢
  obtain ⟨returned, empty⟩ := Channel.afterFill_drained.mp drained
  rw [ne_eq, Channel.write, Channel.afterFill_remove]
  simp only [returned, false_or, not_and, Bool.not_eq_false]
  exact ⟨fun keep => keep empty, fun keep _ => keep⟩

theorem drained_empty {t : Turn} (drained : (c.turn env t).drained = true) :
    (c.turn env t).channel.queue.buffers = [] := by
  obtain ⟨resolved, start, rest, turn⟩ := write_of_drained drained
  rw [turn] at drained ⊢
  exact (congrArg ScheduleItem.buffers Channel.afterFill_queue).trans
    (Channel.afterFill_drained.mp drained).2

/-- The flag that the queue has once an item is queued. -/
theorem receive_keep : (c.receive item).queue.keepFileOpen =
    if item.isFrontAsync then c.queue.keepFileOpen else item.keepFileOpen := by
  cases async : item.isFrontAsync <;>
    simp [Channel.receive, Channel.enqueueItem, async, ScheduleItem.putBack,
      ScheduleItem.putAfterFirstIntact]

/-- A kernel that takes everything at once, of a future that is ready. -/
def taking (text : Bytes) : Turn := ⟨true, [.ok text.length], .failed .eagain, false⟩

theorem drained_memory {text : Bytes} (nonempty : text ≠ []) (resolved : List FutureId) :
    (c.write env (taking text) resolved (.memory (.new text)) []).drained = true := by
  have some : text.length ≠ 0 := by simpa using nonempty
  simp [Channel.write, taking, fillChannel, fillMemory, writeSome, MemoryBuffer.new, some,
    Channel.afterFill_drained]

theorem receive_ofData {text : Bytes} {keep : Bool} (empty : c.queue.buffers = []) :
    (c.receive (.ofData text keep)).queue.buffers = [.memory (.new text)] := by
  simp [Channel.receive, Channel.enqueueItem, ScheduleItem.ofData, ScheduleItem.isFrontAsync,
    Buffer.isAsync, ScheduleItem.putBack, empty]

theorem receive_ofFuture {a : AsyncBuffer ρ} {keep : Bool} (empty : c.queue.buffers = []) :
    (c.receive (.ofFuture a keep)).queue.buffers = [.async a] := by
  simp [Channel.receive, Channel.enqueueItem, ScheduleItem.ofFuture, ScheduleItem.isFrontAsync,
    Buffer.isAsync, ScheduleItem.putAfterFirstIntact, empty]

/-- Whether the channel is still there after a single pass. -/
theorem alive_written {t : Turn} :
    (written env c item [t]).alive = true ↔ ((c.receive item).turn env t).next ≠ .remove := by
  rw [written, List.map_cons, List.map_nil, Session.run_cons, Session.run_nil,
    Session.step_turn env rfl]
  exact decide_eq_true_iff

/-- A text in front of nothing else is written in one pass by a kernel that takes it all. -/
theorem drained_ofData {text : Bytes} {keep : Bool} (nonempty : text ≠ [])
    (empty : c.queue.buffers = []) :
    ((c.receive (.ofData text keep)).turn env (taking text)).drained = true := by
  rw [Channel.turn, receive_ofData empty]
  exact drained_memory nonempty []

/-- So is the value of a future. -/
theorem drained_ofFuture {a : AsyncBuffer ρ} {keep : Bool} (value : env.onBarrier a.value ≠ [])
    (empty : c.queue.buffers = []) :
    ((c.receive (.ofFuture a keep)).turn env (taking (env.onBarrier a.value))).drained = true := by
  rw [Channel.turn, receive_ofFuture empty]
  simp only [taking, if_true, value, if_false]
  exact drained_memory value [a.future]

end Queue

/-! ## Two channels -/

section Alike

variable {env : Env ρ κ ι} {c c' : Channel ρ κ} {s s' : Session ρ κ}

/-- What follows a filling depends on the buffers left, and on the flag when there are
none. -/
theorem afterFill_congr (env : Env ρ κ ι) (c c' : Channel ρ κ)
    (same : c.queue.buffers = c'.queue.buffers) (result : Option Bool) :
    (c.afterFill env result).2.1 = (c'.afterFill env result).2.1 ∧
      ((c.afterFill env result).2.1 = false →
        (c.afterFill env result).2.2 = (c'.afterFill env result).2.2) := by
  cases result with
  | none => exact ⟨rfl, fun _ => rfl⟩
  | some filled =>
    by_cases empty : c.queue.buffers = []
    · have empty' : c'.queue.buffers = [] := same ▸ empty
      simp only [Channel.afterFill, empty, empty', if_true]
      split_ifs <;> simp
    · have some : c'.queue.buffers ≠ [] := same ▸ empty
      cases filled <;> simp [Channel.afterFill, empty, some]

/-- Two passes that differ at most in how they end once the queue is empty. -/
structure SamePass (r r' : Turned ρ κ) : Prop where
  accepted : r.accepted = r'.accepted
  buffers : r.channel.queue.buffers = r'.channel.queue.buffers
  drained : r.drained = r'.drained
  next : r.drained = false → r.next = r'.next

theorem write_congr (t : Turn) (resolved resolved' : List FutureId) (start : Buffer ρ)
    (rest : List (Buffer ρ)) :
    SamePass (c.write env t resolved start rest) (c'.write env t resolved' start rest) := by
  let left := (fillChannel env t start).front.toList ++ rest
  have filled := afterFill_congr env { c with queue := { c.queue with buffers := left } }
    { c' with queue := { c'.queue with buffers := left } } rfl (fillChannel env t start).result
  have kept (c : Channel ρ κ) (resolved : List FutureId) :
      (c.write env t resolved start rest).channel.queue.buffers = left :=
    congrArg ScheduleItem.buffers Channel.afterFill_queue
  exact ⟨rfl, (kept c _).trans (kept c' _).symm, filled.1, filled.2⟩

/-- A pass sees the buffers of the queue; only at its end does it see the flag. -/
theorem turn_congr (same : c.queue.buffers = c'.queue.buffers) (t : Turn) :
    SamePass (c.turn env t) (c'.turn env t) := by
  rcases c.turn_cases env t with ⟨queue, turn⟩ | ⟨a, rest, queue, empty, turn⟩ |
    ⟨front, rest, resolved, start, queue, starts, turn⟩
  · have turn' : c'.turn env t = ⟨c'.settle false, [], [], false, .leave⟩ := by
      simp only [Channel.turn, ← same, queue]
    rw [turn, turn']
    exact ⟨rfl, same, rfl, fun _ => rfl⟩
  · -- both wait for the future
    have turn' : c'.turn env t =
        ⟨c'.settle false, [], if t.ready then [a.future] else [], false, .leave⟩ := by
      simp only [Channel.turn, ← same, queue]
      by_cases ready : t.ready = true
      · simp [ready, empty ready]
      · simp [ready]
    rw [turn, turn']
    exact ⟨rfl, same, rfl, fun _ => rfl⟩
  · rw [turn, Channel.turn_of_starts (c := c') (same ▸ queue) starts]
    exact write_congr t resolved resolved start rest

/-- Nothing more is sent: the channel was removed, or its queue is empty. -/
def Session.Done (s : Session ρ κ) : Prop := s.alive = true → s.channel.queue.buffers = []

/-- Two sessions have sent the same, and will. -/
structure Alike (s s' : Session ρ κ) : Prop where
  accepted : s.accepted = s'.accepted
  queues : s.alive = s'.alive ∧ s.channel.queue.buffers = s'.channel.queue.buffers ∨
    s.Done ∧ s'.Done
  decision : s.channel.queue.keepFileOpen = s'.channel.queue.keepFileOpen → s.alive = s'.alive

/-- A session that is done stays so, and sends nothing. -/
theorem done_step (env : Env ρ κ ι) (done : s.Done) (t : Turn) :
    (s.step env (.turn t)).Done ∧ (s.step env (.turn t)).accepted = s.accepted ∧
      (s.step env (.turn t)).alive = s.alive := by
  by_cases alive : s.alive = true
  · have queue := done alive
    have turn : s.channel.turn env t = ⟨s.channel.settle false, [], [], false, .leave⟩ := by
      simp only [Channel.turn, queue]
    rw [Session.step_turn env alive, turn]
    refine ⟨fun _ => queue, List.append_nil _, ?_⟩
    simp [Session.after, alive]
  · rw [Session.step, if_neg alive]
    exact ⟨done, rfl, rfl⟩

theorem keep_step (t : Turn) :
    (s.step env (.turn t)).channel.queue.keepFileOpen = s.channel.queue.keepFileOpen :=
  run_turns_keep s [t]

/-- Sessions that go through the same pass. -/
theorem Alike.of_pass {t : Turn} (accepted : s.accepted = s'.accepted)
    (same : SamePass (s.channel.turn env t) (s'.channel.turn env t)) :
    Alike (s.after (s.channel.turn env t)) (s'.after (s'.channel.turn env t)) := by
  have sent : (s.after (s.channel.turn env t)).accepted =
      (s'.after (s'.channel.turn env t)).accepted := by
    simp only [Session.after, accepted, same.accepted]
  cases emptied : (s.channel.turn env t).drained with
  | false =>
    have alike : (s.after (s.channel.turn env t)).alive =
        (s'.after (s'.channel.turn env t)).alive := by
      simp only [Session.after, same.next emptied]
    exact ⟨sent, .inl ⟨alike, same.buffers⟩, fun _ => alike⟩
  | true =>
    -- Both queues are empty now, and the flags decide.
    have empty := drained_empty emptied
    refine ⟨sent, .inr ⟨fun _ => empty, fun _ => same.buffers ▸ empty⟩, fun keep => ?_⟩
    have decides := remove_of_drained emptied
    have decides' := remove_of_drained (same.drained ▸ emptied)
    simp only [Session.after, (s.channel.turn_queue env t).1,
      (s'.channel.turn_queue env t).1] at keep
    rw [keep, ← decides'] at decides
    simp only [Session.after, decide_eq_decide]
    exact decides

theorem Alike.turn (env : Env ρ κ ι) (h : Alike s s') (t : Turn) :
    Alike (s.step env (.turn t)) (s'.step env (.turn t)) := by
  rcases h.queues with ⟨lives, same⟩ | ⟨done, done'⟩
  · by_cases alive : s.alive = true
    · have alive' : s'.alive = true := lives ▸ alive
      rw [Session.step_turn env alive, Session.step_turn env alive']
      exact .of_pass h.accepted (turn_congr same t)
    · have dead' : ¬ s'.alive = true := lives ▸ alive
      rw [Session.step, if_neg alive, Session.step, if_neg dead']
      exact h
  · obtain ⟨done, accepted, alive⟩ := done_step env done t
    obtain ⟨done', accepted', alive'⟩ := done_step env done' t
    refine ⟨?_, .inr ⟨done, done'⟩, fun keep => ?_⟩
    · rw [accepted, accepted', h.accepted]
    · rw [keep_step, keep_step] at keep
      rw [alive, alive', h.decision keep]

theorem Alike.turns (env : Env ρ κ ι) (h : Alike s s') (turns : List Turn) :
    Alike (s.run env (turns.map Op.turn)) (s'.run env (turns.map Op.turn)) := by
  induction turns generalizing s s' with
  | nil => exact h
  | cons t turns ih => exact ih (h.turn env t)

/-- The outcomes from the pass on that finds the future ready. -/
def fromReady (turns : List Turn) : List Turn := turns.dropWhile fun t => !t.ready

/-- A future, and the bytes of its value in its place, send the same; they are decided about
alike if the flags are. -/
theorem future_alike (env : Env ρ κ ι) (a : AsyncBuffer ρ) (s s' : Session ρ κ)
    (value : env.onBarrier a.value ≠ [])
    (alive : s.alive = true) (alive' : s'.alive = true)
    (queue : s.channel.queue.buffers = [.memory (.new (env.onBarrier a.value))])
    (queue' : s'.channel.queue.buffers = [.async a]) (accepted : s.accepted = s'.accepted)
    (turns : List Turn) :
    (s.run env ((fromReady turns).map Op.turn)).accepted =
        (s'.run env (turns.map Op.turn)).accepted ∧
      (s.channel.queue.keepFileOpen = s'.channel.queue.keepFileOpen →
        (s.run env ((fromReady turns).map Op.turn)).alive =
          (s'.run env (turns.map Op.turn)).alive) := by
  induction turns generalizing s' with
  | nil => exact ⟨accepted, fun _ => alive.trans alive'.symm⟩
  | cons t turns ih =>
    cases ready : t.ready with
    | false =>
      -- the future is asked in vain, and everything stays as it is
      have waits : s'.channel.turn env t = ⟨s'.channel.settle false, [], [], false, .leave⟩ := by
        simp [Channel.turn, queue', ready]
      have later := @ih (s'.step env (.turn t))
        (by rw [Session.step_turn env alive', waits]; simp [Session.after])
        (by rw [Session.step_turn env alive', waits]; exact queue')
        (by rw [Session.step_turn env alive', waits]; simp [Session.after, accepted])
      simp only [fromReady, List.dropWhile_cons, ready, Bool.not_false, if_true]
      refine ⟨later.1, fun keep => later.2 ?_⟩
      rw [keep, keep_step]
    | true =>
      have turn : s.channel.turn env t = s.channel.write env t []
          (.memory (.new (env.onBarrier a.value))) [] := by
        simp [Channel.turn, queue]
      have turn' : s'.channel.turn env t = s'.channel.write env t [a.future]
          (.memory (.new (env.onBarrier a.value))) [] := by
        simp [Channel.turn, queue', ready, value]
      have same : SamePass (s.channel.turn env t) (s'.channel.turn env t) := by
        rw [turn, turn']
        exact write_congr t _ _ _ _
      have first : Alike (s.step env (.turn t)) (s'.step env (.turn t)) := by
        rw [Session.step_turn env alive, Session.step_turn env alive']
        exact .of_pass accepted same
      have later := first.turns env turns
      simp only [fromReady, List.dropWhile_cons, ready, Bool.not_true, Bool.false_eq_true, if_false]
      refine ⟨later.accepted, fun keep => later.decision ?_⟩
      rw [run_turns_keep, run_turns_keep, keep_step, keep_step, keep]

end Alike

/-! ## Complete transmission -/

/-- The passes before the last one have left the channel, and the last one has emptied its
queue. -/
structure Transmitted (env : Env ρ κ ι) (c : Channel ρ κ) (item : ScheduleItem ρ)
    (turns : List Turn) (t : Turn) : Prop where
  alive : (written env c item turns).alive = true
  drained : ((written env c item turns).channel.turn env t).drained = true

section Transmission

variable {env : Env ρ κ ι} {c : Channel ρ κ} {reply : Reply ρ} {turns : List Turn} {t : Turn}

/-- Nothing but the passes has happened to the channel since the reply was queued. -/
theorem written_eq_run (env : Env ρ κ ι) (c : Channel ρ κ) (reply : Reply ρ)
    (turns : List Turn) :
    written env c reply.item turns =
      (Session.start c).run env (.enqueue reply :: turns.map Op.turn) :=
  rfl

theorem appendsAlong_turns (s : Session ρ κ) (turns : List Turn) :
    AppendsAlong env s (turns.map Op.turn) := by
  induction turns generalizing s with
  | nil => exact appendsAlong_nil
  | cons t turns ih => exact appendsAlong_cons.mpr ⟨trivial, ih _⟩

theorem offered_turns (turns : List Turn) : offered (turns.map (Op.turn (ρ := ρ))) = [] := by
  rw [offered, List.flatMap_map, List.flatMap_eq_nil_iff]
  intro t _
  rfl

theorem written_snoc (alive : (written env c reply.item turns).alive = true) :
    written env c reply.item (turns ++ [t]) =
      (written env c reply.item turns).after
        ((written env c reply.item turns).channel.turn env t) := by
  rw [written, List.map_append, Session.run_append, ← written, List.map_singleton,
    Session.run_cons, Session.run_nil, Session.step_turn env alive]

/-- The kernel gets all of the reply. -/
theorem Transmitted.accepted (values : ∀ v, env.onBarrier v ≠ [])
    (empty : c.queue.buffers = []) (sync : reply.isAsync = false)
    (covered : ∀ b ∈ reply.item.buffers, b.Covered env.files)
    (h : Transmitted env c reply.item turns t) :
    (written env c reply.item (turns ++ [t])).accepted = env.contents reply.item.buffers := by
  have whole : offered (.enqueue reply :: turns.map Op.turn) = reply.item.buffers := by
    have rest := offered_turns (ρ := ρ) turns
    rw [offered] at rest ⊢
    rw [List.flatMap_cons, rest, List.append_nil]
    rfl
  have appends : AppendsAlong env (.start c) (.enqueue reply :: turns.map Op.turn) := by
    refine appendsAlong_cons.mpr ⟨fun _ async => ?_, appendsAlong_turns _ turns⟩
    rw [sync] at async
    cases async
  have delivered := delivered_run values (delivered_start empty) (whole.symm ▸ covered) appends
  rw [← written_eq_run, whole] at delivered
  rw [written_snoc h.alive]
  exact (delivered.kept h.alive).drained values covered h.drained

/-- And the flag of the reply decides about the channel. -/
theorem Transmitted.keeps (sync : reply.isAsync = false)
    (h : Transmitted env c reply.item turns t) :
    (written env c reply.item (turns ++ [t])).alive = reply.item.keepFileOpen := by
  have flag : (written env c reply.item turns).channel.queue.keepFileOpen =
      reply.item.keepFileOpen := by
    rw [written, run_turns_keep]
    refine receive_keep.trans (if_neg ?_)
    rw [show reply.item.isFrontAsync = reply.isAsync from rfl, sync]
    exact Bool.false_ne_true
  rw [written_snoc h.alive, ← flag, Bool.eq_iff_iff, ← remove_of_drained h.drained]
  exact decide_eq_true_iff

/-- A kernel that takes all of a buffer at once. -/
def Env.taking (env : Env ρ κ ι) (b : Buffer ρ) : Turn :=
  ⟨true, [.ok (env.content b).length], .ok (env.content b).length, false⟩

theorem fillChannel_taking {b : Buffer ρ} (sync : b.isAsync = false)
    (covered : b.Covered env.files) (full : env.content b ≠ []) :
    (fillChannel env (env.taking b) b).front = none ∧
      (fillChannel env (env.taking b) b).result = some false := by
  have long : (env.content b).length ≠ 0 := by simpa using full
  cases b with
  | memory b =>
    have long : b.data.length ≠ 0 := long
    have all : writeSome [.ok b.data.length] b.data = ⟨[b.data], b.data.length, false⟩ := by
      simp [writeSome]
    have sends : (env.taking (.memory b)).sends = [.ok b.data.length] := rfl
    simp [fillChannel, fillMemory, sends, all, long]
  | file f =>
    -- the file is as long as it was said to be, so nothing is left
    have sent := UnixFile.length_unsent covered
    have long : (f.unsent env.files).length ≠ 0 := long
    have sendfile : (env.taking (.file f)).sendfile = .ok (f.unsent env.files).length := rfl
    simp [fillChannel, fillFile, sendfile, UnixFile.sendToFd, sent, sent ▸ long]
  | async a => cases sync

/-- A reply of buffers none of which is empty can be transmitted completely. -/
theorem exists_transmission {s : Session ρ κ} (alive : s.alive = true)
    (nonempty : s.channel.queue.buffers ≠ [])
    (sync : ∀ b ∈ s.channel.queue.buffers, b.isAsync = false)
    (covered : ∀ b ∈ s.channel.queue.buffers, b.Covered env.files)
    (full : ∀ b ∈ s.channel.queue.buffers, env.content b ≠ []) :
    ∃ (turns : List Turn) (t : Turn), (s.run env (turns.map Op.turn)).alive = true ∧
      ((s.run env (turns.map Op.turn)).channel.turn env t).drained = true := by
  generalize queue : s.channel.queue.buffers = buffers at nonempty sync covered full
  induction buffers generalizing s with
  | nil => exact absurd rfl nonempty
  | cons b rest ih =>
    obtain ⟨removed, goes⟩ := fillChannel_taking (sync b List.mem_cons_self)
      (covered b List.mem_cons_self) (full b List.mem_cons_self)
    have starts : Channel.Starts env (env.taking b) b [] b := .sync (sync b List.mem_cons_self)
    have turn := Channel.turn_of_starts queue starts
    have left : (s.channel.turn env (env.taking b)).channel.queue.buffers = rest := by
      rw [turn, Channel.write, removed]
      exact congrArg ScheduleItem.buffers Channel.afterFill_queue
    cases rest with
    | nil =>
      refine ⟨[], env.taking b, alive, ?_⟩
      rw [List.map_nil, Session.run_nil, turn]
      exact Channel.afterFill_drained.mpr ⟨by simp [goes], by simp [removed]⟩
    | cons b' rest =>
      -- The loop goes on with the next buffer: use IH.
      have again : (s.channel.turn env (env.taking b)).next = .again := by
        rw [turn]
        exact Channel.afterFill_again.mpr ⟨goes, by simp [removed]⟩
      have step := Session.step_turn env alive (env.taking b)
      obtain ⟨turns, t, alive', drained⟩ := ih (s := s.after (s.channel.turn env (env.taking b)))
        (by simp [Session.after, again]) left (List.cons_ne_nil b' rest)
        (fun x mem => sync x (List.mem_cons_of_mem b mem))
        (fun x mem => covered x (List.mem_cons_of_mem b mem))
        (fun x mem => full x (List.mem_cons_of_mem b mem))
      refine ⟨env.taking b :: turns, t, ?_⟩
      rw [List.map_cons, Session.run_cons, step]
      exact ⟨alive', drained⟩

theorem receive_buffers (empty : c.queue.buffers = []) (sync : reply.isAsync = false) :
    (c.receive reply.item).queue.buffers = reply.item.buffers := by
  have front : reply.item.isFrontAsync = false := sync
  simp [Channel.receive, Channel.enqueueItem, front, ScheduleItem.putBack, empty]

theorem exists_transmitted (empty : c.queue.buffers = []) (sync : reply.isAsync = false)
    (covered : ∀ b ∈ reply.item.buffers, b.Covered env.files)
    (full : ∀ b ∈ reply.item.buffers, env.content b ≠ []) :
    ∃ turns t, Transmitted env c reply.item turns t := by
  have queue := receive_buffers empty sync
  have all : ∀ b ∈ reply.item.buffers, b.isAsync = false := by
    rcases reply.uniform with all | ⟨a, single⟩
    · exact all
    · -- a future is in front of nothing else
      have async := reply.isAsync_iff.mpr ⟨a, single⟩
      rw [sync] at async
      cases async
  have sent : ∃ (turns : List Turn) (t : Turn), (written env c reply.item turns).alive = true ∧
      ((written env c reply.item turns).channel.turn env t).drained = true :=
    exists_transmission (s := .start (c.receive reply.item)) rfl (queue.symm ▸ reply.nonempty)
      (queue.symm ▸ all) (queue.symm ▸ covered) (queue.symm ▸ full)
  obtain ⟨turns, t, alive, drained⟩ := sent
  exact ⟨turns, t, alive, drained⟩

end Transmission

end Viking.Io
