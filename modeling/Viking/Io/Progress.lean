/-
# The loop of `process_write`

`process_write` goes round until the queue is drained, the socket is filled, a future is
awaited or an exception leaves the loop, and between two passes it counts on having got
something done. `work` measures what is left to do: the bytes of the queue, and for each
buffer the step that takes it away, or the two that resolve it and take it away.

One result of `fill_channel` gets nothing done. `send_to_fd` returns the `-1` of a failed
`sendfile` as a number when it has no case for the `errno`, and the loop takes it for a
count. `writesOut_iff` says that the loop does all that it should iff this never happens
on the way, and `turn_progresses` that any other pass does. A pass that maps a file past
its pages ends the process, and there is no loop after it.
-/

import Viking.Io.Filling

namespace Viking.Io

variable {ρ κ ι : Type}

/-! ## The work that is left -/

/-- The passes that a buffer can take at most: one for each of its bytes, one in which it
goes and, when it is a future, one in which it is resolved. -/
def Buffer.work (env : Env ρ κ ι) : Buffer ρ → ℕ
  | .memory b => 1 + b.data.length
  | .file f => 1 + f.sizeLeft
  | .async a => 2 + (env.onBarrier a.value).length

def work (env : Env ρ κ ι) (buffers : List (Buffer ρ)) : ℕ := (buffers.map (Buffer.work env)).sum

/-- The buffer that `fill_channel` is called on in a pass: the front of the queue, or what
a future there has become. -/
def called (env : Env ρ κ ι) (t : Turn) (c : Channel ρ κ) : Option (Buffer ρ) :=
  match c.queue.buffers with
  | [] => none
  | .async a :: _ =>
    if t.ready ∧ env.onBarrier a.value ≠ [] then some (.memory (.new (env.onBarrier a.value)))
    else none
  | front :: _ => some front

/-! ## What a pass should do -/

/-- `fill_channel` reported a full socket. -/
def Fills (env : Env ρ κ ι) (t : Turn) (c : Channel ρ κ) : Prop :=
  ∃ b, called env t c = some b ∧ (fillChannel env t b).result = some true

/-- The front is a future whose value does not come. -/
def Waits (env : Env ρ κ ι) (t : Turn) (c : Channel ρ κ) : Prop :=
  (∃ a rest, c.queue.buffers = .async a :: rest) ∧ called env t c = none

/-- `fill_channel` threw. -/
def Throws (env : Env ρ κ ι) (t : Turn) (c : Channel ρ κ) : Prop :=
  ∃ b, called env t c = some b ∧ (fillChannel env t b).result = none

/-- The pass calls `sendfile`, which fails with this `errno`. -/
def SendfileFails (env : Env ρ κ ι) (t : Turn) (c : Channel ρ κ) (errno : Errno) : Prop :=
  ∃ f, called env t c = some (.file f) ∧ t.sendfile = .failed errno

/-- The pass gets something done, or ends the loop for one of the three other reasons, and
a `sendfile` that fails for good removes the channel. -/
def Progresses (env : Env ρ κ ι) (t : Turn) (c : Channel ρ κ) : Prop :=
  (work env (c.turn env t).channel.queue.buffers < work env c.queue.buffers ∨
    Fills env t c ∨ Waits env t c ∨ Throws env t c) ∧
  ∀ errno, SendfileFails env t c errno → errno ≠ .eagain → errno ≠ .einval →
    (c.turn env t).next = .remove

/-- No `sendfile` of the pass fails with an `errno` that `send_to_fd` has no case for. -/
def Listed (env : Env ρ κ ι) (t : Turn) (c : Channel ρ κ) : Prop :=
  ∀ errno, SendfileFails env t c errno → errno.Listed

/-! ## One pass -/

section Pass

variable {env : Env ρ κ ι} {t : Turn} {c : Channel ρ κ}

@[simp] theorem work_nil : work env [] = 0 := rfl

@[simp] theorem work_cons (b : Buffer ρ) (rest : List (Buffer ρ)) :
    work env (b :: rest) = b.work env + work env rest := by
  simp [work]

theorem work_append (buffers buffers' : List (Buffer ρ)) :
    work env (buffers ++ buffers') = work env buffers + work env buffers' := by
  simp [work]

/-- A memory buffer that the socket took something of has shrunk or is gone. -/
theorem fillMemory_work (env : Env ρ κ ι) {b : MemoryBuffer}
    (written : (fillMemory t b : Filling ρ).result = some false) :
    work env (fillMemory t b : Filling ρ).front.toList < 1 + b.data.length := by
  have le := writeSome_le t.sends b.data
  unfold fillMemory at written ⊢
  dsimp only at written ⊢
  split_ifs at written ⊢ with closed nothing everything
  · cases written
  · simp only [Option.toList_none, work_nil]
    omega
  · simp only [Option.toList_some, work_cons, work_nil, Buffer.work, List.length_drop]
    omega

/-- A buffer in memory that replaces a file is no longer than what was left of the file. -/
theorem length_toMemoryBuffer_le {files : Fd → Bytes} {page : PageSize} {mapped : Bool}
    {f : UnixFile} {b : MemoryBuffer} (replaced : f.toMemoryBuffer files page mapped = some b) :
    b.data.length ≤ f.sizeLeft := by
  rw [(UnixFile.toMemoryBuffer_eq_some.mp replaced).2, MemoryBuffer.new]
  exact List.length_take_le _ _

/-- A file of which `sendfile` sent something has less left or is gone, and so has the
buffer that replaces it. -/
theorem fillFile_work {f : UnixFile}
    (listed : ∀ errno, t.sendfile = .failed errno → errno.Listed)
    (written : (fillFile env t f).result = some false) :
    work env (fillFile env t f).front.toList < 1 + f.sizeLeft := by
  cases outcome : t.sendfile with
  | ok count =>
    have le := f.length_take_unsent_le env.files count
    simp only [fillFile, outcome, UnixFile.sendToFd] at written ⊢
    split_ifs at written ⊢ with nothing everything
    · cases written
    · simp only [Option.toList_none, work_nil]
      omega
    · simp only [Option.toList_some, work_cons, work_nil, Buffer.work, UnixFile.advance,
        UnixFile.sizeLeft] at le nothing ⊢
      omega
  | failed errno =>
    cases errno with
    | eagain => simp [fillFile, outcome, UnixFile.sendToFd] at written
    | einval =>
      simp only [fillFile, outcome, UnixFile.sendToFd] at written ⊢
      cases replaced : f.toMemoryBuffer env.files env.page t.mapped with
      | none => simp [replaced] at written
      | some b =>
        simp only [replaced] at written ⊢
        have := fillMemory_work env written
        have := length_toMemoryBuffer_le replaced
        omega
    | ebadf | eio | epipe => simp [fillFile, outcome, UnixFile.sendToFd] at written
    | efault | econnreset | other => exact absurd (listed _ outcome) (by decide)

/-- A pass that calls `fill_channel` replaces the front by what that leaves. -/
theorem turn_of_called {b : Buffer ρ} (calls : called env t c = some b) :
    ∃ front rest resolved, c.queue.buffers = front :: rest ∧ b.work env ≤ front.work env ∧
      b.isAsync = false ∧ c.turn env t = c.write env t resolved b rest := by
  rcases c.turn_cases env t with ⟨queue, -⟩ | ⟨a, rest, queue, empty, -⟩ |
    ⟨front, rest, resolved, start, queue, starts, turn⟩
  · simp [called, queue] at calls
  -- A future that does not come keeps the pass from the call.
  · simp only [called, queue] at calls
    split_ifs at calls with ready
    exact absurd (empty ready.1) ready.2
  · refine ⟨front, rest, resolved, queue, ?_⟩
    cases starts with
    | sync sync =>
      have same : b = front := by
        cases front with
        | memory b => simpa [called, queue, eq_comm] using calls
        | file f => simpa [called, queue, eq_comm] using calls
        | async a => cases sync
      subst same
      exact ⟨le_refl _, sync, turn⟩
    | resolved a ready value =>
      simp only [called, queue, ready, ne_eq, value, not_false_eq_true, and_self, if_true,
        Option.some.injEq] at calls
      subst calls
      refine ⟨?_, rfl, turn⟩
      simp [Buffer.work, MemoryBuffer.new]

theorem waits_of_not_called (nonempty : c.queue.buffers ≠ []) (none : called env t c = none) :
    Waits env t c := by
  refine ⟨?_, none⟩
  cases queue : c.queue.buffers with
  | nil => exact absurd queue nonempty
  | cons front rest =>
    cases front with
    | memory b => simp [called, queue] at none
    | file f => simp [called, queue] at none
    | async a => exact ⟨a, rest, rfl⟩

/-- A call that returns `false` with the queue not drained makes the loop go on, and one
that throws removes the channel. -/
theorem next_write {resolved : List FutureId} {b : Buffer ρ} {rest : List (Buffer ρ)} :
    ((c.write env t resolved b rest).next = .again ↔
      (fillChannel env t b).result = some false ∧ (fillChannel env t b).front.toList ++ rest ≠ []) ∧
    ((fillChannel env t b).result = none → (c.write env t resolved b rest).next = .remove) :=
  ⟨Channel.afterFill_again, fun threw => Channel.afterFill_remove.mpr (.inl threw)⟩

theorem buffers_write {resolved : List FutureId} {b : Buffer ρ} {rest : List (Buffer ρ)} :
    (c.write env t resolved b rest).channel.queue.buffers =
      (fillChannel env t b).front.toList ++ rest :=
  congrArg ScheduleItem.buffers Channel.afterFill_queue

/-- A call that returns `false` has got something done. -/
theorem fillChannel_work {b : Buffer ρ} (listed : Listed env t c) (calls : called env t c = some b)
    (sync : b.isAsync = false) (written : (fillChannel env t b).result = some false) :
    work env (fillChannel env t b).front.toList < b.work env := by
  cases b with
  | memory b => exact fillMemory_work env written
  | file f =>
    have listed' : ∀ errno, t.sendfile = .failed errno → errno.Listed :=
      fun errno outcome => listed errno ⟨f, calls, outcome⟩
    exact fillFile_work listed' written
  | async a => cases sync

/-- Of a pass over a queue that is not empty: it does what it should iff no `sendfile` in
it fails with an `errno` without a case. -/
theorem turn_progresses (nonempty : c.queue.buffers ≠ []) :
    Progresses env t c ↔ Listed env t c := by
  constructor
  · rintro ⟨-, removes⟩ errno fails
    by_contra unlisted
    have full : errno ≠ .eagain := fun same => unlisted (.inl same)
    have diy : errno ≠ .einval := fun same => unlisted (.inr (.inl same))
    obtain ⟨f, calls, outcome⟩ := fails
    obtain ⟨front, rest, resolved, -, -, -, turn⟩ := turn_of_called calls
    -- The file is still there, so the loop goes on with it.
    have again : (c.turn env t).next = .again := by
      rw [turn, next_write.1, fillChannel, fillFile_unlisted outcome unlisted]
      simp
    rw [removes errno ⟨f, calls, outcome⟩ full diy] at again
    cases again
  · intro listed
    constructor
    · cases calls : called env t c with
      | none => exact .inr (.inr (.inl (waits_of_not_called nonempty calls)))
      | some b =>
        obtain ⟨front, rest, resolved, queue, le, sync, turn⟩ := turn_of_called calls
        rcases result : (fillChannel env t b).result with - | (- | -)
        · exact .inr (.inr (.inr ⟨b, calls, result⟩))
        · have less := fillChannel_work listed calls sync result
          left
          rw [turn, buffers_write, queue, work_append, work_cons]
          omega
        · exact .inr (.inl ⟨b, calls, result⟩)
    · rintro errno ⟨f, calls, outcome⟩ full diy
      obtain ⟨front, rest, resolved, -, -, -, turn⟩ := turn_of_called calls
      rw [turn]
      exact next_write.2 (fillFile_listed outcome (listed errno ⟨f, calls, outcome⟩) full diy)

/-- A pass after which the loop goes on has neither filled the socket nor waited nor
thrown, so it has got something done. -/
theorem work_lt_of_again (progresses : Progresses env t c) (again : (c.turn env t).next = .again) :
    work env (c.turn env t).channel.queue.buffers < work env c.queue.buffers := by
  rcases progresses.1 with less | ⟨b, calls, full⟩ | ⟨⟨a, rest, queue⟩, none⟩ | ⟨b, calls, threw⟩
  · exact less
  · obtain ⟨front, rest, resolved, -, -, -, turn⟩ := turn_of_called calls
    rw [turn, next_write.1, full] at again
    cases again.1
  · simp only [called, queue] at none
    split_ifs at none with ready
    simp only [not_and, not_not] at ready
    simp only [Channel.turn, queue] at again
    rw [if_pos] at again
    · cases again
    · split_ifs with h
      · exact ready h
      · rfl
  · obtain ⟨front, rest, resolved, -, -, -, turn⟩ := turn_of_called calls
    rw [turn, next_write.1, threw] at again
    cases again.1

end Pass

/-! ## All passes of a call -/

/-- The call of `process_write` that meets the outcomes of a stream, cut off before pass `n`. -/
def passed (env : Env ρ κ ι) (ts : ℕ → Turn) (c : Channel ρ κ) (n : ℕ) : Turned ρ κ :=
  processWrite env ((List.range n).map ts) c

/-- The pass touches what it mapped past the pages of a file, which ends the process. -/
def EndsProcess (env : Env ρ κ ι) (t : Turn) (c : Channel ρ κ) : Prop :=
  ∃ b, called env t c = some b ∧ Kills env t b

/-- Pass `n` of the call is made, on the channel `d`, by a process that is still there. -/
structure Passes (env : Env ρ κ ι) (ts : ℕ → Turn) (c : Channel ρ κ) (n : ℕ)
    (d : Channel ρ κ) : Prop where
  again : (passed env ts c n).next = .again
  channel : (passed env ts c n).channel = d
  alive : ∀ m < n, ¬ EndsProcess env (ts m) (passed env ts c m).channel

/-- The loop ends, if not with the process, and each pass on the way does what it should. -/
def WritesOut (env : Env ρ κ ι) (ts : ℕ → Turn) (c : Channel ρ κ) : Prop :=
  ((∃ n, (passed env ts c n).next ≠ .again) ∨
    ∃ n d, Passes env ts c n d ∧ EndsProcess env (ts n) d) ∧
  ∀ n d, Passes env ts c n d → ¬ EndsProcess env (ts n) d → Progresses env (ts n) d

section Loop

variable {env : Env ρ κ ι} {ts : ℕ → Turn} {c d : Channel ρ κ} {n : ℕ}

theorem passes_zero : Passes env ts c 0 d ↔ c.queue.buffers ≠ [] ∧ c = d := by
  have none : ∀ m < 0, ¬ EndsProcess env (ts m) (passed env ts c m).channel := by simp
  by_cases queue : c.queue.buffers = []
  · refine iff_of_false (fun passes => ?_) fun h => h.1 queue
    have again := passes.again
    simp [passed, processWrite, queue] at again
  · have first : passed env ts c 0 = ⟨c, [], [], false, .again⟩ := by
      simp [passed, processWrite, queue]
    constructor
    · rintro ⟨-, channel, -⟩
      rw [first] at channel
      exact ⟨queue, channel⟩
    · rintro ⟨-, rfl⟩
      exact ⟨by rw [first], by rw [first], none⟩

theorem passed_succ : passed env ts c (n + 1) =
    processWrite env (ts 0 :: (List.range n).map fun i => ts (i + 1)) c := by
  rw [passed, List.range_succ_eq_map, List.map_cons, List.map_map]
  rfl

/-- What is called in the first pass depends on the queue only. -/
theorem endsProcess_passed_zero :
    EndsProcess env (ts 0) (passed env ts c 0).channel ↔ EndsProcess env (ts 0) c := by
  simp only [passed, List.range_zero, List.map_nil, processWrite]
  split_ifs <;> rfl

/-- The channel and the way of ending of later passes are those of a call that begins where
the first pass ended. -/
theorem passed_succ_again (again : (c.turn env (ts 0)).next = .again) :
    (passed env ts c (n + 1)).next =
        (passed env (fun i => ts (i + 1)) (c.turn env (ts 0)).channel n).next ∧
      (passed env ts c (n + 1)).channel =
        (passed env (fun i => ts (i + 1)) (c.turn env (ts 0)).channel n).channel := by
  rw [passed_succ]
  simp only [processWrite, again]
  exact ⟨rfl, rfl⟩

/-- The passes after the first one are those of a call that begins where it ended. -/
theorem passes_succ : Passes env ts c (n + 1) d ↔
    (c.turn env (ts 0)).next = .again ∧ ¬ EndsProcess env (ts 0) c ∧
      Passes env (fun i => ts (i + 1)) (c.turn env (ts 0)).channel n d := by
  by_cases next : (c.turn env (ts 0)).next = .again
  · have later := fun m => passed_succ_again (n := m) next
    constructor
    · rintro ⟨again, channel, alive⟩
      refine ⟨next, fun ends => ?_, (later n).1 ▸ again, (later n).2 ▸ channel, fun m less => ?_⟩
      · exact alive 0 n.succ_pos (endsProcess_passed_zero.mpr ends)
      · exact (later m).2 ▸ alive (m + 1) (Nat.succ_lt_succ less)
    · rintro ⟨-, first, again, channel, alive⟩
      refine ⟨(later n).1 ▸ again, (later n).2 ▸ channel, fun m less => ?_⟩
      cases m with
      | zero => exact fun ends => first (endsProcess_passed_zero.mp ends)
      | succ m => exact (later m).2 ▸ alive m (Nat.lt_of_succ_lt_succ less)
  · refine iff_of_false (fun passes => next ?_) fun h => next h.1
    have again := passes.again
    rw [passed_succ] at again
    cases ends : (c.turn env (ts 0)).next with
    | again => rfl
    | leave | remove =>
      simp only [processWrite, ends] at again
      cases again

/-- A pass is made on a queue that is not empty. -/
theorem Passes.nonempty (passes : Passes env ts c n d) : d.queue.buffers ≠ [] := by
  induction n generalizing ts c with
  | zero =>
    obtain ⟨nonempty, rfl⟩ := passes_zero.mp passes
    exact nonempty
  | succ n ih => exact ih (passes_succ.mp passes).2.2

/-- A pass that ends the process was told that the file system is without `sendfile`. -/
theorem EndsProcess.listed {t : Turn} (ends : EndsProcess env t c) : Listed env t c := by
  obtain ⟨b, calls, kills⟩ := ends
  rintro errno ⟨f, called, outcome⟩
  rw [calls, Option.some.injEq] at called
  subst called
  obtain ⟨diy, -⟩ := kills
  rw [outcome, SysResult.failed.injEq] at diy
  exact .inr (.inl diy)

/-- Passes that all get something done come to an end: the work decreases as long as the
loop goes on. -/
theorem ends_of_progresses (progresses : ∀ n d, Passes env ts c n d →
      ¬ EndsProcess env (ts n) d → Progresses env (ts n) d) :
    (∃ n, (passed env ts c n).next ≠ .again) ∨
      ∃ n d, Passes env ts c n d ∧ EndsProcess env (ts n) d := by
  induction left : work env c.queue.buffers using Nat.strong_induction_on generalizing ts c with
  | _ left ih =>
    by_cases queue : c.queue.buffers = []
    · exact .inl ⟨0, by simp [passed, processWrite, queue]⟩
    have made : Passes env ts c 0 c := passes_zero.mpr ⟨queue, rfl⟩
    by_cases killed : EndsProcess env (ts 0) c
    · exact .inr ⟨0, c, made, killed⟩
    have first := progresses 0 c made killed
    by_cases again : (c.turn env (ts 0)).next = .again
    -- The loop goes on with less to do: use IH on the rest of the stream.
    · have less := work_lt_of_again first again
      have later := fun n d passes =>
        progresses (n + 1) d (passes_succ.mpr ⟨again, killed, passes⟩)
      rcases ih _ (left ▸ less) later rfl with ⟨n, ends⟩ | ⟨n, d, passes, ends⟩
      · exact .inl ⟨n + 1, fun goes => ends ((passed_succ_again again).1 ▸ goes)⟩
      · exact .inr ⟨n + 1, d, passes_succ.mpr ⟨again, killed, passes⟩, ends⟩
    · refine .inl ⟨1, ?_⟩
      rw [passed_succ]
      cases next : (c.turn env (ts 0)).next with
      | again => exact absurd next again
      | leave | remove => simp [processWrite, next]

/-- On every queue and every stream of outcomes: the loop ends and each pass does what it
should, as long as the process is there, iff no `sendfile` on the way fails with an `errno`
that `send_to_fd` has no case for. -/
theorem writesOut_iff (env : Env ρ κ ι) (ts : ℕ → Turn) (c : Channel ρ κ) :
    WritesOut env ts c ↔ ∀ n d, Passes env ts c n d → Listed env (ts n) d := by
  constructor
  · rintro ⟨-, progresses⟩ n d passes
    by_cases killed : EndsProcess env (ts n) d
    · exact killed.listed
    · exact (turn_progresses passes.nonempty).mp (progresses n d passes killed)
  · intro listed
    have progresses : ∀ n d, Passes env ts c n d → ¬ EndsProcess env (ts n) d →
        Progresses env (ts n) d := fun n d passes _ =>
      (turn_progresses passes.nonempty).mpr (listed n d passes)
    exact ⟨ends_of_progresses progresses, progresses⟩

/-- A loop whose pass leaves the channel as it was does not end. -/
theorem passed_of_stuck {t : Turn} (nonempty : c.queue.buffers ≠ [])
    (again : (c.turn env t).next = .again) (same : (c.turn env t).channel = c) (n : ℕ) :
    (passed env (fun _ => t) c n).next = .again := by
  induction n with
  | zero => simp [passed, processWrite, nonempty]
  | succ n ih =>
    rw [passed_succ]
    simp only [processWrite, again, same]
    exact ih

/-- A file that `sendfile` never takes a byte of, always for a reason without a case, keeps
`process_write` from returning. -/
theorem writesOut_fails :
    let env : Env Unit Unit Unit :=
      ⟨fun _ => [10], ⟨12⟩, fun _ => [], fun _ _ => ((), .error (.thrown .pollError)), id, ()⟩
    let c : Channel Unit Unit := ⟨false, ⟨[.file (.opened [] 3 1 (by decide))], true⟩, 0, ()⟩
    let t : Turn := ⟨false, [], .failed .other, true⟩
    (∀ n, (passed env (fun _ => t) c n).next = .again) ∧ ¬ WritesOut env (fun _ => t) c := by
  intro env c t
  have stuck : ∀ n, (passed env (fun _ => t) c n).next = .again :=
    passed_of_stuck (by simp [c]) (by decide) rfl
  refine ⟨stuck, ?_⟩
  rintro ⟨⟨n, ends⟩ | ⟨n, d, -, b, -, kills⟩, -⟩
  · exact ends (stuck n)
  -- No `sendfile` fails with `EINVAL`, so nothing is mapped.
  · cases b with
    | file f => cases kills.1
    | memory b => exact kills
    | async a => exact kills

end Loop

end Viking.Io
