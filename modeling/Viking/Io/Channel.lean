/-
# Channels and writing to them

A channel is a connection with the queue of what is to be written to it. `turn` is
one pass through the loop of `process_write`: it asks for the value of a future at
the front, lets `fillChannel` write what the kernel takes of the front buffer, and
decides how to go on. `processWrite` repeats it over the outcomes it is given, one
`Turn` a pass, and says whether it came to an end.

All that a pass learns from outside is in its `Turn`; what stays the same is in `Env`.
-/

import Viking.Io.Buffers
import Viking.Io.Epoll

namespace Viking.Io

/-- What the scheduler is built on: the content behind each descriptor, the page size,
and the callbacks. `κ` is what a cookie may hold and `ι` what a read depends on. -/
structure Env (ρ κ ι : Type) where
  files : Fd → Bytes
  page : PageSize
  /-- `on_barrier`, for a future that is ready: the bytes of its value -/
  onBarrier : ρ → Bytes
  /-- `on_read` leaves a cookie also when it throws -/
  onRead : ι → κ → κ × Except Fault (ScheduleItem ρ)
  /-- `on_remove`, which sees the channel for its cookie only -/
  onRemove : κ → κ
  /-- the cookie of a new channel, `nullptr` -/
  null : κ

/-- `acceptor` is `!connection_` of the socket. -/
structure Channel (ρ κ : Type) where
  acceptor : Bool
  queue : ScheduleItem ρ
  flags : UInt32
  cookie : κ

/-- The outcomes that one pass through the loop meets: whether the future at the front
is ready, those of the `send`s and of the `sendfile` it makes, and of an `mmap`. -/
structure Turn where
  ready : Bool
  sends : List SysResult
  sendfile : SysResult
  mapped : Bool

variable {ρ κ ι : Type}

/-! ## `fill_channel` -/

/-- What `fill_channel` makes of the buffer at the front: the bytes the kernel took,
what is now at the front (nothing when it was removed), and the value returned, which
is missing when `write_error` was thrown. -/
structure Filling (ρ : Type) where
  accepted : Bytes
  front : Option (Buffer ρ)
  result : Option Bool

/-- `fill_channel` on a memory buffer. -/
def fillMemory (t : Turn) (b : MemoryBuffer) : Filling ρ :=
  let ⟨taken, written, closed⟩ := writeSome t.sends b.data
  let accepted := taken.flatten
  if closed then ⟨accepted, some (.memory b), none⟩
  -- what was written before the exception is gone, and the buffer still holds it
  else if written = 0 then ⟨accepted, some (.memory b), some true⟩
  else if written = b.data.length then ⟨accepted, none, some false⟩
  else ⟨accepted, some (.memory { b with data := b.data.drop written }), some false⟩

/-- `fill_channel` on a file. What the call leaves of a file that a memory buffer
replaces is what `fill_channel` makes of that buffer. -/
def fillFile (env : Env ρ κ ι) (t : Turn) (f : UnixFile) : Filling ρ :=
  let sizeLeft := f.sizeLeft
  match f.sendToFd env.files t.sendfile with
  | (accepted, f, .returned written) =>
    if written = 0 then ⟨accepted, some (.file f), some true⟩
    else if written = sizeLeft then ⟨accepted, none, some false⟩
    else ⟨accepted, some (.file f), some false⟩
  | (accepted, f, .diy) =>
    match f.toMemoryBuffer env.files env.page t.mapped with
    -- `replace_front`, and `fill_channel` once more on the buffer that is in front now
    | some b => fillMemory t b
    | none => ⟨accepted, some (.file f), none⟩
  | (accepted, f, .badFile) | (accepted, f, .brokenPipe) => ⟨accepted, some (.file f), none⟩

/-- `fill_channel`, by the type of the front buffer. -/
def fillChannel (env : Env ρ κ ι) (t : Turn) : Buffer ρ → Filling ρ
  | .memory b => fillMemory t b
  | .file f => fillFile env t f
  | .async a => ⟨[], some (.async a), some false⟩

/-! ## `process_write` -/

/-- How one pass through the loop ends. -/
inductive Next
  /-- the loop goes on -/
  | again
  /-- `process_write` returns, after `poll.update` -/
  | leave
  /-- `process_write` returns, after `remove` -/
  | remove
  deriving DecidableEq, Repr

/-- What one pass leaves. `resolved` are the futures whose value was taken, `drained`
says that the branch for an empty queue was taken. -/
structure Turned (ρ κ : Type) where
  channel : Channel ρ κ
  accepted : Bytes
  resolved : List FutureId
  drained : Bool
  next : Next

namespace Channel

/-- A channel as `add` makes it for a connection. -/
def new (flags : UInt32) (cookie : κ) : Channel ρ κ := ⟨false, .empty false, flags, cookie⟩

/-- The end of `process_write`: edge triggered if the socket was filled. -/
def settle (c : Channel ρ κ) (filled : Bool) : Channel ρ κ :=
  { c with
    flags := if filled then c.flags ||| Epoll.edgeTriggered
      else c.flags &&& ~~~Epoll.edgeTriggered }

/-- The queue is empty and the connection stays open: no more interest in writing, and
`on_remove` is called. -/
def drain (env : Env ρ κ ι) (c : Channel ρ κ) : Channel ρ κ :=
  { c with
    flags := (c.flags &&& ~~~Epoll.write) ||| Epoll.read
    cookie := env.onRemove c.cookie }

/-- What follows a call of `fill_channel` that returned `result`, or threw: the channel,
whether the branch for an empty queue was taken, and how the pass ends. -/
def afterFill (env : Env ρ κ ι) (c : Channel ρ κ) : Option Bool → Channel ρ κ × Bool × Next
  | none => (c, false, .remove)
  | some filled =>
    if c.queue.buffers = [] then
      -- the context is deleted but the channel lives on, and the loop ends with the queue
      if c.queue.keepFileOpen then ((c.drain env).settle filled, true, .leave)
      else (c, true, .remove)
    else if filled then (c.settle true, false, .leave)
    else (c, false, .again)

/-- The pass from the call of `fill_channel` on, with `front` at the front of the queue
and `rest` behind it. -/
def write (env : Env ρ κ ι) (t : Turn) (c : Channel ρ κ) (resolved : List FutureId)
    (front : Buffer ρ) (rest : List (Buffer ρ)) : Turned ρ κ :=
  let filling := fillChannel env t front
  let c := { c with queue := { c.queue with buffers := filling.front.toList ++ rest } }
  let (channel, drained, next) := c.afterFill env filling.result
  ⟨channel, filling.accepted, resolved, drained, next⟩

/-- One pass through the loop. With nothing queued the loop is not entered. -/
def turn (env : Env ρ κ ι) (t : Turn) (c : Channel ρ κ) : Turned ρ κ :=
  match c.queue.buffers with
  | [] => ⟨c.settle false, [], [], false, .leave⟩
  | .async a :: rest =>
    -- a future that is not ready gives an empty buffer, and so would an empty value
    let new := if t.ready then env.onBarrier a.value else []
    let resolved := if t.ready then [a.future] else []
    if new = [] then ⟨c.settle false, [], resolved, false, .leave⟩
    else c.write env t resolved (.memory (.new new)) rest
  | front :: rest => c.write env t [] front rest

end Channel

/-- What a call of `process_write` leaves; it has not come back when the outcomes it was
given have run out within the loop, and then `next` is `again`. -/
def processWrite (env : Env ρ κ ι) : List Turn → Channel ρ κ → Turned ρ κ
  | [], c =>
    if c.queue.buffers = [] then ⟨c.settle false, [], [], false, .leave⟩
    else ⟨c, [], [], false, .again⟩
  | t :: turns, c =>
    let first := c.turn env t
    match first.next with
    | .again =>
      let later := processWrite env turns first.channel
      ⟨later.channel, first.accepted ++ later.accepted, first.resolved ++ later.resolved,
        later.drained, later.next⟩
    | .leave | .remove => first

/-! ## `process_read` -/

/-- `enqueue_item` -/
def Channel.enqueueItem (c : Channel ρ κ) (item : ScheduleItem ρ) (back : Bool) : Channel ρ κ :=
  { c with queue := if back then c.queue.putBack item else c.queue.putAfterFirstIntact item }

/-- What `process_read` does with the item that `on_read` returned, up to the call of
`process_write`: an item with an asynchronous front goes before the first intact
buffer. -/
def Channel.receive (c : Channel ρ κ) (item : ScheduleItem ρ) : Channel ρ κ :=
  { c with flags := c.flags ||| Epoll.write }.enqueueItem item !item.isFrontAsync

/-! ## What a pass can do -/

namespace Channel

section Cases

variable {env : Env ρ κ ι} {t : Turn} {c : Channel ρ κ} {resolved : List FutureId}
  {front : Buffer ρ} {rest : List (Buffer ρ)} {result : Option Bool}

@[simp] theorem settle_queue (filled : Bool) : (c.settle filled).queue = c.queue := rfl

@[simp] theorem settle_cookie (filled : Bool) : (c.settle filled).cookie = c.cookie := rfl

@[simp] theorem afterFill_queue : (c.afterFill env result).1.queue = c.queue := by
  cases result with
  | none => rfl
  | some filled =>
    simp only [afterFill]
    split_ifs <;> rfl

theorem afterFill_drained :
    (c.afterFill env result).2.1 = true ↔ result ≠ none ∧ c.queue.buffers = [] := by
  cases result with
  | none => simp [afterFill]
  | some filled =>
    simp only [afterFill]
    split_ifs <;> simp_all

theorem afterFill_remove :
    (c.afterFill env result).2.2 = .remove ↔
      result = none ∨ c.queue.buffers = [] ∧ c.queue.keepFileOpen = false := by
  cases result with
  | none => simp [afterFill]
  | some filled =>
    simp only [afterFill]
    split_ifs <;> simp_all

theorem afterFill_again :
    (c.afterFill env result).2.2 = .again ↔ result = some false ∧ c.queue.buffers ≠ [] := by
  cases result with
  | none => simp [afterFill]
  | some filled =>
    simp only [afterFill]
    split_ifs <;> simp_all

/-- The cookie is touched in one place only. -/
theorem afterFill_cookie :
    (c.afterFill env result).1.cookie =
      if (c.afterFill env result).2.1 = true ∧ c.queue.keepFileOpen = true then
        env.onRemove c.cookie
      else c.cookie := by
  cases result with
  | none => simp [afterFill]
  | some filled =>
    simp only [afterFill]
    -- `drain` is the branch for an empty queue of a connection that is kept.
    split_ifs <;> simp_all [drain]

/-- The buffer that `fill_channel` gets, and the futures whose value was taken for it. -/
inductive Starts (env : Env ρ κ ι) (t : Turn) : Buffer ρ → List FutureId → Buffer ρ → Prop
  | sync {front : Buffer ρ} (h : front.isAsync = false) : Starts env t front [] front
  | resolved (a : AsyncBuffer ρ) (ready : t.ready = true) (value : env.onBarrier a.value ≠ []) :
    Starts env t (.async a) [a.future] (.memory (.new (env.onBarrier a.value)))

/-- Everything a pass can do. -/
theorem turn_cases (env : Env ρ κ ι) (t : Turn) (c : Channel ρ κ) :
    (c.queue.buffers = [] ∧ c.turn env t = ⟨c.settle false, [], [], false, .leave⟩) ∨
    (∃ a rest, c.queue.buffers = .async a :: rest ∧
      (t.ready = true → env.onBarrier a.value = []) ∧
      c.turn env t =
        ⟨c.settle false, [], if t.ready then [a.future] else [], false, .leave⟩) ∨
    (∃ front rest resolved start, c.queue.buffers = front :: rest ∧
      Starts env t front resolved start ∧ c.turn env t = c.write env t resolved start rest) := by
  cases queue : c.queue.buffers with
  | nil => exact .inl ⟨rfl, by simp only [turn, queue]⟩
  | cons front rest =>
    cases front with
    | memory b =>
      exact .inr (.inr ⟨.memory b, rest, [], .memory b, rfl, .sync rfl, by simp only [turn, queue]⟩)
    | file f =>
      exact .inr (.inr ⟨.file f, rest, [], .file f, rfl, .sync rfl, by simp only [turn, queue]⟩)
    | async a =>
      by_cases ready : t.ready = true
      · by_cases value : env.onBarrier a.value = []
        · exact .inr (.inl ⟨a, rest, rfl, fun _ => value, by simp [turn, queue, ready, value]⟩)
        · refine .inr (.inr ⟨.async a, rest, [a.future], _, rfl, .resolved a ready value, ?_⟩)
          simp [turn, queue, ready, value]
      -- a future that is not ready ends the pass at once
      · exact .inr (.inl ⟨a, rest, rfl, fun h => absurd h ready, by simp [turn, queue, ready]⟩)

/-- What a pass leaves of the buffer at the front of the queue: nothing when it was sent
to its end, and the future itself while there is no value for it. -/
def left (env : Env ρ κ ι) (t : Turn) : Buffer ρ → Option (Buffer ρ)
  | .async a =>
    let new := if t.ready then env.onBarrier a.value else []
    if new = [] then some (.async a) else (fillChannel env t (.memory (.new new))).front
  | front => (fillChannel env t front).front

theorem write_buffers :
    (c.write env t resolved front rest).channel.queue.buffers =
      (fillChannel env t front).front.toList ++ rest :=
  congrArg ScheduleItem.buffers afterFill_queue

/-- A pass changes the queue at its front only: that buffer is removed or replaced, and
the others stay as they are and where they are. -/
theorem turn_buffers (queue : c.queue.buffers = front :: rest) :
    (c.turn env t).channel.queue.buffers = (left env t front).toList ++ rest := by
  rw [turn, queue]
  cases front with
  | memory b => exact write_buffers
  | file f => exact write_buffers
  | async a =>
    by_cases value : (if t.ready then env.onBarrier a.value else []) = []
    -- Without a value the channel only settles.
    · simp only [left, if_pos value]
      exact queue
    · simp only [left, if_neg value]
      exact write_buffers

theorem turn_buffers_nil (queue : c.queue.buffers = []) :
    (c.turn env t).channel.queue.buffers = [] := by
  rw [turn, queue]
  exact queue

end Cases

end Channel

/-! ## What a pass does to the buffer at the front -/

section Fidelity

variable {env : Env ρ κ ι} {t : Turn} {c : Channel ρ κ}

/-- What a buffer still stands for, and what is left of it when there is one left. -/
def Env.content (env : Env ρ κ ι) (b : Buffer ρ) : Bytes := b.content env.files env.onBarrier

def Env.left (env : Env ρ κ ι) (front : Option (Buffer ρ)) : Bytes :=
  front.elim [] env.content

/-- A filling sends from the front of `whole`: the kernel took a first part of it, and
unless the channel is given up the rest is still there. -/
structure Filling.Sends (env : Env ρ κ ι) (whole : Bytes) (r : Filling ρ) : Prop where
  taken : r.accepted <+: whole
  rest : r.result ≠ none → r.accepted ++ env.left r.front = whole
  /-- a buffer is never removed when the socket is full -/
  filled : r.result = some true → r.front ≠ none
  /-- nor when the channel is given up -/
  failed : r.result = none → r.front ≠ none
  sync : ∀ b ∈ r.front, b.isAsync = false
  covered : ∀ b ∈ r.front, b.Covered env.files

theorem fillMemory_sends (t : Turn) (b : MemoryBuffer) :
    (fillMemory t b : Filling ρ).Sends env b.data := by
  have le := writeSome_le t.sends b.data
  simp only [fillMemory, writeSome_taken]
  -- the four ways in which the call ends, in the order of the source
  split_ifs with closed nothing everything
  · exact ⟨List.take_prefix _ _, fun h => absurd rfl h, by simp, by simp, by simp [Buffer.isAsync],
      by simp [Buffer.Covered]⟩
  · refine ⟨List.take_prefix _ _, fun _ => ?_, by simp, by simp, by simp [Buffer.isAsync],
      by simp [Buffer.Covered]⟩
    simp [nothing, Env.left, Env.content, Buffer.content]
  · refine ⟨List.take_prefix _ _, fun _ => ?_, by simp, by simp, by simp, by simp⟩
    simp [everything, Env.left]
  · refine ⟨List.take_prefix _ _, fun _ => ?_, by simp, by simp, by simp [Buffer.isAsync],
      by simp [Buffer.Covered]⟩
    exact List.take_append_drop _ _

/-- Nothing was sent and the file is where it was. -/
theorem sends_nothing {f : UnixFile} (covered : f.Covered env.files) (result : Option Bool) :
    (⟨[], some (.file f), result⟩ : Filling ρ).Sends env (f.unsent env.files) :=
  ⟨List.nil_prefix, fun _ => rfl, by simp, by simp, by simp [Buffer.isAsync],
    by simpa [Buffer.Covered] using covered⟩

theorem fillFile_sends {f : UnixFile} (covered : f.Covered env.files) :
    (fillFile env t f).Sends env (f.unsent env.files) := by
  cases result : t.sendfile with
  | ok count =>
    have whole := f.sendToFd_ok env.files count
    have length := UnixFile.length_unsent covered
    simp only [fillFile, result, UnixFile.sendToFd] at whole ⊢
    split_ifs with nothing everything
    · exact ⟨List.take_prefix _ _, fun _ => whole, by simp, by simp, by simp [Buffer.isAsync],
        by simpa [Buffer.Covered, UnixFile.Covered, UnixFile.advance] using covered⟩
    · -- as many bytes as were left are all that were left
      refine ⟨List.take_prefix _ _, fun _ => ?_, by simp, by simp, by simp, by simp⟩
      rw [← length, List.length_take] at everything
      simp only [Env.left, Option.elim_none, List.append_nil]
      exact List.take_of_length_le (by omega)
    · exact ⟨List.take_prefix _ _, fun _ => whole, by simp, by simp, by simp [Buffer.isAsync],
        by simpa [Buffer.Covered, UnixFile.Covered, UnixFile.advance] using covered⟩
  | failed errno =>
    cases errno with
    | eagain =>
      simp only [fillFile, result, UnixFile.sendToFd, if_true]
      exact sends_nothing covered _
    | einval =>
      simp only [fillFile, result, UnixFile.sendToFd]
      split
      · rename_i b replaced
        rw [← UnixFile.toMemoryBuffer_data covered replaced]
        exact fillMemory_sends t b
      · exact sends_nothing covered _
    | epipe | ebadf | eio =>
      simp only [fillFile, result, UnixFile.sendToFd]
      exact sends_nothing covered _
    | efault | econnreset | other =>
      -- the `-1` is no number of bytes that a file can have left
      have inside : f.sizeLeft < 2 ^ 63 := (Nat.sub_le _ _).trans_lt f.size_lt
      have huge : (2 ^ 64 - 1 : Nat) ≠ f.sizeLeft := by omega
      simp only [fillFile, result, UnixFile.sendToFd, if_neg huge]
      exact sends_nothing covered _

theorem fillChannel_sends {b : Buffer ρ} (sync : b.isAsync = false)
    (covered : b.Covered env.files) : (fillChannel env t b).Sends env (env.content b) := by
  cases b with
  | memory b => exact fillMemory_sends t b
  | file f => exact fillFile_sends covered
  | async a => cases sync

end Fidelity

end Viking.Io
