/-
# Buffers and schedule items

What waits on a channel to be written: a vector of bytes, an open file with an
offset, or the future of a response. A schedule item is a queue of buffers with a
flag that says whether the connection stays open once it is drained; the queue of a
channel is one itself, and responses are merged into it.

The two kinds of progress differ: a memory buffer shrinks, a file moves its offset.
`Buffer.content` is what both still stand for.
-/

import Viking.Io.Socket
import Viking.Lib.Insertion

namespace Viking.Io

/-- A file descriptor. -/
abbrev Fd := Nat

/-- Which `std::future` a buffer owns. -/
abbrev FutureId := Nat

/-- `sysconf(_SC_PAGESIZE)`, a power of two. -/
structure PageSize where
  log : Nat
  deriving DecidableEq, Repr

def PageSize.bytes (page : PageSize) : Nat := 2 ^ page.log

structure MemoryBuffer where
  data : Bytes
  initialSize : Nat
  deriving DecidableEq, Repr

def MemoryBuffer.new (data : Bytes) : MemoryBuffer := ⟨data, data.length⟩

def MemoryBuffer.intact (b : MemoryBuffer) : Bool := b.data.length = b.initialSize

/-- An open file. `size` comes from `stat`, and `sendfile` moves `offset` by what it
has sent of the `size - offset` bytes asked for. -/
structure UnixFile where
  path : Bytes
  fd : Fd
  size : Nat
  offset : Nat
  offset_le : offset ≤ size
  /-- both are values of `off64_t` -/
  size_lt : size < 2 ^ 63
  deriving DecidableEq, Repr

namespace UnixFile

/-- A file just opened. -/
def opened (path : Bytes) (fd : Fd) (size : Nat) (size_lt : size < 2 ^ 63) : UnixFile :=
  ⟨path, fd, size, 0, Nat.zero_le size, size_lt⟩

def intact (f : UnixFile) : Bool := f.offset = 0

/-- `size_left`; the cast to `size_t` changes nothing as `offset ≤ size`. -/
def sizeLeft (f : UnixFile) : Nat := f.size - f.offset

/-- The kernel moves the offset past the bytes it has sent. -/
def advance (f : UnixFile) (count : Nat) (h : count ≤ f.sizeLeft) : UnixFile where
  path := f.path
  fd := f.fd
  size := f.size
  offset := f.offset + count
  offset_le := by
    have := f.offset_le
    simp only [sizeLeft] at h
    omega
  size_lt := f.size_lt

/-- How `send_to_fd` ends. -/
inductive SendToFd
  | returned (count : Nat)
  | diy
  | badFile
  | brokenPipe
  deriving DecidableEq, Repr

/-- The bytes that `sendfile` may send. -/
def unsent (files : Fd → Bytes) (f : UnixFile) : Bytes :=
  ((files f.fd).drop f.offset).take f.sizeLeft

theorem length_take_unsent_le (files : Fd → Bytes) (f : UnixFile) (count : Nat) :
    ((f.unsent files).take count).length ≤ f.sizeLeft := by
  rw [unsent, List.length_take, List.length_take]
  exact (Nat.min_le_right _ _).trans (Nat.min_le_left _ _)

/-- `send_to_fd`: the bytes the kernel took, the file after the call and how the call
ended. An `errno` without a case of its own makes it return the `-1` it got, as an
unsigned number. -/
def sendToFd (files : Fd → Bytes) (result : SysResult) (f : UnixFile) :
    Bytes × UnixFile × SendToFd :=
  match result with
  | .ok count =>
    let sent := (f.unsent files).take count
    -- `sendfile` stops at the end of the file and never passes the count it was given
    (sent, f.advance sent.length (length_take_unsent_le files f count), .returned sent.length)
  | .failed .eagain => ([], f, .returned 0)
  | .failed .einval => ([], f, .diy)
  | .failed .ebadf | .failed .eio => ([], f, .badFile)
  | .failed .epipe => ([], f, .brokenPipe)
  -- `EFAULT` leaves the `switch` as the `default` does, and `ret` is still -1
  | .failed .efault | .failed .econnreset | .failed .other => ([], f, .returned (2 ^ 64 - 1))

/-- A file in whole pages: what its last page lacks is read as zeros. -/
def inPages (page : PageSize) (file : Bytes) : Bytes :=
  file ++ List.replicate ((page.bytes - file.length % page.bytes) % page.bytes) 0

/-- `mmap` of `length` bytes of a file from `offset` on. It refuses an offset that is
not a multiple of the page size and an empty range; whether it has another reason to
fail is an input. What is mapped past the pages of the file is missing here: to touch
it ends the process. -/
def mmap (page : PageSize) (mapped : Bool) (file : Bytes) (length offset : Nat) : Option Bytes :=
  if mapped ∧ offset % page.bytes = 0 ∧ 0 < length then
    some (((inPages page file).drop offset).take length)
  else none

/-- `from`: the rest of the file as a memory buffer. `none` is `bad_file`. -/
def toMemoryBuffer (files : Fd → Bytes) (page : PageSize) (mapped : Bool) (f : UnixFile) :
    Option MemoryBuffer :=
  let length := f.size - f.offset
  -- `offset & ~(sysconf(_SC_PAGESIZE) - 1)`
  let paOffset := f.offset - (f.offset &&& (page.bytes - 1))
  -- the zone is mapped from `offset`, not from the page it is in
  (mmap page mapped (files f.fd) (length + f.offset - paOffset) f.offset).map fun memZone =>
    .new ((memZone.drop (f.offset - paOffset)).take length)

end UnixFile

/-- `async_buffer`: a future that belongs to the buffer and, some time, yields `value`. -/
structure AsyncBuffer (ρ : Type) where
  future : FutureId
  value : ρ

/-- `data_source` with its three implementations. -/
inductive Buffer (ρ : Type)
  | memory (b : MemoryBuffer)
  | file (f : UnixFile)
  | async (a : AsyncBuffer ρ)

variable {ρ : Type}

namespace Buffer

def intact : Buffer ρ → Bool
  | memory b => b.intact
  | file f => f.intact
  | async _ => true

def isAsync : Buffer ρ → Bool
  | async _ => true
  | memory _ | file _ => false

/-- What is left to write of a buffer; of a future it is all that its value makes. -/
def content (files : Fd → Bytes) (serialize : ρ → Bytes) : Buffer ρ → Bytes
  | memory b => b.data
  | file f => f.unsent files
  | async a => serialize a.value

/-- The future that a buffer waits for. -/
def future : Buffer ρ → Option FutureId
  | async a => some a.future
  | memory _ | file _ => none

end Buffer

structure ScheduleItem (ρ : Type) where
  buffers : List (Buffer ρ)
  keepFileOpen : Bool

namespace ScheduleItem

/-- `schedule_item()` and `schedule_item(keep)`. -/
def empty (keep : Bool) : ScheduleItem ρ := ⟨[], keep⟩

/-- `schedule_item(data, keep)`; `schedule_item(data)` is that with `false`. -/
def ofData (data : Bytes) (keep : Bool) : ScheduleItem ρ := ⟨[.memory (.new data)], keep⟩

/-- The constructor from a future does not set the flag: `keep` is what was there. -/
def ofFuture (a : AsyncBuffer ρ) (keep : Bool) : ScheduleItem ρ := ⟨[.async a], keep⟩

/-- `put_back` of one buffer. -/
def putBackBuffer (item : ScheduleItem ρ) (buffer : Buffer ρ) : ScheduleItem ρ :=
  { item with buffers := item.buffers ++ [buffer] }

/-- `put_back(std::unique_ptr<memory_buffer>)` -/
def putBackMemory (item : ScheduleItem ρ) (data : MemoryBuffer) : ScheduleItem ρ :=
  item.putBackBuffer (.memory data)

/-- `put_back(std::unique_ptr<unix_file>)` -/
def putBackFile (item : ScheduleItem ρ) (file : UnixFile) : ScheduleItem ρ :=
  item.putBackBuffer (.file file)

/-- `put_back(schedule_item &&)` takes over the flag of the other item. -/
def putBack (item other : ScheduleItem ρ) : ScheduleItem ρ :=
  ⟨item.buffers ++ other.buffers, other.keepFileOpen⟩

/-- `put_after_first_intact(schedule_item)`: in front of the first intact buffer, last
buffer first; the flag stays. -/
def putAfterFirstIntact (item other : ScheduleItem ρ) : ScheduleItem ρ :=
  { item with buffers := Insertion.beforeFirst Buffer.intact other.buffers.reverse item.buffers }

def isFrontAsync (item : ScheduleItem ρ) : Bool :=
  match item.buffers with
  | [] => false
  | front :: _ => front.isAsync

def buffersLeft (item : ScheduleItem ρ) : Nat := item.buffers.length

end ScheduleItem

/-! ## What one call leaves -/

namespace UnixFile

variable {files : Fd → Bytes} {f : UnixFile}

/-- The file on disk is as long as `stat` said. -/
def Covered (files : Fd → Bytes) (f : UnixFile) : Prop := f.size ≤ (files f.fd).length

instance : Decidable (f.Covered files) := inferInstanceAs (Decidable (_ ≤ _))

theorem length_unsent (covered : f.Covered files) : (f.unsent files).length = f.sizeLeft := by
  have := f.offset_le
  simp only [Covered] at covered
  simp only [unsent, sizeLeft, List.length_take, List.length_drop]
  omega

theorem unsent_advance {count : Nat} (h : count ≤ f.sizeLeft) :
    (f.advance count h).unsent files = (f.unsent files).drop count := by
  simp only [unsent, advance, sizeLeft, List.drop_take, List.drop_drop, Nat.sub_add_eq]

/-- A successful call sends a first part of what was unsent and leaves the rest. -/
theorem sendToFd_ok (f : UnixFile) (files : Fd → Bytes) (count : Nat) :
    (f.sendToFd files (.ok count)).1 ++ (f.sendToFd files (.ok count)).2.1.unsent files =
      f.unsent files := by
  simp only [sendToFd, unsent_advance, List.length_take]
  -- The kernel takes `count` bytes, or all there are.
  rcases Nat.le_total count (f.unsent files).length with h | h
  · rw [Nat.min_eq_left h, List.take_append_drop]
  · rw [Nat.min_eq_right h, List.take_of_length_le h, List.drop_length, List.append_nil]

section Fallback

variable {page : PageSize} {mapped : Bool} {b : MemoryBuffer}

/-- How a file is replaced: the zone starts at the offset of the file, which has to be the
start of a page for `mmap` to succeed. -/
theorem toMemoryBuffer_eq_some : f.toMemoryBuffer files page mapped = some b ↔
    (mapped = true ∧ f.offset % page.bytes = 0 ∧ 0 < f.sizeLeft) ∧
      b = .new (((inPages page (files f.fd)).drop f.offset).take f.sizeLeft) := by
  -- Where the mapping starts at a page, rounding down changes nothing.
  have aligned (start : f.offset % page.bytes = 0) : f.offset &&& (page.bytes - 1) = 0 := by
    rw [PageSize.bytes, Nat.and_two_pow_sub_one_eq_mod]
    exact start
  have length : f.size - f.offset + f.offset - f.offset = f.sizeLeft := by
    simp only [sizeLeft]
    omega
  simp only [toMemoryBuffer, mmap, Option.map_eq_some_iff]
  constructor
  · rintro ⟨zone, mapping, rfl⟩
    split_ifs at mapping with conditions
    obtain ⟨ready, start, nonempty⟩ := conditions
    simp only [aligned start, Nat.sub_zero, length] at mapping nonempty ⊢
    cases mapping
    refine ⟨⟨ready, start, nonempty⟩, ?_⟩
    simp only [Nat.sub_self, List.drop_zero, sizeLeft, List.take_take, Nat.min_self]
  · rintro ⟨⟨ready, start, nonempty⟩, rfl⟩
    simp only [aligned start, Nat.sub_zero, length]
    refine ⟨_, if_pos ⟨ready, start, nonempty⟩, ?_⟩
    simp only [Nat.sub_self, List.drop_zero, sizeLeft, List.take_take, Nat.min_self]

/-- The zeros of the last page are no part of a file that is as long as `stat` said. -/
theorem inPages_eq_unsent (covered : f.Covered files) :
    ((inPages page (files f.fd)).drop f.offset).take f.sizeLeft = f.unsent files := by
  have inside : f.offset ≤ (files f.fd).length := f.offset_le.trans covered
  have enough : f.sizeLeft ≤ ((files f.fd).drop f.offset).length := by
    simp only [Covered] at covered
    simp only [sizeLeft, List.length_drop]
    omega
  rw [inPages, List.drop_append_of_le_length inside, List.take_append_of_le_length enough, unsent]

/-- A file that is as long as `stat` said is replaced by a buffer with the same content. -/
theorem toMemoryBuffer_data (covered : f.Covered files)
    (h : f.toMemoryBuffer files page mapped = some b) : b.data = f.unsent files := by
  rw [(toMemoryBuffer_eq_some.mp h).2, MemoryBuffer.new, inPages_eq_unsent covered]

/-- With a mapping that fails for its offset only, a file with something left is replaced by
a buffer with the bytes between its offset and its size iff the offset starts a page. -/
theorem toMemoryBuffer_iff (covered : f.Covered files) (left : f.offset < f.size) :
    (∃ b, f.toMemoryBuffer files page true = some b ∧
      b.data = ((files f.fd).take f.size).drop f.offset ∧ b.data.length = f.size - f.offset) ↔
        page.bytes ∣ f.offset := by
  have bounds : f.unsent files = ((files f.fd).take f.size).drop f.offset := by
    rw [unsent, sizeLeft, List.drop_take]
  rw [Nat.dvd_iff_mod_eq_zero]
  constructor
  · rintro ⟨b, replaced, -⟩
    exact (toMemoryBuffer_eq_some.mp replaced).1.2.1
  · intro start
    have nonempty : 0 < f.sizeLeft := by
      simp only [sizeLeft]
      omega
    have replaced : f.toMemoryBuffer files page true =
        some (.new (((inPages page (files f.fd)).drop f.offset).take f.sizeLeft)) :=
      toMemoryBuffer_eq_some.mpr ⟨⟨rfl, start, nonempty⟩, rfl⟩
    have data := toMemoryBuffer_data covered replaced
    refine ⟨_, replaced, data.trans bounds, ?_⟩
    rw [data, length_unsent covered, sizeLeft]

/-- A file of three bytes of which the first two are sent, on pages of two bytes. -/
theorem toMemoryBuffer_page :
    let files : Fd → Bytes := fun _ => [10, 11, 12]
    let f : UnixFile := ⟨[], 3, 3, 2, by decide, by decide⟩
    (∃ b, f.toMemoryBuffer files ⟨1⟩ true = some b ∧
      b.data = ((files f.fd).take f.size).drop f.offset ∧ b.data.length = f.size - f.offset) ↔
        PageSize.bytes ⟨1⟩ ∣ f.offset := by
  intro files f
  exact toMemoryBuffer_iff (by decide) (by decide)

/-- After one byte of a file the page that it is in is not mapped. -/
theorem toMemoryBuffer_refused :
    let files : Fd → Bytes := fun _ => [10, 11, 12]
    let f : UnixFile := ⟨[], 3, 3, 1, by decide, by decide⟩
    f.Covered files ∧ f.offset < f.size ∧
      ¬ ∃ b, f.toMemoryBuffer files ⟨12⟩ true = some b ∧
        b.data = ((files f.fd).take f.size).drop f.offset ∧
          b.data.length = f.size - f.offset := by
  intro files f
  refine ⟨by decide, by decide, ?_⟩
  rintro ⟨b, replaced, -⟩
  exact absurd (toMemoryBuffer_eq_some.mp replaced).1.2.1 (by decide)

end Fallback

end UnixFile

namespace Buffer

/-- The descriptor of a file yields as many bytes as `stat` said. -/
def Covered (files : Fd → Bytes) : Buffer ρ → Prop
  | file f => f.Covered files
  | memory _ | async _ => True

end Buffer

end Viking.Io
