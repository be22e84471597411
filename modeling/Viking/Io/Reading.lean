/-
# Reading from a socket

`readSome` is the loop of `read_some` over the outcomes of `read`: the result grows by what is
asked for, gets what is delivered and shrinks to it. How the loop has ended is forgotten, and
that nothing has come is taken for a peer that is gone. `read_faithful_iff` says when that is
right.
-/

import Viking.Misc.StringUtil

namespace Viking.Io

/-- The values of `errno` that matter to a reader. `EWOULDBLOCK` is `EAGAIN`. -/
inductive ReadErrno
  | eagain
  | eintr
  | other
  deriving DecidableEq, Repr

/-- What `read` has to offer. -/
inductive ReadResult
  | data (bytes : Bytes) (some : bytes ≠ [])
  | endOfStream
  | failed (errno : ReadErrno)
  deriving DecidableEq, Repr

namespace ReadResult

/-- The bytes that `read` delivers when it is asked for `count`. -/
def delivered (count : Nat) : ReadResult → Bytes
  | data bytes _ => bytes.take count
  | endOfStream | failed _ => []

def isData : ReadResult → Bool
  | data _ _ => true
  | endOfStream | failed _ => false

/-- The peer has closed the connection, or the socket has failed. -/
def Gone (read : ReadResult) : Prop := read = endOfStream ∨ read = failed .other

theorem delivered_eq_nil_iff {read : ReadResult} {count : Nat} (asked : 0 < count) :
    read.delivered count = [] ↔ read.isData = false := by
  cases read with
  | data bytes some => simp [delivered, isData, some, asked.ne']
  | endOfStream | failed errno => simp [delivered, isData]

end ReadResult

/-- `resize` of a vector; what is new is zero. -/
def resize (v : Bytes) (size : Nat) : Bytes := v.take size ++ List.replicate (size - v.length) 0

/-- Bytes are written into a vector from a position on. -/
def store (v : Bytes) (position : Nat) (bytes : Bytes) : Bytes :=
  v.take position ++ bytes ++ v.drop (position + bytes.length)

/-- The variables of the loop: `result`, `bytes_read_total` and the static `max_read`. -/
structure Reading where
  result : Bytes
  total : Nat
  maxRead : Nat
  deriving DecidableEq, Repr

/-- What `max_read` is set to when the first call is made. -/
def maxRead : Nat := 500

namespace Reading

/-- One pass through the loop. -/
def step (v : Reading) (read : ReadResult) : Reading :=
  let oldSize := v.result.length
  let grown := resize v.result (oldSize + v.maxRead)
  let delivered := read.delivered v.maxRead
  let total := v.total + delivered.length
  { result := resize (store grown oldSize delivered) total
    total := total
    maxRead := max v.maxRead delivered.length }

/-- The loop, over what `read` has to offer; the last of it is why the loop ends. `none` is a
loop that goes on. -/
def loop (v : Reading) : List ReadResult → Option (Reading × ReadResult)
  | [] => none
  | read :: reads =>
    if 0 < (read.delivered v.maxRead).length then (v.step read).loop reads
    else some (v.step read, read)

end Reading

/-- `read_some`, from a value of `max_read`: what it returns or throws, and the value that is
left. -/
def readSome (maxRead : Nat) (reads : List ReadResult) :
    Option (Except Exception Bytes × Nat) :=
  (Reading.loop ⟨[], 0, maxRead⟩ reads).map fun (v, last) =>
    if v.total = 0 then (.error .connectionClosedByPeer, v.maxRead)
    else
      match last with
      | .failed _ => (.ok (resize v.result v.total), v.maxRead)
      | .data _ _ | .endOfStream => (.ok v.result, v.maxRead)

/-! ## What the loop collects -/

section Loop

variable {v : Bytes} {bytes : Bytes} {count : Nat} {reads : List ReadResult}
  {last : ReadResult}

/-- The room that is made for a read is taken back but for what was delivered. -/
theorem resize_store (v : Bytes) (bytes : Bytes) (count : Nat) :
    resize (store (resize v (v.length + count)) v.length bytes) (v.length + bytes.length) =
      v ++ bytes := by
  have front : (resize v (v.length + count)).take v.length = v := by
    rw [resize, List.take_of_length_le (Nat.le_add_right _ _), List.take_left]
  have filled : store (resize v (v.length + count)) v.length bytes =
      v ++ bytes ++ (resize v (v.length + count)).drop (v.length + bytes.length) := by
    rw [store, front]
  have nothing : v.length + bytes.length - (v ++ bytes ++
      (resize v (v.length + count)).drop (v.length + bytes.length)).length = 0 := by
    rw [List.length_append, List.length_append]
    exact Nat.sub_eq_zero_of_le (Nat.le_add_right _ _)
  rw [filled, resize, nothing, List.replicate_zero, List.append_nil,
    List.take_left' List.length_append]

theorem resize_self : resize v v.length = v := by simp [resize]

/-- All bytes that have come, in order. -/
def collected (count : Nat) (reads : List ReadResult) : Bytes := reads.flatMap (·.delivered count)

theorem step_eq (v : Bytes) (count : Nat) (read : ReadResult) :
    Reading.step ⟨v, v.length, count⟩ read =
      ⟨v ++ read.delivered count, (v ++ read.delivered count).length, count⟩ := by
  have fits : (read.delivered count).length ≤ count := by
    cases read <;> simp [ReadResult.delivered]
  simp only [Reading.step, resize_store, Nat.max_eq_left fits, List.length_append]

/-- The loop runs through the reads that deliver something, up to one that does not. -/
theorem loop_eq (asked : 0 < count) (all : ∀ read ∈ reads, read.isData = true)
    (ends : last.isData = false) :
    Reading.loop ⟨v, v.length, count⟩ (reads ++ [last]) =
      some (⟨v ++ collected count reads, (v ++ collected count reads).length, count⟩, last) := by
  induction reads generalizing v with
  | nil =>
    have nothing := (ReadResult.delivered_eq_nil_iff asked).mpr ends
    simp [Reading.loop, step_eq, nothing, collected]
  | cons read reads ih =>
    have something : 0 < (read.delivered count).length := by
      rw [List.length_pos_iff, ne_eq, ReadResult.delivered_eq_nil_iff asked,
        all read List.mem_cons_self]
      simp
    rw [List.cons_append, Reading.loop, if_pos something, step_eq,
      ih fun read' mem => all read' (List.mem_cons_of_mem read mem)]
    simp [collected, List.append_assoc]

/-- The bytes of all reads are returned, if there are any. -/
theorem readSome_eq (asked : 0 < count) (all : ∀ read ∈ reads, read.isData = true)
    (ends : last.isData = false) :
    readSome count (reads ++ [last]) =
      some (if reads = [] then .error .connectionClosedByPeer else .ok (collected count reads),
        count) := by
  have looped := loop_eq (v := []) asked all ends
  rw [List.length_nil] at looped
  rw [readSome, looped, Option.map_some, List.nil_append]
  cases reads with
  | nil => simp [collected]
  | cons read reads =>
    have something : (collected count (read :: reads)).length ≠ 0 := by
      rw [ne_eq, List.length_eq_zero_iff, collected, List.flatMap_cons, List.append_eq_nil_iff,
        ReadResult.delivered_eq_nil_iff asked, all read List.mem_cons_self]
      simp
    simp only [something, if_false, reduceCtorEq]
    cases last <;> simp [resize_self]

end Loop

/-! ## One call -/

/-- How a call of `read_some` should end that has met `reads` and then `last`: with all the bytes
that have come, unless it was merely interrupted, or with the peer found to be gone. -/
def Faithful (reads : List ReadResult) (last : ReadResult) : Except Exception Bytes → Prop
  | .ok bytes => bytes = collected maxRead reads ∧ last ≠ .failed .eintr
  | .error e => e = .connectionClosedByPeer ∧ last.Gone

/-- The first `n` outcomes of `read`. -/
def firstReads (reads : Nat → ReadResult) (n : Nat) : List ReadResult := (List.range n).map reads

/-- On the outcomes of `read` that come one after the other, `read_some` ends, and as it should. -/
def ReadsFaithfully (reads : Nat → ReadResult) : Prop :=
  ∃ n outcome, (∀ read ∈ firstReads reads n, read.isData = true) ∧ (reads n).isData = false ∧
    readSome maxRead (firstReads reads (n + 1)) = some (outcome, maxRead) ∧
    Faithful (firstReads reads n) (reads n) outcome

/-- A call ends as it should iff the first outcome that brings nothing is no interruption, and
not that there is nothing yet to be read. -/
theorem read_faithful_iff (reads : Nat → ReadResult) :
    ReadsFaithfully reads ↔
      ∃ n, (∀ i < n, (reads i).isData = true) ∧ (reads n).isData = false ∧
        reads n ≠ .failed .eintr ∧ (reads n = .failed .eagain → 0 < n) := by
  have firsts (n : Nat) : (∀ read ∈ firstReads reads n, read.isData = true) ↔
      ∀ i < n, (reads i).isData = true := by simp [firstReads]
  have next (n : Nat) : firstReads reads (n + 1) = firstReads reads n ++ [reads n] := by
    simp [firstReads, List.range_succ]
  have none (n : Nat) : firstReads reads n = [] ↔ n = 0 := by simp [firstReads]
  refine exists_congr fun n => ?_
  constructor
  · rintro ⟨outcome, all, ends, called, faithful⟩
    rw [next, readSome_eq (by decide) all ends, Option.some.injEq, Prod.mk.injEq] at called
    refine ⟨(firsts n).mp all, ends, ?_⟩
    rw [← called.1] at faithful
    split_ifs at faithful with first
    · -- nothing has come, so the peer has to be gone
      rcases faithful.2 with stop | stop <;> simp [stop]
    · exact ⟨faithful.2, fun _ => Nat.pos_of_ne_zero ((none n).not.mp first)⟩
  · rintro ⟨all, ends, uninterrupted, some⟩
    rw [← firsts] at all
    refine ⟨_, all, ends, (next n).symm ▸ readSome_eq (by decide) all ends, ?_⟩
    split_ifs with first
    · rw [none] at first
      refine ⟨rfl, ?_⟩
      cases stop : reads n with
      | data bytes some => simp [stop, ReadResult.isData] at ends
      | endOfStream => exact .inl rfl
      | failed errno =>
        cases errno with
        | eagain => exact absurd (some stop) (by omega)
        | eintr => exact absurd stop uninterrupted
        | other => exact .inr rfl
    · exact ⟨rfl, uninterrupted⟩

/-- A live connection that has nothing to read is taken for one that is closed. -/
theorem idle_closed : ¬ ∀ reads : Nat → ReadResult,
    (∃ n, (reads n).isData = false) → ReadsFaithfully reads := by
  intro all
  obtain ⟨n, outcome, before, -, called, faithful⟩ :=
    all (fun _ => .failed .eagain) ⟨0, rfl⟩
  have first : n = 0 := by
    by_contra later
    exact absurd (before (.failed .eagain) (by simp [firstReads, later])) (by decide)
  subst first
  have thrown : readSome maxRead (firstReads (fun _ => .failed .eagain) 1) =
      some (.error .connectionClosedByPeer, maxRead) := by decide
  rw [thrown, Option.some.injEq, Prod.mk.injEq] at called
  rw [← called.1] at faithful
  rcases faithful.2 with stop | stop <;> cases stop

end Viking.Io
