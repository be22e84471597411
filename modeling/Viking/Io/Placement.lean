/-
# Where a buffer is put that must not wait

The overloads of `put_after_first_intact` are to put buffers into a queue as far in front as
they can be without cutting a buffer in two that has partly been sent. Two of them put their
buffer at the very front, and the third puts an item in front of the first intact buffer, last
buffer first. `placed_iff` says when that is right all the same.

Two buffers that look alike are two buffers, so they are known by where they are.
-/

import Mathlib.Data.List.Nodup
import Viking.Io.Buffers
import Viking.Io.Epoll

namespace Viking.Io

variable {ρ : Type}

/-- A `std::unique_ptr<data_source>`: a buffer, and where it is. -/
structure Owned (ρ : Type) where
  place : Address
  buffer : Buffer ρ

namespace Owned

def intact (b : Owned ρ) : Bool := b.buffer.intact

/-- What `put_after_first_intact` is called with. -/
inductive Inserted (ρ : Type)
  | memory (place : Address) (data : MemoryBuffer)
  | file (place : Address) (f : UnixFile)
  | item (buffers : List (Owned ρ))

/-- The buffers that are to be put into the queue. -/
def Inserted.buffers : Inserted ρ → List (Owned ρ)
  | memory place data => [⟨place, .memory data⟩]
  | file place f => [⟨place, .file f⟩]
  | item buffers => buffers

/-- `put_after_first_intact` -/
def putAfterFirstIntact (queue : List (Owned ρ)) : Inserted ρ → List (Owned ρ)
  -- `push_front`, whatever has been sent of the first buffer
  | .memory place data => ⟨place, .memory data⟩ :: queue
  | .file place f => ⟨place, .file f⟩ :: queue
  | .item buffers => Insertion.beforeFirst intact buffers.reverse queue

/-- For an item this is what the queue of a channel does. -/
theorem map_buffer_putAfterFirstIntact (queue buffers : List (Owned ρ)) (keep keep' : Bool) :
    (putAfterFirstIntact queue (.item buffers)).map buffer =
      (ScheduleItem.putAfterFirstIntact ⟨queue.map buffer, keep⟩
        ⟨buffers.map buffer, keep'⟩).buffers := by
  have same : ∀ b : Owned ρ, b.buffer.intact = b.intact := fun _ => rfl
  simp only [putAfterFirstIntact, ScheduleItem.putAfterFirstIntact]
  rw [Insertion.map_beforeFirst same, List.map_reverse]

/-- When an insertion is where it should be: a single buffer meets a queue of which nothing has
been sent, an item is empty, or it is one buffer and behind the first intact buffer of the
queue all are intact. -/
def Fits (queue : List (Owned ρ)) : Inserted ρ → Prop
  | .memory _ _ | .file _ _ => ∀ b ∈ queue, b.intact = true
  | .item buffers =>
    buffers = [] ∨ buffers.length = 1 ∧ ∀ b ∈ queue.dropWhile (fun b => !b.intact), b.intact = true

/-- The buffers are put in one piece, in order and behind all that is partly sent iff they
fit. -/
theorem placed_iff (queue : List (Owned ρ)) (inserted : Inserted ρ)
    (distinct : ((inserted.buffers ++ queue).map place).Nodup) :
    Insertion.Behind intact inserted.buffers queue (putAfterFirstIntact queue inserted) ↔
      Fits queue inserted := by
  have distinct : (inserted.buffers ++ queue).Nodup := List.Nodup.of_map place distinct
  cases inserted with
  | memory place data => exact Insertion.behind_cons_iff (List.nodup_cons.mp distinct).1
  | file place f => exact Insertion.behind_cons_iff (List.nodup_cons.mp distinct).1
  | item buffers => exact Insertion.behind_reverse_iff distinct

/-- A buffer of which one byte of two is sent, with another one behind it. -/
def halfSent : List (Owned Unit) :=
  [⟨1, .memory ⟨[10], 2⟩⟩, ⟨2, .memory (.new [11])⟩]

/-- An item of one buffer goes in between. -/
theorem placed_between :
    Insertion.Behind intact [⟨3, .memory (.new [12])⟩] halfSent
      (putAfterFirstIntact halfSent (.item [⟨3, .memory (.new [12])⟩])) :=
  (placed_iff halfSent (.item [⟨3, .memory (.new [12])⟩]) (by decide)).mpr
    (.inr ⟨rfl, by decide⟩)

/-- A memory buffer cuts the first one in two. -/
theorem placed_inside :
    ¬ ∀ (queue : List (Owned Unit)) (inserted : Inserted Unit),
      ((inserted.buffers ++ queue).map place).Nodup →
        Insertion.Behind intact inserted.buffers queue (putAfterFirstIntact queue inserted) := by
  intro all
  have placed := all halfSent (.memory 3 (.new [12])) (by decide)
  have fits := (Insertion.behind_cons_iff (by simp [halfSent])).mp placed
  exact absurd (fits ⟨1, .memory ⟨[10], 2⟩⟩ List.mem_cons_self) (by decide)

end Owned

end Viking.Io
