/-
# Writing to a socket

A system call on a socket either takes some bytes or fails with an `errno`. The
outcomes of the calls are inputs of the model: `writeSome` is given those of the
`send`s it makes, one after the other, and says which bytes each of them took, how many
these are in all and whether the exception that stands for a peer that is gone left the
function. A list of outcomes that has ended stands for a socket that would block.
-/

import Viking.Misc.StringUtil

namespace Viking.Io

/-- The values of `errno` that the source tells apart. `EWOULDBLOCK` is `EAGAIN`. -/
inductive Errno
  | eagain
  | epipe
  | econnreset
  | einval
  | ebadf
  | eio
  | efault
  | other
  deriving DecidableEq, Repr

/-- What the kernel answers to a call that moves bytes. -/
inductive SysResult
  | ok (count : Nat)
  | failed (errno : Errno)
  deriving DecidableEq, Repr

/-- Whether a failed `send` makes `write_some` throw `connection_closed_by_peer`. -/
def Errno.closesConnection : Errno → Bool
  | .epipe | .econnreset => true
  | _ => false

/-- What a call of `write_some` does: the bytes that each `send` took, the number it
counts, and whether it threw. -/
structure Written where
  taken : List Bytes
  total : Nat
  closed : Bool
  deriving DecidableEq, Repr

/-- `tcp_socket::write_some`. A `send` takes the bytes it is given from the first one on,
never more than were passed to it. -/
def writeSome : List SysResult → Bytes → Written
  | [], _ => ⟨[], 0, false⟩
  | .failed errno :: _, _ => ⟨[], 0, errno.closesConnection⟩
  | .ok count :: sends, data =>
    let sent := min count data.length
    -- the loop ends when the call wrote nothing and when everything is written
    if 0 < sent ∧ sent < data.length then
      let later := writeSome sends (data.drop sent)
      ⟨data.take sent :: later.taken, sent + later.total, later.closed⟩
    else ⟨[data.take sent], sent, false⟩

/-- The bytes that the calls took are the front of the data, as many as were counted. -/
@[simp] theorem writeSome_taken (sends : List SysResult) (data : Bytes) :
    (writeSome sends data).taken.flatten = data.take (writeSome sends data).total := by
  induction sends generalizing data with
  | nil => rfl
  | cons result sends ih =>
    cases result with
    | failed errno => rfl
    | ok count =>
      simp only [writeSome]
      split
      -- Each call goes on where the one before it stopped.
      · rw [List.flatten_cons, ih, List.take_add]
      · rw [List.flatten_singleton]

theorem writeSome_le (sends : List SysResult) (data : Bytes) :
    (writeSome sends data).total ≤ data.length := by
  induction sends generalizing data with
  | nil => exact Nat.zero_le _
  | cons result sends ih =>
    cases result with
    | failed errno => exact Nat.zero_le _
    | ok count =>
      simp only [writeSome]
      split
      · have rest := ih (data.drop (min count data.length))
        rw [List.length_drop] at rest
        dsimp only
        omega
      · exact Nat.min_le_right _ _

end Viking.Io
