/-
# The output of a connection

The scheduler of the server: a future on a connection yields a response, and
`handle_barrier` serialises it. What is serialised is never empty, so a future is taken
for unready only when it is, and what the general part says about sessions holds of
the connections of the server as they are.
-/

import Viking.Http.Response
import Viking.Io.Output

namespace Viking.Server

open Http Io

/-- A response whose serialisation returns; any other ends the process. -/
structure Serializable (traversal : Traversal) where
  response : Response
  text : Bytes
  serializes : Serializer.serialize traversal response = .ok text

namespace Serializable

variable {traversal : Traversal}

theorem text_ne_nil (v : Serializable traversal) : v.text ≠ [] :=
  Serializer.serialize_ne_nil v.serializes

end Serializable

/-- The environment of a scheduler whose barrier callback is that of the server. -/
def env {κ ι : Type} (traversal : Traversal) (files : Fd → Bytes) (page : PageSize)
    (onRead : ι → κ → κ × Except Fault (ScheduleItem (Serializable traversal)))
    (onRemove : κ → κ) (null : κ) : Env (Serializable traversal) κ ι :=
  ⟨files, page, Serializable.text, onRead, onRemove, null⟩

section

variable {κ ι : Type} {traversal : Traversal} (files : Fd → Bytes) (page : PageSize)
  (onRead : ι → κ → κ × Except Fault (ScheduleItem (Serializable traversal))) (onRemove : κ → κ)
  (null : κ) (c : Channel (Serializable traversal) κ) (ops : List (Op (Serializable traversal)))

/-- At every moment of a session in which everything is queued at the end, the kernel
has taken a first part of what was offered, and the rest is in the queue while the
channel lives; each future is asked for its value once, in their order; nothing of a
future that was not asked, or behind it, is sent; and the branch for an empty queue is
taken only when everything was sent. -/
theorem output_faithful (empty : c.queue.buffers = [])
    (covered : ∀ b ∈ offered ops, b.Covered files)
    (appends : AppendsAlong (env traversal files page onRead onRemove null) (.start c) ops) :
    let env := env traversal files page onRead onRemove null
    let s := (Session.start c).run env ops
    let whole := env.contents (offered ops)
    s.accepted <+: whole ∧
      (s.alive = true → s.accepted ++ env.contents s.channel.queue.buffers = whole) ∧
      s.resolved <+: futures (offered ops) ∧
      (∀ before a after, offered ops = before ++ .async a :: after → a.future ∉ s.resolved →
        s.accepted <+: env.contents before) ∧
      ∀ t, s.alive = true → (s.channel.turn env t).drained = true →
        s.accepted ++ (s.channel.turn env t).accepted = whole := by
  intro env s whole
  -- Only an unready future gives an empty buffer.
  have values : ∀ v, env.onBarrier v ≠ [] := Serializable.text_ne_nil
  have delivered : Delivered env (offered ops) s :=
    delivered_run values (delivered_start empty) covered appends
  refine ⟨delivered.accepted_part, ?_, delivered.resolved_part, ?_, ?_⟩
  · intro alive
    exact (delivered.kept alive).accepted_rest
  · intro before a after place unresolved
    exact delivered.accepted_before place unresolved
  · intro t alive drained
    exact (delivered.kept alive).drained values covered drained

end

/-- A future that is ready at the second pass, and bytes behind it. -/
theorem output_faithful_future : ∃ v : Serializable .byName,
    let env := env (ι := Unit) .byName (fun _ => []) ⟨12⟩ (fun _ c => (c, .ok (.empty true))) id ()
    let late : Turn := ⟨false, [], .failed .eagain, false⟩
    let ops : List (Op (Serializable .byName)) :=
      [.enqueue (.ofFuture ⟨7, v⟩ true), .turn late,
        .turn { late with ready := true, sends := [.ok 5] }, .enqueue (.ofData (bytes "more") true)]
    let s := (Session.start (.new Epoll.read () : Channel _ Unit)).run env ops
    s.alive = true → s.accepted ++ env.contents s.channel.queue.buffers =
      env.contents (offered ops) := by
  let r : Response :=
    ⟨∅, ⟨1, 1⟩, ⟨.get, ⟨1, 1⟩, ∅, bytes "/", []⟩, .ok, .text, .empty, bytes "hello", .none, none⟩
  obtain ⟨text, serializes⟩ := Serializer.serialize_isOk_iff.mpr
    (show (statusCodes.lookup r.code).isSome ∧ r.bodyAvailable = true by decide +kernel)
  let v : Serializable .byName := ⟨r, text, serializes⟩
  have appends : AppendsAlong (ι := Unit)
      (env .byName (fun _ => []) ⟨12⟩ (fun _ c => (c, .ok (.empty true))) id ())
      (.start (.new Epoll.read () : Channel _ Unit))
      [.enqueue (.ofFuture ⟨7, v⟩ true), .turn ⟨false, [], .failed .eagain, false⟩,
        .turn ⟨true, [.ok 5], .failed .eagain, false⟩,
        .enqueue (.ofData (bytes "more") true)] := by
    simp only [appendsAlong_cons, appendsAlong_nil, and_true, Session.Appends, true_and]
    -- The future finds the queue empty, and the bytes are no future.
    refine ⟨fun _ _ => rfl, fun _ sync => ?_⟩
    cases sync
  have covered : ∀ b ∈ offered [.enqueue (.ofFuture ⟨7, v⟩ true),
      .turn ⟨false, [], .failed .eagain, false⟩, .turn ⟨true, [.ok 5], .failed .eagain, false⟩,
      .enqueue (.ofData (bytes "more") true)], b.Covered fun _ => [] := by
    simp [offered, Op.buffers, Reply.ofFuture, Reply.ofData, ScheduleItem.ofFuture,
      ScheduleItem.ofData, Buffer.Covered]
  exact ⟨v, (output_faithful (fun _ => []) ⟨12⟩ (fun _ c => (c, .ok (.empty true))) id ()
    (.new Epoll.read ()) _ rfl covered appends).2.1⟩

end Viking.Server
