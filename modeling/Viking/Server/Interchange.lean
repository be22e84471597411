/-
# Responses now and later

A handler may return a response, or a future that yields it. The first is serialised at once
and queued with the flag of the response; the second is serialised when it is ready, and does
not bring a flag along. `interchange_iff` compares the two on a channel with nothing queued.
-/

import Viking.Http.Dispatcher
import Viking.Http.Fields
import Viking.Io.Draining
import Viking.Server.Output

namespace Viking.Server

open Http Io

variable {κ ι : Type} {site : Site}

/-- A handler that returns the response. -/
def answersNow (v : Serializable site.platform.traversal) :
    Handler (Serializable site.platform.traversal) := fun _ => .ok (.sync v.response)

/-- A handler that returns a future, which yields the response; `keep` is what the flag of its
item holds. -/
def answersLater (v : Serializable site.platform.traversal) (future : FutureId) (keep : Bool) :
    Handler (Serializable site.platform.traversal) := fun _ => .ok (.async ⟨future, v⟩ keep)

variable {v : Serializable site.platform.traversal} {req : Request} {w : World Call.Answer}
  {s : Record Call Cache.Caches}

theorem passRequest_now : passRequest site req (answersNow v) w s =
    (.ok (.ofData v.text v.response.getKeepAlive), s) := by
  simp only [passRequest, answersNow, nothrow, Asking.through, itemOf, Asking.bind_run,
    Asking.ofExcept_run, v.serializes]
  rfl

theorem passRequest_later {future : FutureId} {keep : Bool} :
    passRequest site req (answersLater v future keep) w s =
      (.ok (.ofFuture ⟨future, v⟩ keep), s) := rfl

/-- However often the future is asked before it is ready, what a handler that answers later
has sent is what one that answers now has sent from that pass on; and the channels are open or
removed alike iff the flag that the queue had is the one of the response. -/
theorem interchange_iff (site : Site) (v : Serializable site.platform.traversal) (req : Request)
    (future : FutureId) (keep : Bool) (files : Fd → Bytes) (page : PageSize)
    (onRead : ι → κ → κ × Except Fault (ScheduleItem (Serializable site.platform.traversal)))
    (onRemove : κ → κ) (null : κ) (c : Channel (Serializable site.platform.traversal) κ)
    (empty : c.queue.buffers = []) (w : World Call.Answer) (s : Record Call Cache.Caches) :
    let env := env site.platform.traversal files page onRead onRemove null
    ∃ now later, passRequest site req (answersNow v) w s = (.ok now, s) ∧
      passRequest site req (answersLater v future keep) w s = (.ok later, s) ∧
      (∀ turns, (written env c now (fromReady turns)).accepted =
        (written env c later turns).accepted) ∧
      ((∀ turns, (written env c now (fromReady turns)).alive = (written env c later turns).alive) ↔
        c.queue.keepFileOpen = v.response.getKeepAlive) := by
  intro env
  let now : ScheduleItem (Serializable site.platform.traversal) :=
    .ofData v.text v.response.getKeepAlive
  let later : ScheduleItem (Serializable site.platform.traversal) := .ofFuture ⟨future, v⟩ keep
  have value : env.onBarrier v ≠ [] := v.text_ne_nil
  have alike := future_alike env ⟨future, v⟩ (.start (c.receive now))
    (.start (c.receive later)) value rfl rfl (receive_ofData empty) (receive_ofFuture empty)
    rfl
  have flag : (c.receive now).queue.keepFileOpen = v.response.getKeepAlive := receive_keep
  have flag' : (c.receive later).queue.keepFileOpen = c.queue.keepFileOpen := receive_keep
  refine ⟨now, later, passRequest_now, passRequest_later, fun turns => (alike turns).1, ?_⟩
  constructor
  · intro decided
    -- A kernel that takes everything lets the flags decide.
    have drained : ((c.receive now).turn env (taking v.text)).drained = true :=
      drained_ofData v.text_ne_nil empty
    have drained' : ((c.receive later).turn env (taking v.text)).drained = true :=
      drained_ofFuture (a := ⟨future, v⟩) value empty
    have same := decided [taking v.text]
    rw [show fromReady [taking v.text] = [taking v.text] from rfl, Bool.eq_iff_iff, alive_written,
      alive_written, remove_of_drained drained, remove_of_drained drained', flag, flag'] at same
    exact (Bool.eq_iff_iff.mpr same).symm
  · intro same turns
    exact (alike turns).2 (flag.trans (same.symm.trans flag'.symm))

/-- A greeting, perhaps with a `Connection` field of its own. -/
theorem exists_greeting (connection : Option Bytes) :
    ∃ (site : Site) (v : Serializable site.platform.traversal),
      v.response.get connectionField true = some (connection.getD (bytes "Close")) := by
  let site : Site :=
    ⟨⟨bytes "now", id, id, fun _ => none, fun _ => [], .byName⟩, ⟨bytes "/srv", 300, false⟩, ⟨12⟩⟩
  let req : Request := ⟨.get, ⟨1, 1⟩, ∅, bytes "/", []⟩
  let r : Response := .ofText site.platform site.config req (bytes "hello")
  let r' := r.set connectionField (connection.getD (bytes "Close"))
  obtain ⟨text, serializes⟩ : ∃ text, Serializer.serialize site.platform.traversal r' = .ok text :=
    Serializer.serialize_isOk_iff.mpr ((Response.sameKind_set _ _ _).sendable
      (Response.make_sendable (by decide) (by simp)))
  exact ⟨site, ⟨r', text, serializes⟩, (Response.get_set ..).trans (if_pos rfl)⟩

theorem getKeepAlive_of_get {r : Response} {value : Bytes}
    (h : r.get connectionField true = some value) :
    r.getKeepAlive = decide (uppercase value = bytes "KEEP-ALIVE") := by
  simp only [Response.get, if_true] at h
  rw [Response.getKeepAlive, h]

/-- The theorem at a response that closes, on a new channel. -/
theorem interchange_iff_closing : ∃ (site : Site) (v : Serializable site.platform.traversal),
    let env := env (κ := Unit) (ι := Unit) site.platform.traversal (fun _ => []) ⟨12⟩
      (fun _ c => (c, .ok (.empty true))) id ()
    let req : Request := ⟨.get, ⟨1, 1⟩, ∅, bytes "/", []⟩
    ∃ now later, passRequest site req (answersNow v) (unreadable .notFound) ⟨[], .empty⟩ =
        (.ok now, ⟨[], .empty⟩) ∧
      passRequest site req (answersLater v 0 false) (unreadable .notFound) ⟨[], .empty⟩ =
        (.ok later, ⟨[], .empty⟩) ∧
      ∀ turns, (written env (.new Epoll.read ()) now (fromReady turns)).alive =
        (written env (.new Epoll.read ()) later turns).alive := by
  obtain ⟨site, v, closes⟩ := exists_greeting none
  refine ⟨site, v, ?_⟩
  obtain ⟨now, later, isNow, isLater, -, decided⟩ := interchange_iff (κ := Unit) (ι := Unit) site v
    ⟨.get, ⟨1, 1⟩, ∅, bytes "/", []⟩ 0 false (fun _ => []) ⟨12⟩ (fun _ c => (c, .ok (.empty true)))
    id () (.new Epoll.read ()) rfl (unreadable .notFound) ⟨[], .empty⟩
  refine ⟨now, later, isNow, isLater, decided.mpr ?_⟩
  rw [getKeepAlive_of_get closes]
  exact (decide_eq_false (by decide)).symm

/-- A response that keeps the connection: returned at once it does, as a future on a new
channel it does not. -/
theorem future_closes_connection :
    ¬ ∀ (site : Site) (v : Serializable site.platform.traversal)
      (env : Env (Serializable site.platform.traversal) Unit Unit)
      (c : Channel (Serializable site.platform.traversal) Unit) (future : FutureId) (keep : Bool),
      env.onBarrier = Serializable.text → c.queue.buffers = [] →
      ∀ turns,
        (written env c (.ofData v.text v.response.getKeepAlive) (fromReady turns)).alive =
          (written env c (.ofFuture ⟨future, v⟩ keep) turns).alive := by
  intro all
  obtain ⟨site, v, keeps⟩ := exists_greeting (some (bytes "keep-alive"))
  let env := env (κ := Unit) (ι := Unit) site.platform.traversal (fun _ => []) ⟨12⟩
    (fun _ c => (c, .ok (.empty true))) id ()
  have same := all site v env (.new Epoll.read ()) 0 false rfl rfl [taking v.text]
  have drained : (((.new Epoll.read () : Channel _ Unit).receive
      (.ofData v.text v.response.getKeepAlive)).turn env (taking v.text)).drained = true :=
    drained_ofData v.text_ne_nil rfl
  have drained' : (((.new Epoll.read () : Channel _ Unit).receive
      (.ofFuture ⟨0, v⟩ false)).turn env (taking v.text)).drained = true :=
    drained_ofFuture (a := ⟨0, v⟩) v.text_ne_nil rfl
  rw [show fromReady [taking v.text] = [taking v.text] from rfl, Bool.eq_iff_iff, alive_written,
    alive_written, remove_of_drained drained, remove_of_drained drained', receive_keep,
    receive_keep] at same
  have kept : v.response.getKeepAlive = true := by
    rw [getKeepAlive_of_get keeps]
    decide
  cases same.mp kept

end Viking.Server
