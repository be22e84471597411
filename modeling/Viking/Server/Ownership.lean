/-
# The contexts of the requests

`handle_connection` allocates a context on the first read of a request and keeps it, as a raw
pointer, in the channel; `remove_pending_contexts` deletes it, when the request is passed, when the
queue of a channel that is kept open is empty and when the channel is removed. Here the contexts
have the places where they are allocated, and the log of the scheduler says what is allocated and
what is deleted. `contexts_owned` says of every run that each context is deleted once, and that the
contexts that are left are those which the channels point to.
-/

import Viking.Io.Trace
import Viking.Lib.Owning
import Viking.Server.Receiving

namespace Viking.Server

open Http Io Epoll

variable {traversal : Traversal}

/-- What the cookie of a channel points to. -/
structure Pending where
  place : Address
  context : Context

/-- A read event, and where `new` puts a context if there is none. -/
structure Reading (traversal : Traversal) where
  incoming : Incoming traversal
  place : Address

/-- Where the context is that a read works on. -/
def Reading.placeOf (reading : Reading traversal) (cookie : Option Pending) : Address :=
  cookie.elim reading.place Pending.place

/-- `handle_connection`, with the place of the context -/
def handleConnectionAt (reading : Reading traversal) (cookie : Option Pending) :
    Option Pending × Except Fault (ScheduleItem (Serializable traversal)) :=
  let (context, response) := handleConnection reading.incoming (cookie.map Pending.context)
  (context.map fun context => ⟨reading.placeOf cookie, context⟩, response)

/-- `remove_pending_contexts` -/
def removePendingContexts (_ : Option Pending) : Option Pending := none

/-- The callbacks of the dispatcher. -/
def callbacks (traversal : Traversal) (files : Fd → Bytes) (page : PageSize) :
    Env (Serializable traversal) (Option Pending) (Reading traversal) :=
  env traversal files page handleConnectionAt removePendingContexts none

/-- Without the places this is `handle_connection`. -/
theorem handleConnectionAt_context (reading : Reading traversal) (cookie : Option Pending) :
    ((handleConnectionAt reading cookie).1.map Pending.context,
      (handleConnectionAt reading cookie).2) =
        handleConnection reading.incoming (cookie.map Pending.context) := by
  unfold handleConnectionAt
  rcases handleConnection reading.incoming (cookie.map Pending.context) with ⟨context, response⟩
  cases context <;> rfl

/-! ## What is allocated and deleted -/

abbrev Use := Owning.Use Address Address

/-- What `remove_pending_contexts` deletes. -/
def release (a : Address) (cookie : Option Pending) : List Use :=
  cookie.toList.map fun pending => .deleted a pending.place

/-- What `handle_connection` allocates and deletes. -/
def connectionUses (a : Address) (reading : Reading traversal) (cookie : Option Pending) :
    List Use :=
  (if cookie.isNone then [.allocated a reading.place] else []) ++
    match serve (cookie.map Pending.context) reading.incoming.arrival with
    -- the request is complete and was processed
    | .ok (some _, _) => [.deleted a (reading.placeOf cookie)]
    | _ => []

/-- What an action of the scheduler allocates and deletes. -/
def uses : Action (Option Pending) (Reading traversal) → List Use
  | .received a before reading _ => connectionUses a reading before
  | .released a cookie => release a cookie
  | .added _ | .modified _ | .attempted _ => []

abbrev State (traversal : Traversal) :=
  Traced (Serializable traversal) (Option Pending) (Reading traversal)

/-- All that has been allocated and deleted. -/
def used (t : State traversal) : List Use := t.log.flatMap uses

/-- What the cookie of the channel at an address points to. -/
def pointer (s : Scheduler (Serializable traversal) (Option Pending)) (a : Address) :
    Option Address :=
  match s.find a with
  | .ok c => c.cookie.map Pending.place
  | .error _ => none

/-- The contexts that are left are those which the channels point to. -/
def Accounted (t : State traversal) : Prop := Owning.Accounts (used t) (pointer t.scheduler)

section Pointer

variable {s s' : Scheduler (Serializable traversal) (Option Pending)} {a : Address}
  {c : Channel (Serializable traversal) (Option Pending)} {result : CtlResult}

theorem pointer_of_find (found : s.find a = .ok c) :
    pointer s a = c.cookie.map Pending.place := by
  rw [pointer, found]

theorem pointer_eq_some {place : Address} : pointer s a = some place ↔
    ∃ c pending, s.find a = .ok c ∧ c.cookie = some pending ∧ pending.place = place := by
  unfold pointer
  cases s.find a with
  | error stop => simp
  | ok c => simp [Option.map_eq_some_iff]

theorem pointer_congr (same : s'.channels = s.channels) : pointer s' = pointer s := by
  funext x
  rw [pointer, Scheduler.find_congr same, pointer]

theorem pointer_put (there : a ∈ s.addresses) (c : Channel (Serializable traversal)
    (Option Pending)) :
    pointer (s.put a c) = Function.update (pointer s) a (c.cookie.map Pending.place) := by
  funext x
  by_cases here : x = a
  · subst here
    rw [Function.update_self, pointer_of_find (Scheduler.find_put there)]
  · rw [Function.update_of_ne here, pointer, Scheduler.find_put_of_ne here, pointer]

theorem pointer_removed (removed : s.remove a result = .ok s') :
    pointer s' = Function.update (pointer s) a none := by
  funext x
  rw [pointer, Scheduler.find_removed removed]
  by_cases here : x = a
  · rw [if_pos here, here, Function.update_self]
  · rw [if_neg here, Function.update_of_ne here, pointer]

/-- A new channel points to nothing. -/
theorem pointer_add (fresh : a ∉ s.addresses) (null : c.cookie = none) (second : CtlResult) :
    pointer (s.add a c result second) = pointer s := by
  funext x
  rw [pointer, Scheduler.find_add fresh]
  by_cases here : x = a
  · rw [if_pos here, pointer, here, Scheduler.find_of_not_mem fresh]
    simp only [null, Option.map_none]
  · rw [if_neg here, pointer]

end Pointer

/-! ## A read -/

/-- A read that passes no request leaves a context. -/
theorem cookie_of_not_passed {cookie cookie' : Option Context} {arrival : Arrival}
    (h : serve cookie arrival = .ok (none, cookie')) : ∃ context, cookie' = some context :=
  Option.isSome_iff_exists.mp (serve_cookie h)

/-- Where the cookie points to after `handle_connection`. -/
theorem handleConnectionAt_place (reading : Reading traversal) (cookie : Option Pending) :
    (handleConnectionAt reading cookie).1.map Pending.place =
      match serve (cookie.map Pending.context) reading.incoming.arrival with
      | .ok (some _, _) => none
      | _ => some (reading.placeOf cookie) := by
  simp only [handleConnectionAt, handleConnection]
  rcases served : serve (cookie.map Pending.context) reading.incoming.arrival with
    fault | ⟨_ | request, cookie'⟩
  · rfl
  · obtain ⟨context, rfl⟩ := cookie_of_not_passed served
    rfl
  · obtain rfl := cookie_of_passed served
    rfl

/-! ## What a pass of `run` keeps -/

section Pass

variable {files : Fd → Bytes} {page : PageSize} {t t' : State traversal} {a : Address}
  {c c' : Channel (Serializable traversal) (Option Pending)}
  {actions : List (Action (Option Pending) (Reading traversal))}

/-- Only the channel's own context is touched by a change of it. -/
theorem used_change (t : State traversal) (a : Address)
    (c : Channel (Serializable traversal) (Option Pending))
    (actions : List (Action (Option Pending) (Reading traversal))) :
    used ((t.note actions).put a c) = used t ++ actions.flatMap uses :=
  List.flatMap_append

theorem pointer_change (found : t.scheduler.find a = .ok c) :
    pointer ((t.note actions).put a c').scheduler =
      Function.update (pointer t.scheduler) a (c'.cookie.map Pending.place) :=
  pointer_put (Scheduler.mem_of_find found) c'

/-- No context was used and no cookie changed. -/
structure Unchanged (t t' : State traversal) : Prop where
  used : used t' = used t
  pointer : pointer t'.scheduler = pointer t.scheduler

theorem Unchanged.trans {t'' : State traversal} (h : Unchanged t t') (h' : Unchanged t' t'') :
    Unchanged t t'' :=
  ⟨h'.used.trans h.used, h'.pointer.trans h.pointer⟩

theorem Accounted.congr (h : Accounted t) (same : Unchanged t t') : Accounted t' := by
  unfold Accounted
  rw [same.used, same.pointer]
  exact h

theorem unchanged_note (t : State traversal) (silent : actions.flatMap uses = []) :
    Unchanged t (t.note actions) where
  used := by rw [used, Traced.note, List.flatMap_append, silent, List.append_nil, used]
  pointer := rfl

theorem unchanged_put (found : t.scheduler.find a = .ok c) (same : c'.cookie = c.cookie) :
    Unchanged t (t.put a c') where
  used := rfl
  pointer := by
    refine (pointer_put (Scheduler.mem_of_find found) c').trans ?_
    rw [same, ← pointer_of_find found, Function.update_eq_self]

theorem unchanged_update (t : State traversal) (a : Address) (result : CtlResult) :
    Machine.Ensures (Unchanged t) (t.update a result) := by
  intro t' returned
  obtain ⟨s, updated, done⟩ := Machine.bind_eq_ok.mp returned
  obtain ⟨c, -, same⟩ := Machine.bind_eq_ok.mp updated
  cases same
  cases done
  have silent : (t.modification a).flatMap uses = [] := by
    unfold Traced.modification
    split_ifs
    · rfl
    · rfl
  exact ⟨(unchanged_note t silent).used, pointer_congr rfl⟩

theorem unchanged_arm (found : t.scheduler.find a = .ok c) (result : CtlResult) :
    Machine.Ensures (Unchanged t) (t.arm a c result) := by
  unfold Traced.arm
  split_ifs with level
  · have cookie : c.armed.cookie = c.cookie := by rw [Channel.armed, if_pos level]
    intro t' updated
    exact (unchanged_put found cookie).trans (unchanged_update _ a result t' updated)
  · exact .ok ⟨rfl, rfl⟩

theorem release_eq (found : t.scheduler.find a = .ok c) :
    release a c.cookie = (pointer t.scheduler a).toList.map (.deleted a) := by
  rw [pointer_of_find found, release]
  cases c.cookie <;> rfl

/-- The context is deleted and the cookie is null. -/
theorem Accounted.release (h : Accounted t) (found : t.scheduler.find a = .ok c)
    (deletes : actions.flatMap uses = release a c.cookie) (null : c'.cookie = none) :
    Accounted ((t.note actions).put a c') := by
  unfold Accounted
  rw [used_change, deletes, release_eq found, pointer_change found, null, Option.map_none]
  exact Owning.Accounts.release h a

/-- A read allocates a context if there is none, and deletes it when the request is passed. -/
theorem Accounted.received (h : Accounted t) (found : t.scheduler.find a = .ok c)
    {reading : Reading traversal}
    (free : pointer t.scheduler a = none → Owning.Free (used t) reading.place)
    {cookie : Option Pending} (after : (handleConnectionAt reading c.cookie).1 = cookie)
    (changed : c'.cookie = cookie) :
    Accounted ((t.note [.received a c.cookie reading cookie]).put a c') := by
  have points := pointer_of_find found
  -- first there is a context, new or not
  have context : Owning.Accounts
      (used t ++ if c.cookie.isNone then [.allocated a reading.place] else [])
      (Function.update (pointer t.scheduler) a (some (reading.placeOf c.cookie))) := by
    cases before : c.cookie with
    | none =>
      rw [before, Option.map_none] at points
      exact h.allocate points (free points)
    | some pending =>
      rw [before, Option.map_some] at points
      have same : some (reading.placeOf (some pending)) = pointer t.scheduler a := points.symm
      rw [same, Function.update_eq_self, Option.isNone_some, if_neg (by simp), List.append_nil]
      exact h
  have place := handleConnectionAt_place reading c.cookie
  rw [after] at place
  unfold Accounted
  rw [used_change, pointer_change found, changed, place, List.flatMap_singleton, uses,
    connectionUses, ← List.append_assoc]
  rcases served : serve (c.cookie.map Pending.context) reading.incoming.arrival with
    fault | ⟨_ | request, cookie'⟩
  · rw [List.append_nil]
    exact context
  · rw [List.append_nil]
    exact context
  · have deleted := context.release a
    rw [Function.update_self, Function.update_idem] at deleted
    exact deleted

theorem Accounted.update (h : Accounted t) (a : Address) (result : CtlResult) :
    Machine.Ensures Accounted (t.update a result) :=
  fun t' updated => h.congr (unchanged_update t a result t' updated)

theorem Accounted.remove (h : Accounted t) (a : Address) (result : CtlResult) :
    Machine.Ensures Accounted (t.remove a result) := by
  intro t' returned
  obtain ⟨c, found, rest⟩ := Machine.bind_eq_ok.mp returned
  obtain ⟨s, removed, done⟩ := Machine.bind_eq_ok.mp rest
  cases done
  have deletes : used ⟨s, t.log ++ [.released a c.cookie]⟩ =
      used t ++ (pointer t.scheduler a).toList.map (.deleted a) := by
    rw [← release_eq found]
    exact List.flatMap_append.trans (congrArg (used t ++ ·) (List.flatMap_singleton _ _))
  unfold Accounted
  rw [deletes, pointer_removed removed]
  exact Owning.Accounts.release h a

theorem Accounted.add (h : Accounted t) (fresh : a ∉ t.scheduler.addresses)
    (null : c.cookie = none) (result second : CtlResult) :
    Accounted (t.add a c result second) := by
  have silent : used (t.add a c result second) = used t := by
    refine List.flatMap_append.trans ?_
    rw [Traced.modification]
    split_ifs <;> exact List.append_nil _
  unfold Accounted
  rw [silent]
  exact (pointer_add fresh null second) ▸ h

theorem Accounted.addNewConnections (h : Accounted t) (accepts : List Accept) :
    Machine.Ensures Accounted
      (t.addNewConnections (callbacks traversal files page) accepts) :=
  Traced.addNewConnections_ensures (P := fun _ => True)
    (fun _ accept accounted _ => accounted.add (accept.fresh _) rfl _ _) h fun _ _ => trivial

theorem Accounted.processWrite (h : Accounted t) (a : Address)
    (outcomes : List Turn × CtlResult) :
    Machine.Ensures Accounted
      (t.processWrite (callbacks traversal files page) a outcomes) := by
  obtain ⟨turns, result⟩ := outcomes
  refine (t.find_ensures a).bind fun c found => ?_
  let written := Io.processWrite (callbacks traversal files page) turns c
  have cookie : written.channel.cookie =
      if written.drained = true ∧ c.queue.keepFileOpen = true then none else c.cookie :=
    processWrite_cookie (callbacks traversal files page) turns c
  have queued : (if c.queue.buffers = [] then [] else
      [(.attempted a : Action (Option Pending) (Reading traversal))]).flatMap uses = [] := by
    split_ifs <;> rfl
  have changed : Accounted ((t.note (Traced.writing a c written)).put a written.channel) := by
    by_cases emptied : written.drained = true ∧ c.queue.keepFileOpen = true
    · refine h.release found ?_ (cookie.trans (if_pos emptied))
      have both : (written.drained && c.queue.keepFileOpen) = true := by simp [emptied]
      rw [Traced.writing, List.flatMap_append, queued, if_pos both]
      exact List.flatMap_singleton _ _
    · refine (h.congr (unchanged_note t ?_)).congr
        (unchanged_put found (cookie.trans (if_neg emptied)))
      have not_both : ¬ (written.drained && c.queue.keepFileOpen) = true := by
        simpa using emptied
      rw [Traced.writing, List.flatMap_append, queued, if_neg not_both]
      rfl
  dsimp only
  cases (Io.processWrite (callbacks traversal files page) turns c).next with
  | again => exact .error _
  | leave => exact changed.update a result
  | remove => exact changed.remove a result

theorem Accounted.readFailed (h : Accounted t) (a : Address) (v : Visit (Reading traversal))
    (fault : Fault) : Machine.Ensures Accounted (t.readFailed a v fault) := by
  cases fault with
  | thrown exception =>
    cases exception with
    | connectionClosedByPeer => exact h.remove a v.closing
    | _ => exact .error _
  | terminated | undefined => exact .error _

theorem Accounted.processRead (h : Accounted t) (a : Address) (v : Visit (Reading traversal))
    (free : pointer t.scheduler a = none → Owning.Free (used t) v.input.place) :
    Machine.Ensures Accounted (t.processRead (callbacks traversal files page) a v) := by
  refine (t.find_ensures a).bind fun c found => ?_
  have called : (callbacks traversal files page).onRead v.input c.cookie =
      handleConnectionAt v.input c.cookie := rfl
  rcases returned : handleConnectionAt v.input c.cookie with ⟨cookie, response⟩
  have read : Accounted ((t.note [.received a c.cookie v.input cookie]).put a
      { c with cookie := cookie }) :=
    h.received found free (by rw [returned]) rfl
  have there : ((t.note [.received a c.cookie v.input cookie]).put a
      { c with cookie := cookie }).scheduler.find a = .ok { c with cookie := cookie } :=
    Scheduler.find_put (Scheduler.mem_of_find found)
  rw [called, returned]
  cases response with
  | error fault => exact read.readFailed a v fault
  | ok item =>
    dsimp only
    split_ifs
    · exact .ok read
    · -- the reply enters the queue and the cookie is the one that the read has left
      have queued : Accounted (((t.note [.received a c.cookie v.input cookie]).put a
          { c with cookie := cookie }).put a ({ c with cookie := cookie }.receive item)) :=
        read.congr (unchanged_put there rfl)
      exact (queued.update a v.interest).bind fun t written => written.processWrite a v.answer

theorem Accounted.flush (h : Accounted t) (e : Event × Visit (Reading traversal)) :
    Machine.Ensures Accounted (t.flush (callbacks traversal files page) e) := by
  unfold Traced.flush
  split_ifs
  · exact h.processWrite e.1.context e.2.flush
  · exact .ok h

/-- Where a read of a channel without a context is due, `new` finds a place that is free. -/
def Allocates (t : State traversal) (e : Event × Visit (Reading traversal)) : Prop :=
  e.1.canRead = true → pointer t.scheduler e.1.context = none →
    Owning.Free (used t) e.2.input.place

theorem Accounted.visit (h : Accounted t) {e : Event × Visit (Reading traversal)}
    (allocates : Allocates t e) :
    Machine.Ensures Accounted (t.visit (callbacks traversal files page) e) := by
  refine (t.find_ensures e.1.context).bind fun c found => ?_
  refine (unchanged_arm found e.2.arm).bind fun t' same => ?_
  have armed := h.congr same
  split_ifs with acceptor terminates reads
  · exact armed.addNewConnections e.2.accepts
  · exact armed.remove e.1.context e.2.closing
  · have free : pointer t'.scheduler e.1.context = none →
        Owning.Free (used t') e.2.input.place := by
      rw [same.used, same.pointer]
      exact allocates reads
    exact (armed.processRead e.1.context e.2 free).bind fun t read => read.flush e
  · exact armed.flush e

/-- In each pass that a report leads to, `new` does not return what is allocated already. -/
def Allocating (files : Fd → Bytes) (page : PageSize) (t : State traversal)
    (report : Option (Report (Reading traversal))) : Prop :=
  ∀ r ∈ report, Machine.Along (Traced.visitStep (callbacks traversal files page)) Allocates t
    (t.scheduler.awaited r)

theorem Accounted.iterate (h : Accounted t) {report : Option (Report (Reading traversal))}
    (allocating : Allocating files page t report) :
    Machine.Ensures (fun r => Accounted r.2)
      (t.iterate (callbacks traversal files page) report) :=
  Traced.iterate_ensures (fun _ _ accounted allocates => accounted.visit allocates) h allocating

theorem accounted_start (traversal : Traversal) (files : Fd → Bytes) (page : PageSize)
    (a : Address) (result second : CtlResult) :
    Accounted (Traced.start (callbacks traversal files page) a result second) := by
  have pointers : pointer (Traced.start (callbacks traversal files page) a result
      second).scheduler = fun _ => none := by
    have none : pointer (⟨[], .empty⟩ : Scheduler (Serializable traversal) (Option Pending)) =
        fun _ => none := by
      funext x
      rfl
    refine (pointer_add ?_ rfl second).trans none
    simp [Scheduler.addresses]
  unfold Accounted
  rw [pointers]
  exact Owning.Accounts.empty

end Pass

/-- After any run of the scheduler, what was allocated and deleted is this: nothing was deleted
that was not there, or was another channel's; at each place there have been as many deletions as
allocations, but for the context that is there; and the contexts that are there are those which
the cookies of the channels point to, each of its own channel. -/
theorem contexts_owned (traversal : Traversal) (files : Fd → Bytes) (page : PageSize)
    (a : Address) (result second : CtlResult)
    (reports : List (Option (Report (Reading traversal))))
    (allocating : Machine.Along (Traced.iterate (callbacks traversal files page))
      (Allocating files page) (Traced.start (callbacks traversal files page) a result second)
      reports)
    (os : List Unit) (t : State traversal)
    (run : Machine.run (Traced.iterate (callbacks traversal files page))
      (Traced.start (callbacks traversal files page) a result second) reports = .ok (os, t)) :
    ∃ heap, Owning.Heap.empty.replay (used t) = some heap ∧
      (∀ x place, heap place = some x ↔ ∃ c pending, t.scheduler.find x = .ok c ∧
        c.cookie = some pending ∧ pending.place = place) ∧
      (∀ place, Owning.allocations place (used t) =
        Owning.deletions place (used t) + if (heap place).isSome then 1 else 0) ∧
      ∀ x y c d pending pending', t.scheduler.find x = .ok c → t.scheduler.find y = .ok d →
        c.cookie = some pending → d.cookie = some pending' → pending.place = pending'.place →
          x = y := by
  have keeps : ∀ (t : State traversal) report, Accounted t → Allocating files page t report →
      Machine.Ensures (fun r => Accounted r.2)
        (t.iterate (callbacks traversal files page) report) :=
    fun t report accounted allocating => accounted.iterate allocating
  have start := accounted_start traversal files page a result second
  have accounted : Accounted t := Machine.run_ensures keeps start allocating (os, t) run
  have own := accounted
  obtain ⟨heap, replayed, owned⟩ := accounted
  refine ⟨heap, replayed, fun x place => ?_, fun place => ?_, ?_⟩
  · rw [owned, pointer_eq_some]
  · have balance := Owning.replay_balance replayed place
    rw [Owning.Heap.empty, Option.toList_none, List.length_nil, Nat.add_zero] at balance
    rw [balance]
    cases heap place <;> rfl
  · intro x y c d pending pending' found found' held held' same
    exact own.injective (pointer_eq_some.mpr ⟨c, pending, found, held, same⟩)
      (pointer_eq_some.mpr ⟨d, pending', found', held', rfl⟩)

/-- A connection is accepted, part of a request comes in, and the peer closes. -/
theorem contexts_owned_closed :
    let env := callbacks .byName (fun _ => []) ⟨12⟩
    let accept : Accept :=
      { place := fun addresses => addresses.sum + 1
        fresh := fun _ mem => Nat.not_succ_le_self _ (List.le_sum_of_mem mem)
        nonBlocking := true
        result := .ok
        second := .ok }
    let event (a : Address) (received : ReadSome) (place : Address) (accepts : List Accept) :
        Event × Visit (Reading .byName) :=
      (⟨a, read⟩, ⟨.ok, ⟨⟨⟨⟨.get, ⟨1, 1⟩, ⟨false, false⟩⟩, received⟩, fun _ => .empty false⟩,
        place⟩, .ok, ([], .ok), ([], .ok), .ok, accepts⟩)
    let part := bytes "POST / HTTP/1.1\r\nContent-Length: 4\r\n\r\nab"
    let reports : List (Option (Report (Reading .byName))) :=
      [some (.ofEvent (event 0 .closed 7 [accept])),
        some (.ofEvent (event 1 (.data part (by decide +kernel)) 7 [])),
        some (.ofEvent (event 1 .closed 8 []))]
    ∃ os t heap, Machine.run (Traced.iterate env) (Traced.start env 0 .ok .ok) reports =
        .ok (os, t) ∧
      used t = [.allocated 1 7, .deleted 1 7] ∧
      Owning.Heap.empty.replay (used t) = some heap ∧ ∀ x c, t.scheduler.find x = .ok c →
        c.cookie = none := by
  intro env accept event part reports
  let report₁ : Report (Reading .byName) := .ofEvent (event 0 .closed 7 [accept])
  let report₂ : Report (Reading .byName) :=
    .ofEvent (event 1 (.data part (by decide +kernel)) 7 [])
  let report₃ : Report (Reading .byName) := .ofEvent (event 1 .closed 8 [])
  let seen (reports : List (Option (Report (Reading .byName)))) :=
    (Machine.run (Traced.iterate env) (Traced.start env 0 .ok .ok) reports).map fun r =>
      (used r.2, r.2.scheduler.poll.watchedPtrs)
  have seen₁ : seen [some report₁] = .ok ([], [0, 1]) := by decide +kernel
  have seen₂ : seen [some report₁, some report₂] = .ok ([.allocated 1 7], [0, 1]) := by
    decide +kernel
  have seen₃ : seen [some report₁, some report₂, some report₃] =
      .ok ([.allocated 1 7, .deleted 1 7], [0]) := by decide +kernel
  -- what has been seen of a run decides whether the next read finds a free place
  have pass {os : List Unit} {t : State .byName} {past : List (Option (Report (Reading .byName)))}
      {uses : List Use} {received : ReadSome} {place : Address}
      (ran : Machine.run (Traced.iterate env) (Traced.start env 0 .ok .ok) past = .ok (os, t))
      (shown : seen past = .ok (uses, [0, 1]))
      (free : (Owning.Heap.empty.replay uses).map (· place) = some none) :
      Allocating (fun _ => []) ⟨12⟩ t (some (.ofEvent (event 1 received place []))) := by
    simp only [seen, ran, Except.map, Except.ok.injEq, Prod.mk.injEq] at shown
    rintro _ ⟨⟩
    have awaited : t.scheduler.awaited (.ofEvent (event 1 received place [])) =
        [event 1 received place []] := by
      simp [Scheduler.awaited, Report.ofEvent, shown.2, event]
    rw [awaited]
    refine ⟨fun _ _ => ?_, fun _ _ _ => trivial⟩
    rw [shown.1]
    exact Owning.free_of_replay free
  have allocating : Machine.Along (Traced.iterate env) (Allocating (fun _ => []) ⟨12⟩)
      (Traced.start env 0 .ok .ok) reports := by
    refine ⟨?_, fun _ t₁ step₁ => ⟨?_, fun _ t₂ step₂ => ⟨?_, fun _ _ _ => trivial⟩⟩⟩
    · rintro _ ⟨⟩
      refine ⟨fun _ _ => Owning.free_of_replay ?_, fun _ _ _ => trivial⟩
      decide +kernel
    · have ran := Machine.run_cons_eq_ok.mpr ⟨_, t₁, [], step₁, Machine.run_nil, rfl⟩
      exact pass ran seen₁ (by decide +kernel)
    · have ran := Machine.run_cons_eq_ok.mpr ⟨_, t₂, [], step₂, Machine.run_nil, rfl⟩
      have both := Machine.run_cons_eq_ok.mpr ⟨_, t₁, _, step₁, ran, rfl⟩
      exact pass both seen₂ (by decide +kernel)
  obtain ⟨⟨os, t⟩, run, after⟩ := Machine.exists_ok_of_map seen₃
  obtain ⟨heap, replayed, owned, -, -⟩ :=
    contexts_owned .byName (fun _ => []) ⟨12⟩ 0 .ok .ok reports allocating os t run
  simp only [Prod.mk.injEq] at after
  refine ⟨os, t, heap, run, after.1, replayed, fun x c found => ?_⟩
  cases held : c.cookie with
  | none => rfl
  | some pending =>
    have there := (owned x pending.place).mpr ⟨c, pending, found, held, rfl⟩
    have left : Owning.Heap.empty.replay [.allocated 1 7, .deleted 1 7] =
        some (Function.update (Function.update Owning.Heap.empty 7 (some 1)) 7 none) := rfl
    rw [after.1, left, Option.some.injEq] at replayed
    -- the place of the context is empty again, as all places were
    have vacant : Function.update (Owning.Heap.empty : Owning.Heap Address Address) 7 none =
        Owning.Heap.empty :=
      Function.update_eq_self 7 _
    rw [← replayed, Function.update_idem, vacant] at there
    cases there

end Viking.Server
