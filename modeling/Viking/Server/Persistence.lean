/-
# Keeping a connection open

Whether a channel stays open once its queue is empty is decided by the flag of the queue,
which comes from the last item that was put at its end, and so from the `Connection` field
of a response. `init` looks for that field in the response itself, where nothing has set it.

`persistence_iff` compares the decision with what the request asked for.
-/

import Viking.Http.Answers
import Viking.Io.Draining

namespace Viking.Server

open Http Io

variable {ρ κ ι : Type}

/-- The request has a `Connection` field that says `keep-alive`, up to case. -/
def KeepAlive (r : Request) : Prop :=
  ∃ value, r.header.lookup connectionField = some value ∧ uppercase value = bytes "KEEP-ALIVE"

/-! ## The `Connection` field of a response -/

/-- The response was made by a constructor and by operations none of which sets the
`Connection` field. -/
inductive Unconnected : Response → Prop
  | make (platform : Platform) (config : Configuration) (req : Request) (code : StatusCode)
    (type : ResponseType) (res : Resource) (text : Bytes) (file : Option UnixFile) :
    Unconnected (.make platform config req code type res text file)
  | set {response : Response} {field : Bytes} (value : Bytes) (other : field ≠ connectionField)
    (before : Unconnected response) : Unconnected (response.set field value)
  /-- a setter of another member -/
  | member {response response' : Response} (same : response'.fields = response.fields)
    (before : Unconnected response) : Unconnected response'
  /-- an assignment, behind its changes of other members -/
  | init (platform : Platform) (config : Configuration) {response : Response}
    (before : Unconnected response) : Unconnected (response.init platform config)

namespace Unconnected

variable {response : Response}

/-- All that the field ever says is `Close`. -/
theorem get_connection (h : Unconnected response) :
    response.get connectionField true = some (bytes "Close") := by
  induction h with
  | make platform config req code type res text file =>
    exact Response.init_connection
  | set value other before ih =>
    rw [Response.get_set, if_neg other.symm]
    exact ih
  | member same before ih =>
    simp only [Response.get, if_true, same] at ih ⊢
    exact ih
  | init platform config before ih =>
    rw [Response.init_connection, ih]
    rfl

theorem getKeepAlive (h : Unconnected response) : response.getKeepAlive = false := by
  have closes := h.get_connection
  simp only [Response.get, if_true] at closes
  rw [Response.getKeepAlive, closes]
  decide

end Unconnected

theorem unconnected_own {site : Site} {r : Request} {response : Response}
    (own : Own site r response) : Unconnected response := by
  cases own with
  | notFound => exact .set _ (by decide) (.make ..)
  | found => exact .set _ (by decide) (.set _ (by decide) (.make ..))
  | listing text => exact .set _ (by decide) (.set _ (by decide) (.make ..))
  | resource resource => exact .set _ (by decide) (.make ..)

theorem unconnected_ofFile {platform : Platform} {config : Configuration} {r : Request}
    (file : UnixFile) : Unconnected (.ofFile platform config r (some file)) :=
  .set _ (by decide) (.set _ (by decide) (.make ..))

/-- No handler sets the `Connection` field of the responses it returns. -/
def LeaveConnection (routes : List (Route ρ)) : Prop :=
  ∀ route ∈ routes, ∀ handler ∈ route.handler, ∀ request response,
    handler request = .ok (.sync response) → Unconnected response

/-- A handler answers the request with a future. -/
def Asynchronous (routes : List (Route ρ)) (r : Request) : Prop :=
  ∃ handler future keep, handlerFor routes r = some handler ∧
    handler r = .ok (.async future keep)

/-! ## The decision -/

section Decision

variable {site : Site} {routes : List (Route ρ)} {r : Request}

/-- Items made from responses that leave the field alone close the connection. -/
theorem keepFileOpen_of_answers (leave : LeaveConnection routes) {response : Response}
    {item : ScheduleItem ρ} (answers : Answers site routes r response item) :
    item.keepFileOpen = false ∧ item.isFrontAsync = false := by
  cases answers with
  | routed routed handled serialized =>
    obtain ⟨route, mem, is⟩ := mem_of_handlerFor routed
    exact ⟨(leave route mem _ is r _ handled).getKeepAlive, rfl⟩
  | own unrouted own serialized => exact ⟨(unconnected_own own).getKeepAlive, rfl⟩
  | closing unrouted serialized => exact ⟨rfl, rfl⟩
  | file unrouted fresh made =>
    exact ⟨(unconnected_ofFile _).getKeepAlive, rfl⟩

/-- The flag of the queue once the reply to a request is queued. -/
theorem keepFileOpen_of_returned (leave : LeaveConnection routes) {w : World Call.Answer}
    {s s' : Record Call Cache.Caches} {item : ScheduleItem ρ}
    (returned : processRequest site routes r w s = (.ok item, s')) (c : Channel ρ κ) :
    (c.receive item).queue.keepFileOpen = true ↔
      Asynchronous routes r ∧ c.queue.keepFileOpen = true := by
  rw [receive_keep]
  rcases yields_processRequest site routes r w s item (by rw [returned]) with
    ⟨response, answers⟩ | ⟨handler, future, keep, routed, handled, rfl⟩
  · obtain ⟨closes, sync⟩ := keepFileOpen_of_answers leave answers
    -- a handler that has answered at once has not returned a future
    have not_async : ¬ Asynchronous routes r := by
      rintro ⟨handler, future, keep, routed, handled⟩
      cases answers with
      | routed routed' handled' serialized =>
        obtain rfl := Option.some.inj (routed.symm.trans routed')
        cases handled.symm.trans handled'
      | own unrouted | closing unrouted | file unrouted =>
        cases unrouted.symm.trans routed
    simp [sync, closes, not_async]
  · have async : Asynchronous routes r := ⟨handler, future, keep, routed, handled⟩
    simp [ScheduleItem.isFrontAsync, ScheduleItem.ofFuture, Buffer.isAsync, async]

/-- What a handler has answered at once is one text. -/
theorem item_of_routed {handler : Handler ρ} {response : Response}
    (routed : handlerFor routes r = some handler) (handled : handler r = .ok (.sync response))
    {w : World Call.Answer} {s s' : Record Call Cache.Caches} {item : ScheduleItem ρ}
    (returned : processRequest site routes r w s = (.ok item, s')) :
    ∃ text, text ≠ [] ∧ item = .ofData text response.getKeepAlive := by
  rcases yields_processRequest site routes r w s item (by rw [returned]) with
    ⟨response', answers⟩ | ⟨handler', future, keep, routed', handled', -⟩
  · cases answers with
    | routed routed' handled' serialized =>
      obtain rfl := Option.some.inj (routed.symm.trans routed')
      cases handled.symm.trans handled'
      exact ⟨_, Serializer.serialize_ne_nil serialized, rfl⟩
    | own unrouted | closing unrouted | file unrouted => cases unrouted.symm.trans routed
  · obtain rfl := Option.some.inj (routed.symm.trans routed')
    cases handled.symm.trans handled'

end Decision

/-- When the reply to a request has been written, the channel stays open exactly for a request
that asked for it iff the request asked for nothing, or is answered by a future on a channel
whose queue was to be kept open anyway. -/
theorem persistence_iff (env : Env ρ κ ι) (site : Site) {routes : List (Route ρ)}
    (leave : LeaveConnection routes) (r : Request) (w : World Call.Answer)
    (s s' : Record Call Cache.Caches) (item : ScheduleItem ρ)
    (returned : processRequest site routes r w s = (.ok item, s')) (c : Channel ρ κ)
    (turns : List Turn) (t : Turn)
    (drained : ((written env c item turns).channel.turn env t).drained = true) :
    (((written env c item turns).channel.turn env t).next ≠ .remove ↔ KeepAlive r) ↔
      (KeepAlive r ↔ Asynchronous routes r ∧ c.queue.keepFileOpen = true) := by
  have flag : (written env c item turns).channel.queue.keepFileOpen = true ↔
      Asynchronous routes r ∧ c.queue.keepFileOpen = true := by
    rw [written, run_turns_keep]
    exact keepFileOpen_of_returned leave returned c
  rw [remove_of_drained drained, flag]
  exact iff_comm

/-- A server with one route, which greets. -/
def greeting : Site × List (Route Unit) :=
  let site : Site :=
    ⟨⟨bytes "now", id, id, fun _ => none, fun _ => [], .byName⟩, ⟨bytes "/srv", 300, false⟩, ⟨12⟩⟩
  (site, [⟨.get, fun _ => true,
    some fun r => .ok (.sync (.ofText site.platform site.config r (bytes "hello")))⟩])

theorem leaveConnection_greeting : LeaveConnection greeting.2 := by
  intro route mem handler is request response handled
  rw [greeting, List.mem_singleton] at mem
  subst mem
  cases is
  cases handled
  exact .make ..

/-- The theorem at a request without a `Connection` field. -/
theorem persistence_iff_unasked :
    let env : Env Unit Unit Unit :=
      ⟨fun _ => [], ⟨12⟩, fun _ => [], fun _ c => (c, .ok (.empty true)), id, ()⟩
    let r : Request := ⟨.get, ⟨1, 1⟩, ∅, bytes "/", []⟩
    ∃ item s' t, processRequest greeting.1 greeting.2 r (unreadable .notFound) ⟨[], .empty⟩ =
        (.ok item, s') ∧
      ((written env (.new Epoll.read ()) item []).channel.turn env t).drained = true ∧
      (((written env (.new Epoll.read ()) item []).channel.turn env t).next ≠ .remove ↔
        KeepAlive r) := by
  intro env r
  have runs : (processRequest greeting.1 greeting.2 r (unreadable .notFound)
      ⟨[], .empty⟩).1.toBool = true := by decide +kernel
  rcases returned : processRequest greeting.1 greeting.2 r (unreadable .notFound) ⟨[], .empty⟩
    with ⟨result, s'⟩
  rw [returned] at runs
  obtain ⟨item, rfl⟩ := Machine.exists_ok_of_toBool runs
  obtain ⟨text, nonempty, rfl⟩ := item_of_routed rfl rfl returned
  have drained : (((.new Epoll.read () : Channel Unit Unit).receive
      (.ofData text false)).turn env (taking text)).drained = true := drained_ofData nonempty rfl
  refine ⟨_, s', _, rfl, drained, (persistence_iff env greeting.1 leaveConnection_greeting r _ _ s'
    _ returned (.new Epoll.read ()) [] _ drained).mpr ?_⟩
  -- neither did the request ask for it, nor is the answer a future
  refine iff_of_false ?_ fun async => ?_
  · rintro ⟨value, there, -⟩
    cases there
  · obtain ⟨⟨handler, future, keep, routed, handled⟩, -⟩ := async
    cases routed
    cases handled

/-- A request asks for the connection to be kept, and it is closed behind the reply. -/
theorem keep_alive_ignored :
    ¬ ∀ (env : Env Unit Unit Unit) (site : Site) (routes : List (Route Unit)),
      LeaveConnection routes → ∀ (r : Request) (w : World Call.Answer)
        (s s' : Record Call Cache.Caches) (item : ScheduleItem Unit),
        processRequest site routes r w s = (.ok item, s') →
        ∀ (c : Channel Unit Unit) (turns : List Turn) (t : Turn),
          ((written env c item turns).channel.turn env t).drained = true →
          (((written env c item turns).channel.turn env t).next ≠ .remove ↔ KeepAlive r) := by
  intro all
  let env : Env Unit Unit Unit :=
    ⟨fun _ => [], ⟨12⟩, fun _ => [], fun _ c => (c, .ok (.empty true)), id, ()⟩
  let r : Request :=
    ⟨.get, ⟨1, 1⟩, Finmap.singleton connectionField (bytes "keep-alive"), bytes "/", []⟩
  have runs : (processRequest greeting.1 greeting.2 r (unreadable .notFound)
      ⟨[], .empty⟩).1.toBool = true := by decide +kernel
  rcases returned : processRequest greeting.1 greeting.2 r (unreadable .notFound) ⟨[], .empty⟩
    with ⟨result, s'⟩
  rw [returned] at runs
  obtain ⟨item, rfl⟩ := Machine.exists_ok_of_toBool runs
  have flag := keepFileOpen_of_returned leaveConnection_greeting returned
    (.new Epoll.read () : Channel Unit Unit)
  obtain ⟨text, nonempty, rfl⟩ := item_of_routed rfl rfl returned
  have drained : (((.new Epoll.read () : Channel Unit Unit).receive
      (.ofData text false)).turn env (taking text)).drained = true := drained_ofData nonempty rfl
  have decision := all env greeting.1 greeting.2 leaveConnection_greeting r _ _ s' _ returned
    (.new Epoll.read ()) [] _ drained
  have asked : KeepAlive r := ⟨bytes "keep-alive", Finmap.lookup_singleton_eq, by decide⟩
  -- The reply says `Close`, and the queue of a new channel is not kept open either.
  have kept := flag.mp ((remove_of_drained drained).mp (decision.mpr asked))
  cases kept.2

end Viking.Server
