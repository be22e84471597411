/-
# Conversations

The connections of the server over whole runs of its scheduler: what the client sends, the requests
that are read from it, and what the client gets. On every connection the requests that were passed
are those that its own reads make up, and the kernel takes the answers to them, in their order, and
nothing else. There are two exceptions, both of single connections: a future that was answered when
something was queued, and a queue that was emptied while part of a request had been received, with
which `remove_pending_contexts` has thrown that part away.
-/

import Viking.Io.Delivery
import Viking.Server.Receiving

namespace Viking.Server

open Http Io Epoll

variable {traversal : Traversal} {files : Fd → Bytes} {page : PageSize}

/-- A read of a connection, with the context that it finds. -/
abbrev Call (traversal : Traversal) := Incoming traversal × Option Context

abbrev ServerLife (traversal : Traversal) :=
  Life (Serializable traversal) (Option Context) (Incoming traversal)

/-- What is answered to a request, if one was passed. -/
def answerTo (call : Call traversal) (request : Option Request) :
    List (Buffer (Serializable traversal)) :=
  request.elim [] fun request => (call.1.answer request).buffers

/-- What is answered to the requests that the reads have passed. -/
def answersTo (calls : List (Call traversal)) (passed : List (Option Request)) :
    List (Buffer (Serializable traversal)) :=
  (calls.zip passed).flatMap fun answered => answerTo answered.1 answered.2

/-- What the connection has read on its own: the requests that were passed, each answered, and the
context of the request that is being received. -/
structure Conversed (files : Fd → Bytes) (page : PageSize) (l : ServerLife traversal)
    (passed : List (Option Request)) (cookie : Option Context) : Prop where
  reads : Machine.run serve none (l.calls.map fun call => call.1.arrival) = .ok (passed, cookie)
  length : passed.length = l.calls.length
  answers : l.calls.flatMap (environment traversal files page).answer = answersTo l.calls passed
  cookie : l.session.alive = true → l.session.channel.cookie = cookie

/-- Unless part of a request was thrown away, the connection goes on as its reads say. -/
def Converses (files : Fd → Bytes) (page : PageSize) (l : ServerLife traversal) : Prop :=
  (∀ cookie ∈ l.dropped, cookie = none) → ∃ passed cookie, Conversed files page l passed cookie

section Steps

variable {l : ServerLife traversal}

theorem answer_of_served {call : Call traversal} {request : Option Request}
    {cookie : Option Context} (served : serve call.2 call.1.arrival = .ok (request, cookie)) :
    (environment traversal files page).answer call = answerTo call request := by
  cases request <;>
    simp only [Env.answer, environment, env, handleConnection, served, answerTo, Option.elim,
      ScheduleItem.empty]

/-- A call that returns has read what there was. -/
theorem served_of_called {incoming : Incoming traversal} {before cookie : Option Context}
    {item : ScheduleItem (Serializable traversal)}
    (called : (environment traversal files page).onRead incoming before = (cookie, .ok item)) :
    ∃ request, serve before incoming.arrival = .ok (request, cookie) := by
  simp only [environment, env, handleConnection] at called
  rcases served : serve before incoming.arrival with fault | ⟨_ | request, cookie'⟩
  · rw [served] at called
    cases called
  · rw [served] at called
    cases called
    exact ⟨none, rfl⟩
  · rw [served] at called
    cases called
    exact ⟨some request, rfl⟩

theorem converses_start {c : Channel (Serializable traversal) (Option Context)}
    (null : c.cookie = none) : Converses files page (.start c : ServerLife traversal) :=
  fun _ => ⟨[], none, rfl, rfl, rfl, fun _ => null⟩

theorem Converses.remove (h : Converses files page l) :
    Converses files page (l.remove (environment traversal files page)) := by
  intro whole
  obtain ⟨passed, cookie, conversed⟩ := h whole
  refine ⟨passed, cookie, conversed.reads, conversed.length, conversed.answers, fun alive => ?_⟩
  cases alive

theorem Converses.setChannel (h : Converses files page l)
    {c : Channel (Serializable traversal) (Option Context)}
    (same : c.cookie = l.session.channel.cookie) : Converses files page (l.setChannel c) := by
  intro whole
  obtain ⟨passed, cookie, conversed⟩ := h whole
  exact ⟨passed, cookie, conversed.reads, conversed.length, conversed.answers,
    fun alive => same.trans (conversed.cookie alive)⟩

/-- The cookie is as before, also when the queue was emptied while there was none. -/
theorem Converses.write (h : Converses files page l) (alive : l.session.alive = true)
    (turns : List Turn) :
    Converses files page (l.write (environment traversal files page) turns) := by
  have cookie := processWrite_cookie (environment traversal files page) turns l.session.channel
  by_cases drained : (processWrite (environment traversal files page) turns
      l.session.channel).drained = true ∧ l.session.channel.queue.keepFileOpen = true
  · have written : Converses files page
        { l with
          session := l.session.after (processWrite (environment traversal files page) turns
            l.session.channel)
          dropped := l.dropped ++ [l.session.channel.cookie] } := by
      intro whole
      obtain ⟨passed, found, conversed⟩ := h fun c mem => whole c (List.mem_append_left _ mem)
      have none := whole _ (List.mem_append_right _ (List.mem_singleton.mpr rfl))
      refine ⟨passed, found, conversed.reads, conversed.length, conversed.answers, fun _ => ?_⟩
      rw [← conversed.cookie alive, none]
      exact cookie.trans (if_pos drained)
    have noted : ((processWrite (environment traversal files page) turns
        l.session.channel).drained && l.session.channel.queue.keepFileOpen) = true := by
      rw [drained.1, drained.2, Bool.and_self]
    simp only [Life.write, noted, if_true]
    split_ifs
    · exact written.remove
    · exact written
  · have written : Converses files page
        { l with
          session := l.session.after (processWrite (environment traversal files page) turns
            l.session.channel) } := by
      intro whole
      obtain ⟨passed, found, conversed⟩ := h whole
      refine ⟨passed, found, conversed.reads, conversed.length, conversed.answers, fun _ => ?_⟩
      rw [← conversed.cookie alive]
      exact cookie.trans (if_neg drained)
    have quiet : ((processWrite (environment traversal files page) turns
        l.session.channel).drained && l.session.channel.queue.keepFileOpen) = false := by
      rw [← Bool.not_eq_true, Bool.and_eq_true]
      exact drained
    simp only [Life.write, quiet, Bool.false_eq_true, if_false, List.append_nil]
    split_ifs
    · exact written.remove
    · exact written

/-- One read more, and what it passes is answered. -/
theorem Converses.called (h : Converses files page l) (alive : l.session.alive = true)
    {incoming : Incoming traversal} {request : Option Request} {cookie : Option Context}
    (served : serve l.session.channel.cookie incoming.arrival = .ok (request, cookie)) :
    Converses files page
      { l with
        session := { l.session with channel := { l.session.channel with cookie := cookie } }
        calls := l.calls ++ [(incoming, l.session.channel.cookie)] } := by
  intro whole
  obtain ⟨passed, found, conversed⟩ := h whole
  obtain rfl := conversed.cookie alive
  refine ⟨passed ++ [request], cookie, ?_, ?_, ?_, fun _ => rfl⟩
  · rw [List.map_append]
    exact Machine.run_snoc_eq_ok.mpr ⟨passed, request, _, conversed.reads, served, rfl⟩
  · rw [List.length_append, List.length_append, conversed.length]
    rfl
  · rw [List.flatMap_append, List.flatMap_singleton, conversed.answers, answer_of_served served,
      answersTo, answersTo, List.zip_append conversed.length.symm, List.flatMap_append]
    exact congrArg _ (List.append_nil (answerTo (incoming, l.session.channel.cookie) request)).symm

/-- What is queued is no matter of the reads. -/
theorem Converses.receive (h : Converses files page l)
    (item : ScheduleItem (Serializable traversal)) : Converses files page (l.receive item) := by
  intro whole
  obtain ⟨passed, cookie, conversed⟩ := h whole
  exact ⟨passed, cookie, conversed.reads, conversed.length, conversed.answers, conversed.cookie⟩

theorem Converses.read (h : Converses files page l) (alive : l.session.alive = true)
    (incoming : Incoming traversal) (turns : List Turn) :
    Converses files page (l.read (environment traversal files page) incoming turns) := by
  rcases called : (environment traversal files page).onRead incoming l.session.channel.cookie with
    ⟨cookie, response⟩
  simp only [Life.read, called]
  cases response with
  | error fault =>
    intro whole
    obtain ⟨passed, found, conversed⟩ := h whole
    refine ⟨passed, found, conversed.reads, conversed.length, conversed.answers, fun alive => ?_⟩
    cases alive
  | ok item =>
    obtain ⟨request, served⟩ := served_of_called called
    have read := h.called alive served
    dsimp only
    split_ifs
    · exact read
    · exact (read.receive item).write alive turns

theorem Converses.visit (h : Converses files page l)
    (e : Event × Visit (Incoming traversal)) :
    Converses files page (l.visit (environment traversal files page) e) := by
  have armed : Converses files page (l.setChannel l.session.channel.armed) := by
    refine h.setChannel ?_
    unfold Channel.armed
    split_ifs <;> rfl
  have steps (activities : List (Activity (Incoming traversal))) {l : ServerLife traversal}
      (h : Converses files page l) : Converses files page
        (activities.foldl (Life.step (environment traversal files page)) l) := by
    induction activities generalizing l with
    | nil => exact h
    | cons activity activities ih =>
      refine ih ?_
      by_cases alive : l.session.alive = true
      · rw [Life.step_of_alive alive]
        cases activity with
        | readable incoming turns => exact h.read alive incoming turns
        | writable turns => exact h.write alive turns
      · rw [Life.step_of_not_alive (Bool.eq_false_of_not_eq_true alive)]
        exact h
  unfold Life.visit
  dsimp only
  split_ifs
  · exact armed
  · exact armed.remove
  · exact steps _ armed

end Steps

/-- Over every run of the server, on every connection that ever was: the requests that were passed
are those that the connection's reads make up, and the kernel has taken a first part of the answers
to them; the rest, and the request that is being received, are in the channel while it is there. -/
theorem conversations {a : Address} {result second : CtlResult}
    {reports : List (Option (Report (Incoming traversal)))} {os : List Unit}
    {s' : Scheduler (Serializable traversal) (Option Context)}
    (returned : Machine.run (Scheduler.iterate (environment traversal files page))
      (.start (environment traversal files page) a result second) reports = .ok (os, s'))
    (x : Address) :
    let env := environment traversal files page
    ∀ l ∈ Scheduler.lives env a result second reports x,
      (∀ call ∈ l.calls, env.Answers call) → l.overtaken = false →
        (∀ cookie ∈ l.dropped, cookie = none) →
        ∃ passed cookie,
          Machine.run serve none (l.calls.map fun call => call.1.arrival) = .ok (passed, cookie) ∧
            passed.length = l.calls.length ∧
            l.session.accepted <+: env.contents (answersTo l.calls passed) ∧
            (l.session.alive = true → ∃ c, s'.find x = .ok c ∧ c.cookie = cookie ∧
              l.session.accepted ++ env.contents c.queue.buffers =
                env.contents (answersTo l.calls passed)) := by
  intro env l mem well clear whole
  have converses : Converses files page l :=
    Scheduler.forall_lives (fun _ _ null => converses_start null) (fun _ e h => h.visit e) x l mem
  obtain ⟨passed, cookie, conversed⟩ := converses whole
  have served := Scheduler.served_lives (fun _ => Serializable.text_ne_nil _) x l mem
  have delivered := served.delivered well clear
  rw [served.answers, conversed.answers] at delivered
  refine ⟨passed, cookie, conversed.reads, conversed.length, delivered.accepted_part,
    fun alive => ?_⟩
  refine ⟨l.session.channel, (Scheduler.lived_run returned x).find_of_alive mem alive,
    conversed.cookie alive, ?_⟩
  exact (delivered.kept alive).accepted_rest

/-- A request that comes in two reads is answered, and then another one. -/
theorem conversations_two :
    let env := environment .byName (fun _ => []) ⟨12⟩
    let incoming (text : Bytes) (nonempty : text ≠ []) : Incoming .byName :=
      ⟨⟨⟨.get, ⟨1, 1⟩, ⟨false, false⟩⟩, .data text nonempty⟩,
        fun request => .ofData (request.url ++ bytes "!") true⟩
    let accept : Accept :=
      { place := fun addresses => addresses.sum + 1
        fresh := fun _ mem => Nat.not_succ_le_self _ (List.le_sum_of_mem mem)
        nonBlocking := true
        result := .ok
        second := .ok }
    let full : Turn := ⟨false, [], .failed .eagain, false⟩
    let meets (text : Bytes) (nonempty : text ≠ []) (accepts : List Accept) :
        Visit (Incoming .byName) :=
      ⟨.ok, incoming text nonempty, .ok, ([{ full with sends := [.ok 2] }, full], .ok),
        ([full], .ok), .ok, accepts⟩
    let reports : List (Option (Report (Incoming .byName))) :=
      [some (.ofEvent (⟨0, Epoll.read⟩, meets (bytes "-") (by decide) [accept])),
        some (.ofEvent (⟨1, Epoll.read⟩,
          meets (bytes "POST /a HTTP/1.1\r\nContent-Length: 2\r\n\r\nh") (by decide +kernel) [])),
        some (.ofEvent (⟨1, Epoll.read⟩, meets (bytes "i") (by decide) [])),
        some (.ofEvent (⟨1, Epoll.read⟩,
          meets (bytes "GET /b HTTP/1.1\r\n\r\n") (by decide +kernel) []))]
    let lives := Scheduler.lives env 0 .ok .ok reports 1
    (lives.map fun l => l.session.accepted) = [bytes "/a!"] ∧
      ∃ s' : Scheduler (Serializable .byName) (Option Context), ∀ l ∈ lives,
        ∃ passed cookie,
          Machine.run serve none (l.calls.map fun call => call.1.arrival) = .ok (passed, cookie) ∧
            passed.length = l.calls.length ∧
            l.session.accepted <+: env.contents (answersTo l.calls passed) ∧
            (l.session.alive = true → ∃ c, s'.find 1 = .ok c ∧ c.cookie = cookie ∧
              l.session.accepted ++ env.contents c.queue.buffers =
                env.contents (answersTo l.calls passed)) := by
  intro env incoming accept full meets reports lives
  obtain ⟨⟨os, s'⟩, returned⟩ := Machine.exists_ok_of_toBool
    (show (Machine.run (Scheduler.iterate env) (.start env 0 .ok .ok) reports).toBool = true by
      decide +kernel)
  have inMemory : ∀ l ∈ lives, ∀ call ∈ l.calls, ∀ b ∈ env.answer call,
      b.isAsync = false ∧ b.Covered env.files := by
    decide +kernel
  have clear : ∀ l ∈ lives, l.overtaken = false ∧ ∀ cookie ∈ l.dropped, cookie = none := by
    decide +kernel
  refine ⟨by decide +kernel, s', fun l mem => ?_⟩
  exact conversations returned 1 l mem
    (fun call called => ⟨.inl fun b answered => (inMemory l mem call called b answered).1,
      fun b answered => (inMemory l mem call called b answered).2⟩)
    (clear l mem).1 (clear l mem).2

end Viking.Server
