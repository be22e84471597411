/-
# The connections of a whole run

An address has one connection after the other: the scheduler adds a channel there, passes of `run`
do to it what its events say, and `remove` ends its life. `Life` is one of these connections with
the bytes that the kernel has taken of it and with what `on_read` has answered to it, and
`Happening` is all that can happen to it.

`run_lives` says of every run of the scheduler that the channel at an address is what the happenings
there make of it, whatever the other channels do in between.
-/

import Viking.Io.Connection
import Viking.Io.Interest
import Viking.Io.Session
import Viking.Lib.Histories

namespace Viking.Io

open Epoll

variable {ρ κ ι : Type}

/-- A connection with the calls of `on_read` that returned, each with the cookie it found, and with
what they have answered. `overtaken` says that a future was answered when something was queued, so
that it went in front of that, and `dropped` are the cookies that `on_remove` was called with while
the channel stayed. -/
structure Life (ρ κ ι : Type) where
  session : Session ρ κ
  calls : List (ι × κ)
  answers : List (Buffer ρ)
  overtaken : Bool
  dropped : List κ

namespace Life

variable (env : Env ρ κ ι)

/-- The life of a channel that was added. -/
def start (c : Channel ρ κ) : Life ρ κ ι := ⟨.start c, [], [], false, []⟩

def connection (l : Life ρ κ ι) : Connection ρ κ := ⟨l.session.channel, l.session.alive⟩

def setChannel (l : Life ρ κ ι) (c : Channel ρ κ) : Life ρ κ ι :=
  { l with session := { l.session with channel := c } }

/-- `remove` -/
def remove (l : Life ρ κ ι) : Life ρ κ ι :=
  let gone := Connection.removed env l.session.channel
  { l with session := { l.session with channel := gone.channel, alive := gone.alive } }

/-- `process_write` -/
def write (l : Life ρ κ ι) (turns : List Turn) : Life ρ κ ι :=
  let written := processWrite env turns l.session.channel
  let dropped := if written.drained && l.session.channel.queue.keepFileOpen then
    [l.session.channel.cookie] else []
  let l := { l with session := l.session.after written, dropped := l.dropped ++ dropped }
  if written.next = .remove then l.remove env else l

/-- What `process_read` queues. -/
def receive (l : Life ρ κ ι) (item : ScheduleItem ρ) : Life ρ κ ι :=
  { l with
    session := { l.session with channel := l.session.channel.receive item }
    answers := l.answers ++ item.buffers
    overtaken := l.overtaken || item.isFrontAsync && !l.session.channel.queue.buffers.isEmpty }

/-- `process_read` -/
def read (l : Life ρ κ ι) (input : ι) (turns : List Turn) : Life ρ κ ι :=
  let found := l.session.channel.cookie
  let (cookie, response) := env.onRead input found
  let l := l.setChannel { l.session.channel with cookie := cookie }
  match response with
  | .ok item =>
    let l := { l with calls := l.calls ++ [(input, found)] }
    if item.buffers = [] then l else (l.receive item).write env turns
  | .error _ => l.remove env

def step (l : Life ρ κ ι) : Activity ι → Life ρ κ ι
  | .readable input turns => if l.session.alive then l.read env input turns else l
  | .writable turns => if l.session.alive then l.write env turns else l

/-- A pass of `run` for an event of the channel. -/
def visit (l : Life ρ κ ι) (e : Event × Visit ι) : Life ρ κ ι :=
  let armed := l.setChannel l.session.channel.armed
  if l.session.channel.acceptor then armed
  else if e.1.canTerminate then armed.remove env
  else (activities e).foldl (step env) armed

end Life

/-- What happens at an address. -/
inductive Happening (ι : Type)
  /-- a connection is accepted and its channel is there -/
  | accepted
  /-- there is an event for the channel -/
  | visited (event : Event × Visit ι)

/-- What it does to the lives there have been at the address, the last one first. -/
def Happening.act (env : Env ρ κ ι) (lives : List (Life ρ κ ι)) : Happening ι → List (Life ρ κ ι)
  | .accepted => .start (.new (read ||| termination) env.null) :: lives
  | .visited e =>
    match lives with
    | [] => []
    | l :: past => l.visit env e :: past

namespace Scheduler

/-- Where the connections that wait get their channels. -/
def places (addresses : List Address) : List Accept → List Address
  | [] => []
  | accept :: accepts =>
    let a := accept.place addresses
    a :: places (addresses ++ [a]) accepts

/-- What a pass through the loop is to the address `x`. -/
def happenings (x : Address) (s : Scheduler ρ κ) (e : Event × Visit ι) : List (Happening ι) :=
  (if e.1.context = x then [.visited e] else []) ++
    match s.find e.1.context with
    | .ok c =>
      if c.acceptor then
        ((places s.addresses e.2.accepts).filter (· = x)).map fun _ => .accepted
      else []
    | .error _ => []

variable (env : Env ρ κ ι)

/-- What a call of `run` is to the address. -/
def iterated (x : Address) (s : Scheduler ρ κ) (report : Option (Report ι)) :
    List (Happening ι) :=
  if s.channels = [] then []
  else report.toList.flatMap fun report =>
    Machine.history (visitStep env) (happenings x) s (s.awaited report)

/-- The lives at `x` at the start: the acceptor is at `a`. -/
def born (a x : Address) : List (Life ρ κ ι) :=
  if x = a then [.start ⟨true, .empty false, Epoll.read ||| termination, env.null⟩] else []

/-- The lives at `x` over a run from the start. -/
def lives (a : Address) (result second : CtlResult) (reports : List (Option (Report ι)))
    (x : Address) : List (Life ρ κ ι) :=
  (Machine.history (iterate env) (iterated env x) (start env a result second) reports).foldl
    (Happening.act env) (born env a x)

end Scheduler

/-! ## A life is a connection -/

namespace Life

variable {env : Env ρ κ ι} {l : Life ρ κ ι} {k : Connection ρ κ}

theorem write_connection {turns : List Turn}
    (h : Connection.write env l.session.channel turns = .ok k) :
    (l.write env turns).connection = k := by
  cases next : (processWrite env turns l.session.channel).next with
  | again =>
    simp only [Connection.write, next] at h
    cases h
  | leave | remove =>
    simp only [Connection.write, next] at h
    cases h
    simp [write, next, connection, Session.after, remove]

theorem read_connection {input : ι} {turns : List Turn}
    (h : Connection.read env l.session.channel input turns = .ok k)
    (alive : l.session.alive = true) :
    (l.read env input turns).connection = k := by
  rcases called : env.onRead input l.session.channel.cookie with ⟨cookie, response⟩
  simp only [Connection.read, called] at h
  simp only [read, called]
  cases response with
  | ok item =>
    dsimp only at h ⊢
    by_cases empty : item.buffers = []
    · rw [if_pos empty] at h ⊢
      cases h
      exact congrArg (Connection.mk _) alive
    · rw [if_neg empty] at h ⊢
      exact write_connection h
  | error fault =>
    cases fault with
    | thrown exception =>
      cases exception with
      | connectionClosedByPeer =>
        cases h
        rfl
      -- any other exception ends the process
      | _ => cases h
    | _ => cases h

theorem step_of_alive (alive : l.session.alive = true) (activity : Activity ι) :
    l.step env activity = match activity with
      | .readable input turns => l.read env input turns
      | .writable turns => l.write env turns := by
  cases activity with
  | readable input turns => exact if_pos alive
  | writable turns => exact if_pos alive

theorem step_of_not_alive (gone : l.session.alive = false) (activity : Activity ι) :
    l.step env activity = l := by
  cases activity with
  | readable input turns => exact if_neg (by simp [gone])
  | writable turns => exact if_neg (by simp [gone])

theorem step_connection {activity : Activity ι} (h : l.connection.step env activity = .ok k) :
    (l.step env activity).connection = k := by
  cases there : l.session.alive with
  | false =>
    have gone : ¬ l.connection.alive = true := by simp [connection, there]
    rw [step_of_not_alive there]
    cases activity with
    | readable input turns => exact Except.ok.inj ((if_neg gone).symm.trans h)
    | writable turns => exact Except.ok.inj ((if_neg gone).symm.trans h)
  | true =>
    have alive : l.connection.alive = true := there
    rw [step_of_alive there]
    cases activity with
    | readable input turns => exact read_connection ((if_pos alive).symm.trans h) there
    | writable turns => exact write_connection ((if_pos alive).symm.trans h)

theorem steps_connection {activities : List (Activity ι)}
    (h : activities.foldlM (Connection.step env) l.connection = .ok k) :
    (activities.foldl (step env) l).connection = k := by
  induction activities generalizing l with
  | nil =>
    cases h
    rfl
  | cons activity activities ih =>
    rw [List.foldlM_cons] at h
    obtain ⟨k', first, rest⟩ := Machine.bind_eq_ok.mp h
    obtain rfl := step_connection first
    exact ih rest

theorem write_acceptor (l : Life ρ κ ι) (turns : List Turn) :
    (l.write env turns).session.channel.acceptor = l.session.channel.acceptor := by
  have written := processWrite_acceptor env turns l.session.channel
  unfold write
  dsimp only
  split_ifs <;> exact written

theorem read_acceptor (l : Life ρ κ ι) (input : ι) (turns : List Turn) :
    (l.read env input turns).session.channel.acceptor = l.session.channel.acceptor := by
  rcases called : env.onRead input l.session.channel.cookie with ⟨cookie, response⟩
  simp only [read, called]
  cases response with
  | error fault => rfl
  | ok item =>
    dsimp only
    split_ifs
    · rfl
    · exact write_acceptor _ turns

/-- Whether it listens never changes. -/
theorem visit_acceptor (l : Life ρ κ ι) (e : Event × Visit ι) :
    (l.visit env e).session.channel.acceptor = l.session.channel.acceptor := by
  have armed : (l.setChannel l.session.channel.armed).session.channel.acceptor =
      l.session.channel.acceptor := by
    show l.session.channel.armed.acceptor = _
    unfold Channel.armed
    split_ifs <;> rfl
  have step (l : Life ρ κ ι) (activity : Activity ι) :
      (l.step env activity).session.channel.acceptor = l.session.channel.acceptor := by
    cases activity with
    | readable input turns =>
      rw [Life.step]
      split_ifs
      · exact read_acceptor l input turns
      · rfl
    | writable turns =>
      rw [Life.step]
      split_ifs
      · exact write_acceptor l turns
      · rfl
  have steps (activities : List (Activity ι)) (l : Life ρ κ ι) :
      (activities.foldl (Life.step env) l).session.channel.acceptor =
        l.session.channel.acceptor := by
    induction activities generalizing l with
    | nil => rfl
    | cons activity activities ih => exact (ih _).trans (step l activity)
  unfold visit
  dsimp only
  split_ifs
  · exact armed
  · exact armed
  · exact (steps _ _).trans armed

end Life

/-! ## A pass leaves the other addresses alone -/

namespace Scheduler

section Elsewhere

variable {env : Env ρ κ ι} {s : Scheduler ρ κ} {a x : Address} {c : Channel ρ κ}

/-- The channel at `x` is not touched. -/
def Spares (x : Address) (s : Scheduler ρ κ) (r : Except Stop (Scheduler ρ κ)) : Prop :=
  Machine.Ensures (fun s' => s'.find x = s.find x) r

theorem Spares.of_find {s' : Scheduler ρ κ} {r : Except Stop (Scheduler ρ κ)}
    (same : s'.find x = s.find x) (h : Spares x s' r) : Spares x s r :=
  fun t returned => (h t returned).trans same

theorem Spares.bind {r : Except Stop (Scheduler ρ κ)}
    {f : Scheduler ρ κ → Except Stop (Scheduler ρ κ)} (h : Spares x s r)
    (rest : ∀ s', Spares x s' (f s')) : Spares x s (r >>= f) :=
  Machine.Ensures.bind h fun s' same => (rest s').of_find same

theorem spares_update (x a : Address) (s : Scheduler ρ κ) (result : CtlResult) :
    Spares x s (s.update a result) := by
  intro s' updated
  obtain ⟨c, -, same⟩ := Machine.bind_eq_ok.mp updated
  cases same
  rfl

variable (ne : x ≠ a)

include ne

theorem spares_remove (s : Scheduler ρ κ) (result : CtlResult) :
    Spares x s (s.remove a result) := by
  intro s' removed
  rw [find_removed removed, if_neg ne]

theorem spares_processWrite (s : Scheduler ρ κ) (outcomes : List Turn × CtlResult) :
    Spares x s (s.processWrite env a outcomes) := by
  intro s' returned
  obtain ⟨c, -, rest⟩ := Machine.bind_eq_ok.mp returned
  have kept := find_put_of_ne (s := s) (c := (Io.processWrite env outcomes.1 c).channel) ne
  dsimp only at rest
  cases next : (Io.processWrite env outcomes.1 c).next with
  | again =>
    rw [next] at rest
    cases rest
  | leave =>
    rw [next] at rest
    exact (spares_update x a _ outcomes.2 s' rest).trans kept
  | remove =>
    rw [next] at rest
    exact (spares_remove ne _ outcomes.2 s' rest).trans kept

theorem spares_processRead (s : Scheduler ρ κ) (v : Visit ι) :
    Spares x s (s.processRead env a v) := by
  refine Machine.Ensures.bind (fun c found => found) fun c (_ : s.find a = .ok c) => ?_
  rcases env.onRead v.input c.cookie with ⟨cookie, response⟩
  have kept := find_put_of_ne (s := s) (c := { c with cookie := cookie }) ne
  refine Spares.of_find kept ?_
  cases response with
  | error fault =>
    by_cases closed : fault = .thrown .connectionClosedByPeer
    · subst closed
      exact spares_remove ne _ v.closing
    · obtain ⟨fault', stopped⟩ := readFailed_of_ne (s := s.put a { c with cookie := cookie })
        (a := a) (v := v) closed
      dsimp only
      rw [stopped]
      exact .error _
  | ok item =>
    dsimp only
    split_ifs
    · exact .ok rfl
    · refine ((spares_update x a _ v.interest).of_find (find_put_of_ne ne)).bind fun s => ?_
      exact spares_processWrite ne s v.answer

theorem spares_arm (s : Scheduler ρ κ) (c : Channel ρ κ) (result : CtlResult) :
    Spares x s (s.arm a c result) := by
  unfold arm
  split_ifs
  · exact (spares_update x a _ result).of_find (find_put_of_ne ne)
  · exact .ok rfl

theorem spares_flush (s : Scheduler ρ κ) {e : Event × Visit ι} (here : e.1.context = a) :
    Spares x s (s.flush env e) := by
  unfold flush
  split_ifs
  · exact here ▸ spares_processWrite (here ▸ ne) s e.2.flush
  · exact .ok rfl

/-- A pass for a connection touches no other channel. -/
theorem spares_visit {e : Event × Visit ι} (here : e.1.context = a) (found : s.find a = .ok c)
    (connection : c.acceptor = false) : Spares x s (s.visit env e) := by
  subst here
  intro s' returned
  obtain ⟨s₁, arm, -⟩ := arm_eq found e.2.arm
  have armed := spares_arm ne s c e.2.arm s₁ arm
  rw [visit_eq found arm, if_neg (by simp [connection])] at returned
  refine Eq.trans ?_ armed
  split_ifs at returned
  · exact spares_remove ne s₁ e.2.closing s' returned
  · exact ((spares_processRead ne s₁ e.2).bind fun s => spares_flush ne s rfl) s' returned
  · exact spares_flush ne s₁ rfl s' returned

end Elsewhere

/-! ## The lives follow the scheduler -/

/-- The channel of the last life, unless it has ended. -/
def living : List (Life ρ κ ι) → Option (Channel ρ κ)
  | [] => none
  | l :: _ => if l.session.alive then some l.session.channel else none

/-- The channel at `x` is that of the last life, and the other lives have ended. -/
structure UpToDate (x : Address) (s : Scheduler ρ κ) (lives : List (Life ρ κ ι)) : Prop where
  channel : (s.find x).toOption = living lives
  ended : ∀ l ∈ lives.tail, l.session.alive = false

section Following

variable {env : Env ρ κ ι} {s s' : Scheduler ρ κ} {x : Address} {c : Channel ρ κ}
  {lives past : List (Life ρ κ ι)} {l : Life ρ κ ι} {e : Event × Visit ι}

theorem UpToDate.of_find (h : UpToDate x s lives) (same : s'.find x = s.find x) :
    UpToDate x s' lives :=
  ⟨same ▸ h.channel, h.ended⟩

theorem UpToDate.of_connection (ended : ∀ l' ∈ past, l'.session.alive = false)
    (follows : if l.session.alive then s'.find x = .ok l.session.channel else x ∉ s'.addresses) :
    UpToDate x s' (l :: past) where
  channel := by
    rw [living]
    split_ifs at follows ⊢
    · rw [follows]
      rfl
    · rw [find_of_not_mem follows]
      rfl
  ended := ended

/-- A channel that is there is that of a life. -/
theorem UpToDate.exists_life (h : UpToDate x s lives) (found : s.find x = .ok c) :
    ∃ l past, lives = l :: past ∧ l.session.alive = true ∧ l.session.channel = c := by
  have there : living lives = some c := by
    rw [← h.channel, found]
    rfl
  cases lives with
  | nil => cases there
  | cons l past =>
    rw [living] at there
    split_ifs at there with alive
    exact ⟨l, past, rfl, alive, Option.some.inj there⟩

/-- Where there is no channel all lives have ended. -/
theorem UpToDate.all_ended (h : UpToDate x s lives) (free : x ∉ s.addresses) :
    ∀ l ∈ lives, l.session.alive = false := by
  have none : living lives = none := by
    rw [← h.channel, find_of_not_mem free]
    rfl
  cases lives with
  | nil => exact fun l mem => absurd mem List.not_mem_nil
  | cons l past =>
    rw [living] at none
    split_ifs at none with alive
    exact List.forall_mem_cons.mpr ⟨Bool.eq_false_of_not_eq_true alive, h.ended⟩

/-- The connections that are accepted get new lives, each at the address of its channel. -/
theorem UpToDate.addNewConnections (h : UpToDate x s lives) (accepts : List Accept) :
    Machine.Ensures
      (fun s' => UpToDate x s' ((((places s.addresses accepts).filter (· = x)).map fun _ =>
        Happening.accepted).foldl (Happening.act env) lives))
      (s.addNewConnections env accepts) := by
  induction accepts generalizing s lives with
  | nil => exact .ok h
  | cons accept accepts ih =>
    rw [Scheduler.addNewConnections]
    split_ifs
    · have free := accept.fresh s.addresses
      let c : Channel ρ κ := .new (Epoll.read ||| termination) env.null
      let grown := s.add (accept.place s.addresses) c accept.result accept.second
      have addresses : grown.addresses = s.addresses ++ [accept.place s.addresses] :=
        List.map_append
      have found : grown.find x =
          if x = accept.place s.addresses then .ok c else s.find x := find_add free accept.second
      rw [places, ← addresses]
      by_cases here : x = accept.place s.addresses
      · rw [List.filter_cons_of_pos (by simp [here]), List.map_cons, List.foldl_cons]
        refine ih ?_
        -- the life before has ended, as the address was free
        refine .of_connection (h.all_ended (here ▸ free)) ?_
        rw [if_pos here] at found
        exact (if_pos rfl).mpr found
      · rw [List.filter_cons_of_neg (by simpa using Ne.symm here)]
        rw [if_neg here] at found
        exact ih (h.of_find found)
    · exact .error _

/-- A pass of `run` at an address does to the life there what the event says. -/
theorem UpToDate.visit (h : UpToDate x s lives) (here : e.1.context = x)
    (found : s.find x = .ok c) (connection : c.acceptor = false) :
    Machine.Ensures (fun s' => UpToDate x s' (Happening.act env lives (.visited e)))
      (s.visit env e) := by
  obtain ⟨l, past, rfl, alive, rfl⟩ := h.exists_life found
  subst here
  intro s' returned
  refine .of_connection h.ended ?_
  show if (l.visit env e).session.alive then
    s'.find e.1.context = .ok (l.visit env e).session.channel else e.1.context ∉ s'.addresses
  by_cases terminates : e.1.canTerminate = true
  · -- the channel is removed
    obtain ⟨s₁, arm, -, there, -⟩ := arm_eq found e.2.arm
    rw [visit_eq found arm, if_neg (by simp [connection]), if_pos terminates] at returned
    have gone := (keeps_remove (mem_of_find there)).stays s' returned
    simp only [Life.visit, connection, terminates, Life.remove, Connection.removed,
      Bool.false_eq_true, if_false, if_true]
    exact gone.mp
  · have goes : e.1.canTerminate = false := Bool.eq_false_of_not_eq_true terminates
    obtain ⟨k, steps, follows⟩ := visit_follows found connection goes s' returned
    have armed : (l.setChannel l.session.channel.armed).connection =
        ⟨l.session.channel.armed, true⟩ := congrArg (Connection.mk _) alive
    rw [← armed] at steps
    have same : (l.visit env e).connection = k := by
      simp only [Life.visit, connection, goes, Bool.false_eq_true, if_false]
      exact Life.steps_connection steps
    subst same
    exact follows

/-- The acceptor is armed, and the connections that wait are added. -/
theorem UpToDate.accept (h : UpToDate x s lives) (found : s.find e.1.context = .ok c)
    (acceptor : c.acceptor = true) :
    Machine.Ensures (fun s' => UpToDate x s' ((happenings x s e).foldl (Happening.act env) lives))
      (s.visit env e) := by
  obtain ⟨s₁, arm, frame, there, -⟩ := arm_eq found e.2.arm
  have addresses : s₁.addresses = s.addresses := by
    unfold Scheduler.arm at arm
    split_ifs at arm
    · obtain ⟨c', -, same⟩ := Machine.bind_eq_ok.mp arm
      cases same
      exact addresses_put
    · cases arm
      rfl
  have armed : UpToDate x s₁
      ((if e.1.context = x then [.visited e] else []).foldl (Happening.act env) lives) := by
    by_cases here : e.1.context = x
    · subst here
      obtain ⟨l, past, rfl, alive, rfl⟩ := h.exists_life found
      rw [if_pos rfl]
      refine .of_connection h.ended ?_
      simp only [Life.visit, acceptor, Life.setChannel, alive, if_true]
      exact there
    · rw [if_neg here]
      exact h.of_find (spares_arm (Ne.symm here) s c e.2.arm s₁ arm)
  rw [visit_eq found arm, if_pos acceptor, happenings, found, List.foldl_append]
  simp only [acceptor, if_true]
  rw [← addresses]
  exact armed.addNewConnections e.2.accepts

/-- A pass of `run` does to the address what happens there, and nothing else. -/
theorem UpToDate.happens (h : UpToDate x s lives) (e : Event × Visit ι) :
    Machine.Ensures (fun s' => UpToDate x s' ((happenings x s e).foldl (Happening.act env) lives))
      (s.visit env e) := by
  intro s' returned
  obtain ⟨c, found, -⟩ := Machine.bind_eq_ok.mp returned
  cases acceptor : c.acceptor with
  | true => exact h.accept found acceptor s' returned
  | false =>
    rw [happenings, found]
    simp only [acceptor, Bool.false_eq_true, if_false, List.append_nil]
    by_cases here : e.1.context = x
    · rw [if_pos here]
      exact h.visit here (here ▸ found) acceptor s' returned
    · rw [if_neg here]
      exact h.of_find (spares_visit (Ne.symm here) rfl found acceptor s' returned)

theorem upToDate_start (env : Env ρ κ ι) (a : Address) (result second : CtlResult) (x : Address) :
    UpToDate x (start env a result second) (born env a x) := by
  have found : (start env a result second).find x =
      if x = a then .ok ⟨true, .empty false, Epoll.read ||| termination, env.null⟩
      else (⟨[], .empty⟩ : Scheduler ρ κ).find x := find_add List.not_mem_nil second
  unfold born
  by_cases here : x = a
  · rw [if_pos here] at found ⊢
    exact .of_connection (fun l mem => absurd mem List.not_mem_nil) ((if_pos rfl).mpr found)
  · rw [if_neg here] at found ⊢
    exact ⟨congrArg Except.toOption found, fun l mem => absurd mem List.not_mem_nil⟩

/-- The acceptor is at `a` for good, and only there. -/
def Roles (a x : Address) (lives : List (Life ρ κ ι)) : Prop :=
  if x = a then
    ∃ l, lives = [l] ∧ l.session.alive = true ∧ l.session.channel.acceptor = true
  else ∀ l ∈ lives, l.session.channel.acceptor = false

variable {a : Address}

theorem Roles.act (h : Roles a x lives) (happening : Happening ι)
    (elsewhere : happening = .accepted → x ≠ a) : Roles a x (happening.act env lives) := by
  unfold Roles at h ⊢
  by_cases here : x = a
  · rw [if_pos here] at h ⊢
    obtain ⟨l, rfl, alive, acceptor⟩ := h
    cases happening with
    | accepted => exact absurd here (elsewhere rfl)
    | visited e =>
      have armed : l.visit env e = l.setChannel l.session.channel.armed := if_pos acceptor
      refine ⟨_, rfl, ?_, (Life.visit_acceptor l e).trans acceptor⟩
      exact armed ▸ alive
  · rw [if_neg here] at h ⊢
    cases happening with
    | accepted => exact List.forall_mem_cons.mpr ⟨rfl, h⟩
    | visited e =>
      cases lives with
      | nil => exact h
      | cons l past =>
        rw [List.forall_mem_cons] at h
        exact List.forall_mem_cons.mpr ⟨(Life.visit_acceptor l e).trans h.1, h.2⟩

theorem Roles.acts (h : Roles a x lives) {all : List (Happening ι)}
    (elsewhere : ∀ happening ∈ all, happening = .accepted → x ≠ a) :
    Roles a x (all.foldl (Happening.act env) lives) := by
  induction all generalizing lives with
  | nil => exact h
  | cons happening all ih =>
    rw [List.forall_mem_cons] at elsewhere
    exact ih (h.act happening elsewhere.1) elsewhere.2

/-- A new channel gets a place where there is none. -/
theorem not_mem_of_places {addresses : List Address} {accepts : List Accept}
    (mem : x ∈ places addresses accepts) : x ∉ addresses := by
  induction accepts generalizing addresses with
  | nil => cases mem
  | cons accept accepts ih =>
    rcases List.mem_cons.mp mem with rfl | later
    · exact accept.fresh addresses
    · exact fun there => ih later (List.mem_append_left _ there)

theorem not_mem_of_accepted (mem : .accepted ∈ happenings x s e) : x ∉ s.addresses := by
  unfold happenings at mem
  rcases List.mem_append.mp mem with visited | accepted
  · split_ifs at visited
    · simp at visited
    · cases visited
  · split at accepted
    · split_ifs at accepted
      · obtain ⟨y, there, -⟩ := List.mem_map.mp accepted
        obtain ⟨placed, same⟩ := List.mem_filter.mp there
        exact not_mem_of_places (of_decide_eq_true same ▸ placed)
      · cases accepted
    · cases accepted

/-- What the lives at `x` are after a run from the start. -/
structure Lived (a x : Address) (s : Scheduler ρ κ) (lives : List (Life ρ κ ι)) : Prop
    extends UpToDate x s lives where
  roles : Roles a x lives

theorem Lived.visit (h : Lived a x s lives) {o : Unit}
    (returned : s.visitStep env e = .ok (o, s')) :
    Lived a x s' ((happenings x s e).foldl (Happening.act env) lives) where
  toUpToDate := by
    obtain ⟨s₁, visited, same⟩ := Machine.exists_ok_of_map returned
    cases same
    exact h.happens e _ visited
  roles := by
    have elsewhere : ∀ happening ∈ happenings x s e, happening = .accepted → x ≠ a := by
      rintro happening mem rfl rfl
      -- the acceptor is there, so nothing is put where it is
      obtain ⟨l, rfl, alive, -⟩ := (if_pos rfl).mp h.roles
      have ended := h.all_ended (not_mem_of_accepted mem) l (List.mem_singleton.mpr rfl)
      rw [alive] at ended
      cases ended
    exact h.roles.acts elsewhere

theorem Lived.iterate (h : Lived a x s lives) {report : Option (Report ι)} {o : Unit}
    (returned : s.iterate env report = .ok (o, s')) :
    Lived a x s' ((iterated env x s report).foldl (Happening.act env) lives) := by
  unfold Scheduler.iterate at returned
  unfold iterated
  split_ifs at returned ⊢
  · cases returned
    exact h
  · cases report with
    | none => cases returned
    | some report =>
      obtain ⟨⟨os, s₁⟩, visited, same⟩ := Machine.exists_ok_of_map returned
      cases same
      rw [Option.toList_some, List.flatMap_singleton]
      exact Machine.run_history (fun s e o s' lives h step => h.visit step) h visited

theorem lived_start (env : Env ρ κ ι) (a : Address) (result second : CtlResult) (x : Address) :
    Lived a x (start env a result second) (born env a x) where
  toUpToDate := upToDate_start env a result second x
  roles := by
    unfold Roles born
    split_ifs
    · exact ⟨_, rfl, rfl, rfl⟩
    · exact fun l mem => absurd mem List.not_mem_nil

theorem lived_run {result second : CtlResult} {reports : List (Option (Report ι))} {os : List Unit}
    (returned : Machine.run (iterate env) (start env a result second) reports = .ok (os, s'))
    (x : Address) : Lived a x s' (Scheduler.lives env a result second reports x) :=
  Machine.run_history (fun _ _ _ _ _ h step => h.iterate step)
    (lived_start env a result second x) returned

end Following

/-- What holds of a life when it starts and is kept by every pass holds of all lives of a run. -/
theorem forall_lives {env : Env ρ κ ι} {a : Address} {result second : CtlResult}
    {reports : List (Option (Report ι))} {P : Life ρ κ ι → Prop}
    (starts : ∀ c : Channel ρ κ, c.queue.buffers = [] → c.cookie = env.null → P (.start c))
    (visits : ∀ l e, P l → P (l.visit env e)) (x : Address) :
    ∀ l ∈ lives env a result second reports x, P l := by
  have acts (happenings : List (Happening ι)) {lives : List (Life ρ κ ι)} (h : ∀ l ∈ lives, P l) :
      ∀ l ∈ happenings.foldl (Happening.act env) lives, P l := by
    induction happenings generalizing lives with
    | nil => exact h
    | cons happening happenings ih =>
      refine ih ?_
      cases happening with
      | accepted => exact List.forall_mem_cons.mpr ⟨starts _ rfl rfl, h⟩
      | visited e =>
        cases lives with
        | nil => exact h
        | cons l past =>
          rw [List.forall_mem_cons] at h
          exact List.forall_mem_cons.mpr ⟨visits l e h.1, h.2⟩
  refine acts _ ?_
  unfold born
  split_ifs
  · exact List.forall_mem_singleton.mpr (starts _ rfl rfl)
  · exact fun l mem => absurd mem List.not_mem_nil

/-- After every run of the scheduler the channel at an address is that of its last life, and the
lives before have ended; the acceptor lives at its address for good and listens there only. -/
theorem run_lives (env : Env ρ κ ι) (a : Address) (result second : CtlResult)
    (reports : List (Option (Report ι))) {os : List Unit} {s' : Scheduler ρ κ}
    (returned : Machine.run (iterate env) (start env a result second) reports = .ok (os, s'))
    (x : Address) :
    let lives := Scheduler.lives env a result second reports x
    (s'.find x).toOption = living lives ∧ (∀ l ∈ lives.tail, l.session.alive = false) ∧
      Roles a x lives :=
  have lived := lived_run returned x
  ⟨lived.channel, lived.ended, lived.roles⟩

/-- Two connections one after the other, both at the address 1: the first is answered and then
closed by its peer, the second waits for its request. -/
theorem run_lives_reused :
    let env : Env Unit Unit Unit :=
      ⟨fun _ => [], ⟨12⟩, fun _ => [], fun _ c => (c, .ok (.ofData (bytes "hi") true)), id, ()⟩
    let accept : Accept :=
      { place := fun addresses => addresses.sum + 1
        fresh := fun _ mem => Nat.not_succ_le_self _ (List.le_sum_of_mem mem)
        nonBlocking := true
        result := .ok
        second := .ok }
    let sent : Turn := ⟨false, [.ok 2], .failed .eagain, false⟩
    let meets (accepts : List Accept) : Visit Unit :=
      ⟨.ok, (), .ok, ([sent], .ok), ([], .ok), .ok, accepts⟩
    let reports : List (Option (Report Unit)) :=
      [some (.ofEvent (⟨0, Epoll.read⟩, meets [accept])),
        some (.ofEvent (⟨1, Epoll.read⟩, meets [])),
        some (.ofEvent (⟨1, Epoll.termination⟩, meets [])),
        some (.ofEvent (⟨0, Epoll.read⟩, meets [accept]))]
    let lives := Scheduler.lives env 0 .ok .ok reports 1
    (lives.map fun l => (l.session.alive, l.session.accepted)) =
        [(true, []), (false, bytes "hi")] ∧
      ∃ s', (find s' 1).toOption = living lives ∧
        (∀ l ∈ lives.tail, l.session.alive = false) ∧ Roles 0 1 lives := by
  intro env accept sent meets reports lives
  obtain ⟨⟨os, s'⟩, returned⟩ := Machine.exists_ok_of_toBool
    (show (Machine.run (iterate env) (start env 0 .ok .ok) reports).toBool = true by
      decide +kernel)
  exact ⟨by decide +kernel, s', run_lives env 0 .ok .ok reports returned 1⟩

end Scheduler

end Viking.Io
