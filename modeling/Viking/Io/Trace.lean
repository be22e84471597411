/-
# The scheduler with a log

`Traced` is the scheduler next to a log of what it does to its channels: the changes of what the
kernel watches, the writing, and the calls of the callbacks with the cookies they find. Each
operation is that of `Scheduler` with what it logs, and `run_scheduler` says so of whole runs.
-/

import Viking.Io.Scheduler

namespace Viking.Io

open Epoll

variable {ρ κ ι : Type}

/-- What is done to a channel. -/
inductive Action (κ ι : Type)
  | added (channel : Address)
  /-- `EPOLL_CTL_MOD` -/
  | modified (channel : Address)
  /-- the loop of `process_write` is entered -/
  | attempted (channel : Address)
  /-- `on_read`, with the cookie before and after it -/
  | received (channel : Address) (before : κ) (input : ι) (after : κ)
  /-- `on_remove`, with the cookie before it -/
  | released (channel : Address) (cookie : κ)

/-- The channel it is done to. -/
def Action.channel : Action κ ι → Address
  | added a | modified a | attempted a | received a _ _ _ | released a _ => a

structure Traced (ρ κ ι : Type) where
  scheduler : Scheduler ρ κ
  log : List (Action κ ι)

namespace Traced

def note (t : Traced ρ κ ι) (actions : List (Action κ ι)) : Traced ρ κ ι :=
  { t with log := t.log ++ actions }

def put (t : Traced ρ κ ι) (a : Address) (c : Channel ρ κ) : Traced ρ κ ι :=
  { t with scheduler := t.scheduler.put a c }

/-- What `poll.update(channel)` logs: only a channel that the poll knows is passed on. -/
def modification (t : Traced ρ κ ι) (a : Address) : List (Action κ ι) :=
  if (t.scheduler.poll.findEvent a).isSome then [.modified a] else []

def update (t : Traced ρ κ ι) (a : Address) (result : CtlResult) :
    Except Stop (Traced ρ κ ι) := do
  let s ← t.scheduler.update a result
  return ⟨s, t.log ++ t.modification a⟩

def add (t : Traced ρ κ ι) (a : Address) (c : Channel ρ κ) (result second : CtlResult) :
    Traced ρ κ ι where
  scheduler := t.scheduler.add a c result second
  log := t.log ++ .added a :: if result = .eexist then t.modification a else []

def remove (t : Traced ρ κ ι) (a : Address) (result : CtlResult) :
    Except Stop (Traced ρ κ ι) := do
  let c ← t.scheduler.find a
  let s ← t.scheduler.remove a result
  return ⟨s, t.log ++ [.released a c.cookie]⟩

variable (env : Env ρ κ ι)

def addNewConnections (t : Traced ρ κ ι) : List Accept → Except Stop (Traced ρ κ ι)
  | [] => .ok t
  | accept :: accepts =>
    if accept.nonBlocking then
      (t.add (accept.place t.scheduler.addresses) (.new (read ||| termination) env.null)
        accept.result accept.second).addNewConnections accepts
    else .error (.fault .terminated)

/-- What the loop of `process_write` logs: an empty queue is not written, and one that was
emptied has `on_remove` called if the channel stays. -/
def writing (a : Address) (c : Channel ρ κ) (written : Turned ρ κ) : List (Action κ ι) :=
  (if c.queue.buffers = [] then [] else [.attempted a]) ++
    if written.drained && c.queue.keepFileOpen then [.released a c.cookie] else []

def processWrite (t : Traced ρ κ ι) (a : Address) (outcomes : List Turn × CtlResult) :
    Except Stop (Traced ρ κ ι) := do
  let c ← t.scheduler.find a
  let written := Io.processWrite env outcomes.1 c
  let t := (t.note (writing a c written)).put a written.channel
  match written.next with
  | .again => .error .unfinished
  | .leave => t.update a outcomes.2
  | .remove => t.remove a outcomes.2

def readFailed (t : Traced ρ κ ι) (a : Address) (v : Visit ι) :
    Fault → Except Stop (Traced ρ κ ι)
  | .thrown .connectionClosedByPeer => t.remove a v.closing
  | .thrown _ => .error (.fault .terminated)
  | fault => .error (.fault fault)

def processRead (t : Traced ρ κ ι) (a : Address) (v : Visit ι) :
    Except Stop (Traced ρ κ ι) := do
  let c ← t.scheduler.find a
  let (cookie, response) := env.onRead v.input c.cookie
  let t := (t.note [.received a c.cookie v.input cookie]).put a { c with cookie := cookie }
  match response with
  | .error fault => t.readFailed a v fault
  | .ok item =>
    if item.buffers = [] then return t
    else do
      let t ← (t.put a ({ c with cookie := cookie }.receive item)).update a v.interest
      t.processWrite env a v.answer

def arm (t : Traced ρ κ ι) (a : Address) (c : Channel ρ κ) (result : CtlResult) :
    Except Stop (Traced ρ κ ι) :=
  if c.flags &&& edgeTriggered = 0 then (t.put a c.armed).update a result else return t

def flush (t : Traced ρ κ ι) (e : Event × Visit ι) : Except Stop (Traced ρ κ ι) :=
  if e.1.canWrite then t.processWrite env e.1.context e.2.flush else return t

def visit (t : Traced ρ κ ι) (e : Event × Visit ι) : Except Stop (Traced ρ κ ι) := do
  let a := e.1.context
  let c ← t.scheduler.find a
  let t ← t.arm a c e.2.arm
  if c.acceptor then t.addNewConnections env e.2.accepts
  else if e.1.canTerminate then t.remove a e.2.closing
  else do
    let t ← if e.1.canRead then t.processRead env a e.2 else pure t
    t.flush env e

/-- `visit` as the step of a machine. -/
def visitStep (t : Traced ρ κ ι) (e : Event × Visit ι) : Except Stop (Unit × Traced ρ κ ι) :=
  (t.visit env e).map ((), ·)

def iterate (t : Traced ρ κ ι) (report : Option (Report ι)) :
    Except Stop (Unit × Traced ρ κ ι) :=
  if t.scheduler.channels = [] then .ok ((), t)
  else
    match report with
    | none => .error (.fault .terminated)
    | some report =>
      (Machine.run (visitStep env) t (t.scheduler.awaited report)).map fun (_, t) => ((), t)

def start (a : Address) (result second : CtlResult) : Traced ρ κ ι where
  scheduler := .start env a result second
  log := [.added a]

theorem find_ensures (t : Traced ρ κ ι) (a : Address) :
    Machine.Ensures (fun c => t.scheduler.find a = .ok c) (t.scheduler.find a) :=
  fun _ found => found

/-! ## What passes keep -/

section Passes

variable {env : Env ρ κ ι} {I : Traced ρ κ ι → Prop} {t : Traced ρ κ ι}

theorem addNewConnections_ensures {P : Accept → Prop}
    (keeps : ∀ t accept, I t → P accept → I (t.add (accept.place t.scheduler.addresses)
      (.new (read ||| termination) env.null) accept.result accept.second))
    (h : I t) {accepts : List Accept} (all : ∀ accept ∈ accepts, P accept) :
    Machine.Ensures I (t.addNewConnections env accepts) := by
  induction accepts generalizing t with
  | nil => exact .ok h
  | cons accept accepts ih =>
    rw [List.forall_mem_cons] at all
    rw [addNewConnections]
    split_ifs
    · exact ih (keeps t accept h all.1) all.2
    · exact .error _

/-- What a pass keeps where it meets a condition, an iteration keeps whose passes all meet it. -/
theorem iterate_ensures {P : Traced ρ κ ι → Event × Visit ι → Prop}
    (keeps : ∀ t e, I t → P t e → Machine.Ensures I (t.visit env e)) (h : I t)
    {report : Option (Report ι)}
    (along : ∀ r ∈ report, Machine.Along (visitStep env) P t (t.scheduler.awaited r)) :
    Machine.Ensures (fun r => I r.2) (t.iterate env report) := by
  unfold iterate
  split_ifs
  · exact .ok h
  · cases report with
    | none => exact .error _
    | some report =>
      have visits : Machine.Ensures (fun r => I r.2)
          (Machine.run (visitStep env) t (t.scheduler.awaited report)) := by
        refine Machine.run_ensures (fun t e kept met => ?_) h (along report rfl)
        rintro ⟨o, after⟩ returned
        obtain ⟨_, visited, same⟩ := Machine.exists_ok_of_map returned
        cases same
        exact keeps t e kept met after visited
      rintro ⟨o, after⟩ returned
      obtain ⟨⟨os, _⟩, visited, same⟩ := Machine.exists_ok_of_map returned
      cases same
      exact visits (os, after) visited

end Passes

/-! ## The log is only a log -/

section Shows

variable {env : Env ρ κ ι} {t : Traced ρ κ ι} {a : Address} {c : Channel ρ κ}
  {x : Except Stop (Traced ρ κ ι)} {y : Except Stop (Scheduler ρ κ)}

/-- Without the log the first is the second. -/
def Shows (x : Except Stop (Traced ρ κ ι)) (y : Except Stop (Scheduler ρ κ)) : Prop :=
  x.map Traced.scheduler = y

theorem Shows.bind {f : Traced ρ κ ι → Except Stop (Traced ρ κ ι)}
    {g : Scheduler ρ κ → Except Stop (Scheduler ρ κ)} (h : Shows x y)
    (rest : ∀ t, Shows (f t) (g t.scheduler)) : Shows (x >>= f) (y >>= g) := by
  subst h
  cases x with
  | error stop => rfl
  | ok t => exact rest t

theorem Shows.find {α : Type} {x : Except Stop α} {f : α → Except Stop (Traced ρ κ ι)}
    {g : α → Except Stop (Scheduler ρ κ)} (rest : ∀ c, Shows (f c) (g c)) :
    Shows (x >>= f) (x >>= g) := by
  cases x with
  | error stop => rfl
  | ok c => exact rest c

theorem update_shows (t : Traced ρ κ ι) (a : Address) (result : CtlResult) :
    Shows (t.update a result) (t.scheduler.update a result) := by
  rw [update]
  cases t.scheduler.update a result <;> rfl

theorem remove_shows (t : Traced ρ κ ι) (a : Address) (result : CtlResult) :
    Shows (t.remove a result) (t.scheduler.remove a result) := by
  rw [remove]
  cases found : t.scheduler.find a with
  | error stop =>
    rw [Scheduler.remove, found]
    rfl
  | ok c =>
    show Shows (t.scheduler.remove a result >>= fun s =>
      pure ⟨s, t.log ++ [.released a c.cookie]⟩) _
    cases t.scheduler.remove a result <;> rfl

theorem addNewConnections_shows (t : Traced ρ κ ι) (accepts : List Accept) :
    Shows (t.addNewConnections env accepts) (t.scheduler.addNewConnections env accepts) := by
  induction accepts generalizing t with
  | nil => rfl
  | cons accept accepts ih =>
    rw [addNewConnections, Scheduler.addNewConnections]
    split
    · exact ih _
    · rfl

theorem processWrite_shows (t : Traced ρ κ ι) (a : Address) (outcomes : List Turn × CtlResult) :
    Shows (t.processWrite env a outcomes) (t.scheduler.processWrite env a outcomes) := by
  refine Shows.find fun c => ?_
  dsimp only
  cases (Io.processWrite env outcomes.1 c).next with
  | again => rfl
  | leave => exact update_shows _ a outcomes.2
  | remove => exact remove_shows _ a outcomes.2

theorem readFailed_shows (t : Traced ρ κ ι) (a : Address) (v : Visit ι) (fault : Fault) :
    Shows (t.readFailed a v fault) (t.scheduler.readFailed a v fault) := by
  cases fault with
  | thrown exception =>
    cases exception <;> first | exact remove_shows t a v.closing | rfl
  | terminated | undefined => rfl

theorem processRead_shows (t : Traced ρ κ ι) (a : Address) (v : Visit ι) :
    Shows (t.processRead env a v) (t.scheduler.processRead env a v) := by
  refine Shows.find fun c => ?_
  rcases env.onRead v.input c.cookie with ⟨cookie, response⟩
  cases response with
  | error fault => exact readFailed_shows _ a v fault
  | ok item =>
    dsimp only
    split_ifs
    · rfl
    · exact (update_shows _ a v.interest).bind fun t => processWrite_shows t a v.answer

theorem arm_shows (t : Traced ρ κ ι) (a : Address) (c : Channel ρ κ) (result : CtlResult) :
    Shows (t.arm a c result) (t.scheduler.arm a c result) := by
  unfold arm Scheduler.arm
  split
  · exact update_shows _ a result
  · rfl

theorem flush_shows (t : Traced ρ κ ι) (e : Event × Visit ι) :
    Shows (t.flush env e) (t.scheduler.flush env e) := by
  unfold flush Scheduler.flush
  split
  · exact processWrite_shows t e.1.context e.2.flush
  · rfl

theorem visit_shows (t : Traced ρ κ ι) (e : Event × Visit ι) :
    Shows (t.visit env e) (t.scheduler.visit env e) := by
  refine Shows.find fun c => ?_
  refine (arm_shows t e.1.context c e.2.arm).bind fun t => ?_
  split_ifs
  · exact addNewConnections_shows t e.2.accepts
  · exact remove_shows t e.1.context e.2.closing
  · exact (processRead_shows t e.1.context e.2).bind fun t => flush_shows t e
  · exact flush_shows t e

theorem visitStep_scheduler (t : Traced ρ κ ι) (e : Event × Visit ι) :
    (t.visitStep env e).map (fun r => (r.1, r.2.scheduler)) =
      t.scheduler.visitStep env e := by
  rw [visitStep, Scheduler.visitStep, ← visit_shows t e]
  cases t.visit env e <;> rfl

theorem iterate_scheduler (t : Traced ρ κ ι) (report : Option (Report ι)) :
    (t.iterate env report).map (fun r => (r.1, r.2.scheduler)) =
      t.scheduler.iterate env report := by
  unfold iterate Scheduler.iterate
  split_ifs
  · rfl
  · cases report with
    | none => rfl
    | some report =>
      have visits : (Machine.run (visitStep env) t (t.scheduler.awaited report)).map
            (fun r => (r.1, r.2.scheduler)) =
          Machine.run (Scheduler.visitStep env) t.scheduler (t.scheduler.awaited report) :=
        Machine.run_project visitStep_scheduler t _
      dsimp only
      rw [← visits]
      cases Machine.run (visitStep env) t (t.scheduler.awaited report) <;> rfl

/-- A run with the log is the run without it. -/
theorem run_scheduler (env : Env ρ κ ι) (a : Address) (result second : CtlResult)
    (reports : List (Option (Report ι))) :
    (Machine.run (iterate env) (start env a result second) reports).map
        (fun r => (r.1, r.2.scheduler)) =
      Machine.run (Scheduler.iterate env) (.start env a result second) reports :=
  Machine.run_project iterate_scheduler _ reports

end Shows

end Traced

end Viking.Io
