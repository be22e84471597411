/-
# Moving files

`unix_file` is made from a path with a function that acquires the descriptor and one that releases
it, and it can be moved. A move takes the descriptor and the offset along, but neither the size nor
the functions, and a constructor that throws has no destructor to release what it has acquired.

`Objects` are the files that a program has, each with all its members. A run of the program is
`Balanced` when what it acquires is released as it has to be and every move hands over what is to
be sent; `balanced_iff` says which runs are.
-/

import Viking.Io.Buffers
import Viking.Lib.Machine
import Viking.Lib.Owning

namespace Viking.Io

open Owning Machine

/-- A descriptor as an acquire function has returned it. The program has only the number;
`acquisition` counts the acquisitions, and `given` is the release function that came with it. -/
structure Descriptor (R : Type) where
  number : Fd
  acquisition : Nat
  given : R
  deriving DecidableEq

/-- `unix_file` with all its members. `fd` is `none` when it is -1, and an empty `std::function` is
`none`. -/
structure FileObject (A R : Type) where
  fd : Option (Descriptor R)
  size : Nat
  offset : Nat
  path : Bytes
  aquireFunc : Option A
  releaseFunc : Option R

namespace FileObject

variable {A R : Type}

/-- `unix_file() = default` -/
def default : FileObject A R := ⟨none, 0, 0, [], none, none⟩

/-- `close`, with what it passes to which release function. `none` is `std::bad_function_call`. -/
def close (f : FileObject A R) : Option (List (Use R Nat)) :=
  match f.fd with
  | none => some []
  | some d => f.releaseFunc.map fun release => [.deleted release d.acquisition]

/-- `operator=` between two objects, with both as they are after it. -/
def assign (this other : FileObject A R) :
    Option (List (Use R Nat) × FileObject A R × FileObject A R) :=
  this.close.map fun calls =>
    (calls, { this with fd := other.fd, offset := other.offset },
      { other with fd := none, offset := 0 })

/-- The object that is assigned to, and the one that is assigned, after a move. -/
def taking (this other : FileObject A R) : FileObject A R :=
  { this with fd := other.fd, offset := other.offset }

def left (other : FileObject A R) : FileObject A R := { other with fd := none, offset := 0 }

theorem assign_of_close {this : FileObject A R} {calls : List (Use R Nat)}
    (closed : this.close = some calls) (other : FileObject A R) :
    this.assign other = some (calls, this.taking other, other.left) := by
  rw [assign, closed]
  rfl

theorem assign_eq_none {this : FileObject A R} (closed : this.close = none)
    (other : FileObject A R) : this.assign other = none := by
  rw [assign, closed]
  rfl

/-- An exception leaves the descriptor where it is. -/
theorem fd_of_close {f : FileObject A R} (closed : f.close = none) : ∃ d, f.fd = some d := by
  rw [close] at closed
  cases has : f.fd with
  | none =>
    rw [has] at closed
    cases closed
  | some d => exact ⟨d, rfl⟩

/-- What a move is to hand over: the descriptor and what is left to be sent. -/
def cargo (f : FileObject A R) : Option (Descriptor R) × Nat × Nat := (f.fd, f.size, f.offset)

/-- The object can release the descriptor that it has. -/
def Releases (f : FileObject A R) : Prop := ∀ d, f.fd = some d → f.releaseFunc = some d.given

/-- The acquisition whose descriptor the object has, and its release function. -/
def keeps (f : FileObject A R) : Option (Nat × R) := f.fd.map fun d => (d.acquisition, d.given)

end FileObject

/-- The files that a program has, under their names, and how many descriptors it has acquired. -/
structure Objects (N A R : Type) where
  objects : N → Option (FileObject A R)
  acquisitions : Nat

/-- What a program does with its files. A constructor gets what the acquire function returns, where
`none` is -1, and the size that `stat64` finds; `send` is a `sendfile64` that moves the offset. -/
inductive Operation (N A R : Type)
  | construct (x : N) (path : Bytes) (aquire : A) (release : R) (aquired : Option Fd)
    (size : Option Nat)
  | moveConstruct (x y : N)
  | moveAssign (x y : N)
  | send (x : N) (count : Nat)
  | destroy (x : N)

/-- `std::terminate`, after a destructor has thrown. -/
inductive Terminated
  | terminated

namespace Objects

variable {N A R : Type} [DecidableEq N]

def start : Objects N A R := ⟨fun _ => none, 0⟩

/-- One operation, with what is acquired and released by it. An exception that comes out of an
assignment or a constructor leaves the run going. -/
def step (s : Objects N A R) :
    Operation N A R → Except Terminated (List (Use R Nat) × Objects N A R)
  | .construct x path aquire release aquired size =>
    match aquired with
    | none => .ok ([], s)
    | some fd =>
      let d : Descriptor R := ⟨fd, s.acquisitions, release⟩
      match size with
      -- the members are destroyed, but `~unix_file` does not run
      | none => .ok ([.allocated release d.acquisition], ⟨s.objects, s.acquisitions + 1⟩)
      | some size =>
        .ok ([.allocated release d.acquisition],
          ⟨Function.update s.objects x (some ⟨some d, size, 0, path, some aquire, some release⟩),
            s.acquisitions + 1⟩)
  | .moveConstruct x y =>
    match s.objects y with
    | none => .ok ([], s)
    | some other =>
      match FileObject.default.assign other with
      | none => .ok ([], s)
      | some (calls, this, other) =>
        .ok (calls, ⟨Function.update (Function.update s.objects y (some other)) x (some this),
          s.acquisitions⟩)
  | .moveAssign x y =>
    if x = y then .ok ([], s)
    else
      match s.objects x, s.objects y with
      | some this, some other =>
        match this.assign other with
        | none => .ok ([], s)
        | some (calls, this, other) =>
          .ok (calls, ⟨Function.update (Function.update s.objects y (some other)) x (some this),
            s.acquisitions⟩)
      | _, _ => .ok ([], s)
  | .send x count =>
    .ok ([], ⟨Function.update s.objects x
      ((s.objects x).map fun f => { f with offset := f.offset + count }), s.acquisitions⟩)
  | .destroy x =>
    match s.objects x with
    | none => .ok ([], s)
    | some f =>
      match f.close with
      | none => .error .terminated
      | some calls => .ok (calls, ⟨Function.update s.objects x none, s.acquisitions⟩)

/-- An object is made where none is, and otherwise there is one. -/
def Legal (s : Objects N A R) : Operation N A R → Prop
  | .construct x _ _ _ _ _ => s.objects x = none
  | .moveConstruct x y => s.objects x = none ∧ (s.objects y).isSome
  | .moveAssign x y => (s.objects x).isSome ∧ (s.objects y).isSome
  | .send x _ | .destroy x => (s.objects x).isSome

/-- After a move the one object has what the other had before. -/
def HandsOver (s : Objects N A R) (op : Operation N A R) : Prop :=
  ∀ calls s', step s op = .ok (calls, s') →
    match op with
    | .moveConstruct x y | .moveAssign x y =>
      (s'.objects x).map FileObject.cargo = (s.objects y).map FileObject.cargo
    | _ => True

/-- A program that uses the objects that there are, and destroys them all in the end. -/
structure Whole (ops : List (Operation N A R)) : Prop where
  legal : Along step Legal start ops
  destroyed : ∀ calls s, run step start ops = .ok (calls, s) → ∀ x, s.objects x = none

/-- No destructor throws, every move hands over what it has to, and each acquisition is released
once, by its own release function. -/
def Balanced (ops : List (Operation N A R)) [DecidableEq R] : Prop :=
  ∃ calls s, run step start ops = .ok (calls, s) ∧ Along step HandsOver start ops ∧
    Heap.empty.replay calls.flatten = some Heap.empty

/-- The operation does not do what cannot be made good: `stat64` does not fail after the descriptor
was acquired, sizes are equal where an object is moved, and an object that is destroyed or
assigned to can release what it has. -/
def Clean (s : Objects N A R) : Operation N A R → Prop
  | .construct _ _ _ _ aquired size => aquired.isSome → size.isSome
  | .moveConstruct _ y => ∀ other, s.objects y = some other → other.size = 0
  | .moveAssign x y => x = y ∨ ∀ this other, s.objects x = some this → s.objects y = some other →
    this.Releases ∧ this.size = other.size
  | .send _ _ => True
  | .destroy x => ∀ f, s.objects x = some f → f.Releases

/-! ## Single operations -/

section Operations

variable {s : Objects N A R} {x y : N} {this other f : FileObject A R} {calls : List (Use R Nat)}

theorem step_moveConstruct (x : N) (there : s.objects y = some other) :
    step s (.moveConstruct x y) = .ok ([], ⟨Function.update (Function.update s.objects y
      (some other.left)) x (some (FileObject.default.taking other)), s.acquisitions⟩) := by
  simp only [step, there]
  rfl

theorem step_moveAssign_self (s : Objects N A R) (x : N) :
    step s (.moveAssign x x) = .ok ([], s) := if_pos rfl

theorem step_moveAssign (different : x ≠ y) (here : s.objects x = some this)
    (there : s.objects y = some other) (closed : this.close = some calls) :
    step s (.moveAssign x y) = .ok (calls, ⟨Function.update (Function.update s.objects y
      (some other.left)) x (some (this.taking other)), s.acquisitions⟩) := by
  simp only [step, if_neg different, here, there, FileObject.assign_of_close closed]

/-- The exception leaves both objects as they are. -/
theorem step_moveAssign_thrown (different : x ≠ y) (here : s.objects x = some this)
    (there : s.objects y = some other) (closed : this.close = none) :
    step s (.moveAssign x y) = .ok ([], s) := by
  simp only [step, if_neg different, here, there, FileObject.assign_eq_none closed]

theorem step_destroy (there : s.objects x = some f) (closed : f.close = some calls) :
    step s (.destroy x) = .ok (calls, ⟨Function.update s.objects x none, s.acquisitions⟩) := by
  simp only [step, there, closed]

theorem step_destroy_thrown (there : s.objects x = some f) (closed : f.close = none) :
    step s (.destroy x) = .error .terminated := by
  simp only [step, there, closed]

/-- Without its objects an operation does nothing. -/
theorem step_moveAssign_missing (missing : s.objects x = none ∨ s.objects y = none) :
    step s (.moveAssign x y) = .ok ([], s) := by
  simp only [step]
  split_ifs
  · rfl
  · rcases missing with missing | missing
    · simp only [missing]
    · rw [missing]
      cases s.objects x <;> rfl

end Operations

/-! ## What the files keep -/

/-- The acquisitions that the files have the descriptors of. -/
def kept (s : Objects N A R) : N → Option (Nat × R) := fun x => (s.objects x).bind FileObject.keeps

section Kept

variable {s s' : Objects N A R} {op : Operation N A R} {x y : N} {f : FileObject A R}
  {o : Option (FileObject A R)} {d : Descriptor R} {n p : Nat} {r : R}

theorem kept_update (objects : N → Option (FileObject A R)) (n m : Nat) :
    kept ⟨Function.update objects x o, n⟩ =
      Function.update (kept ⟨objects, m⟩) x (o.bind FileObject.keeps) := by
  funext z
  exact Function.apply_update (fun _ o => o.bind FileObject.keeps) objects x o z

omit [DecidableEq N] in
theorem kept_eq (there : s.objects x = some f) : s.kept x = f.keeps := by
  rw [kept, there, Option.bind_some]

omit [DecidableEq N] in
theorem kept_of_fd (there : s.objects x = some f) (has : f.fd = some d) :
    s.kept x = some (d.acquisition, d.given) := by
  rw [kept_eq there, FileObject.keeps, has]
  rfl

/-! ## What is lost -/

/-- No object has the descriptor of the acquisition, and none will. -/
structure Lost (s : Objects N A R) (p : Nat) : Prop where
  old : p < s.acquisitions
  nobody : ∀ x r, s.kept x ≠ some (p, r)

theorem Lost.update (lost : Lost s p) (new : ∀ r, o.bind FileObject.keeps ≠ some (p, r))
    (le : s.acquisitions ≤ n) : Lost ⟨Function.update s.objects x o, n⟩ p where
  old := lost.old.trans_le le
  nobody := (Function.forall_update_iff s.objects
    fun _ o => ∀ r, o.bind FileObject.keeps ≠ some (p, r)).mpr ⟨new, fun z _ => lost.nobody z⟩

/-- What one object gets the other has not had. -/
theorem Lost.move (lost : Lost s p) {this other : FileObject A R}
    (there : s.objects y = some other) :
    Lost ⟨Function.update (Function.update s.objects y (some other.left)) x
      (some (this.taking other)), s.acquisitions⟩ p := by
  refine Lost.update (s := ⟨_, s.acquisitions⟩) (lost.update ?_ le_rfl) ?_ le_rfl
  · rintro r ⟨⟩
  · intro r keeping
    exact lost.nobody y r ((kept_eq there).trans keeping)

omit [DecidableEq N] in
theorem deletions_close (f : FileObject A R) {calls : List (Use R Nat)}
    (closed : f.close = some calls) (other : ∀ r, f.keeps ≠ some (p, r)) :
    deletions p calls = 0 := by
  rw [FileObject.close] at closed
  cases has : f.fd with
  | none =>
    simp only [has, Option.some.injEq] at closed
    exact closed ▸ rfl
  | some d =>
    simp only [has, Option.map_eq_some_iff] at closed
    obtain ⟨release, -, rfl⟩ := closed
    have different : d.acquisition ≠ p := by
      rintro rfl
      exact other d.given (by rw [FileObject.keeps, has]; rfl)
    simp [deletions, different]

/-- A lost descriptor is not released by the next operation, and stays lost. -/
theorem Lost.step (lost : Lost s p) (taken : s.step op = .ok (calls, s')) :
    deletions p calls = 0 ∧ Lost s' p := by
  have close {x : N} {f : FileObject A R} {calls : List (Use R Nat)} (there : s.objects x = some f)
      (closed : f.close = some calls) : deletions p calls = 0 :=
    deletions_close f closed fun r keeping => lost.nobody x r ((kept_eq there).trans keeping)
  cases op with
  | construct x path aquire release aquired size =>
    cases aquired with
    | none =>
      cases taken
      exact ⟨rfl, lost⟩
    | some fd =>
      cases size with
      | none =>
        cases taken
        exact ⟨rfl, lost.old.trans (Nat.lt_succ_self _), lost.nobody⟩
      | some size =>
        cases taken
        refine ⟨rfl, lost.update ?_ (Nat.le_succ _)⟩
        rintro r ⟨⟩
        exact absurd lost.old (Nat.lt_irrefl _)
  | moveConstruct x y =>
    cases there : s.objects y with
    | none =>
      simp only [Objects.step, there] at taken
      cases taken
      exact ⟨rfl, lost⟩
    | some other =>
      cases (step_moveConstruct x there).symm.trans taken
      exact ⟨rfl, lost.move there⟩
  | moveAssign x y =>
    cases here : s.objects x with
    | none =>
      cases (step_moveAssign_missing (.inl here)).symm.trans taken
      exact ⟨rfl, lost⟩
    | some this =>
      cases there : s.objects y with
      | none =>
        cases (step_moveAssign_missing (.inr there)).symm.trans taken
        exact ⟨rfl, lost⟩
      | some other =>
        by_cases same : x = y
        · subst same
          cases (step_moveAssign_self s x).symm.trans taken
          exact ⟨rfl, lost⟩
        · cases closed : this.close with
          | none =>
            cases (step_moveAssign_thrown same here there closed).symm.trans taken
            exact ⟨rfl, lost⟩
          | some released =>
            cases (step_moveAssign same here there closed).symm.trans taken
            exact ⟨close here closed, lost.move there⟩
  | send x count =>
    cases taken
    refine ⟨rfl, lost.update ?_ le_rfl⟩
    rw [Option.bind_map]
    exact lost.nobody x
  | destroy x =>
    cases there : s.objects x with
    | none =>
      simp only [Objects.step, there] at taken
      cases taken
      exact ⟨rfl, lost⟩
    | some f =>
      cases closed : f.close with
      | none => cases (step_destroy_thrown there closed).symm.trans taken
      | some released =>
        cases (step_destroy there closed).symm.trans taken
        refine ⟨close there closed, lost.update ?_ le_rfl⟩
        rintro r ⟨⟩

/-- Nor is it by a whole run. -/
theorem Lost.run {ops : List (Operation N A R)} {all : List (List (Use R Nat))} (lost : Lost s p)
    (ran : Machine.run Objects.step s ops = .ok (all, s')) : deletions p all.flatten = 0 := by
  induction ops generalizing s all with
  | nil =>
    cases ran
    rfl
  | cons op ops ih =>
    obtain ⟨calls, next, later, first, rest, rfl⟩ := run_cons_eq_ok.mp ran
    obtain ⟨none, lost⟩ := lost.step first
    rw [List.flatten_cons, deletions, List.countP_append]
    exact Nat.add_eq_zero_iff.mpr ⟨none, ih lost rest⟩

end Kept

/-! ## What is accounted for -/

/-- What was acquired and is not released is kept, and numbers that come later are new. -/
structure Accounted [DecidableEq R] (s : Objects N A R) (uses : List (Use R Nat)) : Prop where
  custody : Custody uses s.kept
  bound : ∀ x p r, s.kept x = some (p, r) → p < s.acquisitions

section Steps

variable [DecidableEq R] {s s' : Objects N A R} {op : Operation N A R} {x y : N}
  {uses calls : List (Use R Nat)} {f : FileObject A R} {r : R}

omit [DecidableEq N] in
theorem accounted_start : Accounted (start : Objects N A R) [] where
  custody := .empty
  bound _ _ _ kept := by cases kept

/-- What an object has is released by it as it has to be. -/
theorem Accounted.close (accounted : Accounted s uses) (there : s.objects x = some f)
    (releases : f.Releases) :
    ∃ calls, f.close = some calls ∧ Custody (uses ++ calls) (Function.update s.kept x none) := by
  cases has : f.fd with
  | none =>
    have nothing : s.kept x = none := by rw [kept_eq there, FileObject.keeps, has]; rfl
    refine ⟨[], by rw [FileObject.close, has], ?_⟩
    rw [List.append_nil, ← nothing, Function.update_eq_self]
    exact accounted.custody
  | some d =>
    have keeping := kept_of_fd there has
    refine ⟨[.deleted d.given d.acquisition], ?_, accounted.custody.delete keeping⟩
    rw [FileObject.close, has, releases d has]
    rfl

/-- An object that is constructed keeps a new acquisition. -/
theorem Accounted.construct (accounted : Accounted s uses) (free : s.objects x = none)
    (new : f.keeps = some (s.acquisitions, r)) :
    Accounted ⟨Function.update s.objects x (some f), s.acquisitions + 1⟩
      (uses ++ [.allocated r s.acquisitions]) := by
  have nothing : s.kept x = none := by rw [kept, free, Option.bind_none]
  have fresh (z : N) (r : R) : s.kept z ≠ some (s.acquisitions, r) := fun keeping =>
    absurd (accounted.bound z s.acquisitions r keeping) (Nat.lt_irrefl _)
  have after : kept ⟨Function.update s.objects x (some f), s.acquisitions + 1⟩ =
      Function.update s.kept x (some (s.acquisitions, r)) := by
    rw [kept_update _ _ s.acquisitions, Option.bind_some, new]
  constructor
  · rw [after]
    exact accounted.custody.allocate nothing fresh r
  · intro z p r' keeping
    rw [after] at keeping
    by_cases same : z = x
    · rw [same, Function.update_self] at keeping
      cases keeping
      exact Nat.lt_succ_self _
    · rw [Function.update_of_ne same] at keeping
      exact (accounted.bound z p r' keeping).trans (Nat.lt_succ_self _)

/-- After `x` was rid of what it had, it gets what `y` has. -/
theorem Accounted.move {this other : FileObject A R} (accounted : Accounted s uses)
    (custody : Custody (uses ++ calls) (Function.update s.kept x none)) (different : x ≠ y)
    (gets : this.keeps = s.kept y) (loses : other.keeps = none) :
    Accounted ⟨Function.update (Function.update s.objects y (some other)) x (some this),
      s.acquisitions⟩ (uses ++ calls) := by
  have after : kept ⟨Function.update (Function.update s.objects y (some other)) x (some this),
      s.acquisitions⟩ = Function.update (Function.update s.kept y none) x (s.kept y) := by
    rw [kept_update _ _ s.acquisitions, kept_update _ _ s.acquisitions, Option.bind_some,
      Option.bind_some, gets, loses]
  have passed := custody.pass (Function.update_self x none s.kept) y
  rw [Function.update_of_ne different.symm, Function.update_comm different,
    Function.update_idem] at passed
  constructor
  · rwa [after]
  · intro z p r keeping
    rw [after] at keeping
    by_cases first : z = x
    · rw [first, Function.update_self] at keeping
      exact accounted.bound y p r keeping
    · rw [Function.update_of_ne first] at keeping
      by_cases second : z = y
      · rw [second, Function.update_self] at keeping
        cases keeping
      · rw [Function.update_of_ne second] at keeping
        exact accounted.bound z p r keeping

theorem Accounted.destroy (accounted : Accounted s uses)
    (custody : Custody (uses ++ calls) (Function.update s.kept x none)) :
    Accounted ⟨Function.update s.objects x none, s.acquisitions⟩ (uses ++ calls) := by
  have after : kept ⟨Function.update s.objects x none, s.acquisitions⟩ =
      Function.update s.kept x none := kept_update _ _ _
  constructor
  · rwa [after]
  · intro z p r keeping
    rw [after] at keeping
    by_cases same : z = x
    · rw [same, Function.update_self] at keeping
      cases keeping
    · rw [Function.update_of_ne same] at keeping
      exact accounted.bound z p r keeping

omit [DecidableEq N] in
/-- Where the objects keep the same, it is accounted for as before. -/
theorem Accounted.same {objects : N → Option (FileObject A R)} (accounted : Accounted s uses)
    (same : kept ⟨objects, s.acquisitions⟩ = s.kept) :
    Accounted ⟨objects, s.acquisitions⟩ uses where
  custody := same ▸ accounted.custody
  bound z p r keeping := accounted.bound z p r (same ▸ keeping)

/-- A clean operation is one that goes well. -/
theorem step_clean (accounted : Accounted s uses) (legal : Legal s op) (clean : Clean s op) :
    ∃ calls s', step s op = .ok (calls, s') ∧ HandsOver s op ∧ Accounted s' (uses ++ calls) := by
  cases op with
  | construct x path aquire release aquired size =>
    cases aquired with
    | none => exact ⟨[], s, rfl, fun _ _ _ => trivial, by rwa [List.append_nil]⟩
    | some fd =>
      obtain ⟨size, rfl⟩ := Option.isSome_iff_exists.mp (clean rfl)
      exact ⟨_, _, rfl, fun _ _ _ => trivial, accounted.construct legal rfl⟩
  | moveConstruct x y =>
    obtain ⟨free, there⟩ := legal
    obtain ⟨other, there⟩ := Option.isSome_iff_exists.mp there
    have different : x ≠ y := by
      rintro rfl
      rw [free] at there
      cases there
    have nothing : s.kept x = none := by rw [kept, free, Option.bind_none]
    have taken := step_moveConstruct x there
    refine ⟨[], _, taken, ?_, accounted.move ?_ different (kept_eq there).symm rfl⟩
    · intro calls s' taken'
      cases taken.symm.trans taken'
      simp only [Function.update_self, there, Option.map_some, FileObject.cargo, clean other there]
      rfl
    · rw [List.append_nil, ← nothing, Function.update_eq_self]
      exact accounted.custody
  | moveAssign x y =>
    obtain ⟨here, there⟩ := legal
    obtain ⟨this, here⟩ := Option.isSome_iff_exists.mp here
    obtain ⟨other, there⟩ := Option.isSome_iff_exists.mp there
    by_cases same : x = y
    · subst same
      have taken := step_moveAssign_self s x
      refine ⟨[], s, taken, ?_, by rwa [List.append_nil]⟩
      intro calls s' taken'
      cases taken.symm.trans taken'
      rfl
    · obtain ⟨releases, sizes⟩ := clean.resolve_left same this other here there
      obtain ⟨calls, closed, custody⟩ := accounted.close here releases
      have taken := step_moveAssign same here there closed
      refine ⟨calls, _, taken, ?_, accounted.move custody same (kept_eq there).symm rfl⟩
      intro calls s' taken'
      cases taken.symm.trans taken'
      simp only [Function.update_self, there, Option.map_some, FileObject.cargo, ← sizes]
      rfl
  | send x count =>
    refine ⟨[], _, rfl, fun _ _ _ => trivial, ?_⟩
    rw [List.append_nil]
    apply accounted.same
    rw [kept_update _ _ s.acquisitions, Option.bind_map]
    exact Function.update_eq_self x s.kept
  | destroy x =>
    obtain ⟨f, there⟩ := Option.isSome_iff_exists.mp legal
    obtain ⟨calls, closed, custody⟩ := accounted.close there (clean f there)
    exact ⟨calls, _, step_destroy there closed, fun _ _ _ => trivial, accounted.destroy custody⟩

omit [DecidableEq N] in
/-- What an object cannot release is refused, whatever comes later. -/
theorem Accounted.refuses (accounted : Accounted s uses) (there : s.objects x = some f)
    (unable : ¬ f.Releases) (closed : f.close = some calls) (more : List (Use R Nat)) :
    Heap.empty.replay (uses ++ (calls ++ more)) ≠ some Heap.empty := by
  obtain ⟨d, unable⟩ := not_forall.mp unable
  obtain ⟨has, other⟩ := Classical.not_imp.mp unable
  have keeping := kept_of_fd there has
  rw [FileObject.close, has] at closed
  obtain ⟨r, function, rfl⟩ := Option.map_eq_some_iff.mp closed
  have wrong : r ≠ d.given := by
    rintro rfl
    exact other function
  rw [List.singleton_append, accounted.custody.refuses keeping wrong]
  rintro ⟨⟩

/-- An assignment that is not clean hands over something else, or releases wrongly. -/
theorem refuses_moveAssign (accounted : Accounted s uses) (legal : Legal s (.moveAssign x y))
    (unclean : ¬ Clean s (.moveAssign x y)) (hands : HandsOver s (.moveAssign x y))
    (taken : step s (.moveAssign x y) = .ok (calls, s')) (more : List (Use R Nat)) :
    Heap.empty.replay (uses ++ (calls ++ more)) ≠ some Heap.empty := by
  obtain ⟨this, here⟩ := Option.isSome_iff_exists.mp legal.1
  obtain ⟨other, there⟩ := Option.isSome_iff_exists.mp legal.2
  obtain ⟨different, unclean⟩ := not_or.mp unclean
  have handed := hands calls s' taken
  cases closed : this.close with
  | none =>
    -- the exception leaves `this` with its descriptor, which `other` does not have
    cases (step_moveAssign_thrown different here there closed).symm.trans taken
    simp only [here, there, Option.map_some, FileObject.cargo, Option.some.injEq,
      Prod.mk.injEq] at handed
    obtain ⟨d, has⟩ := FileObject.fd_of_close closed
    have keeping := kept_of_fd here has
    have keeping' := kept_of_fd there (handed.1 ▸ has)
    exact absurd (accounted.custody.eq_of_place keeping keeping') different
  | some released =>
    cases (step_moveAssign different here there closed).symm.trans taken
    simp only [Function.update_self, there, Option.map_some, FileObject.cargo, Option.some.injEq,
      Prod.mk.injEq] at handed
    apply accounted.refuses here _ closed
    intro releases
    refine unclean fun this' other' here' there' => ?_
    obtain rfl := Option.some.inj (here.symm.trans here')
    obtain rfl := Option.some.inj (there.symm.trans there')
    exact ⟨releases, handed.2.1⟩

/-- After an operation that is not clean nothing can make a run balanced. -/
theorem not_balanced_of_not_clean {ops : List (Operation N A R)} {all : List (List (Use R Nat))}
    (accounted : Accounted s uses) (legal : Legal s op) (unclean : ¬ Clean s op)
    (ran : Machine.run step s (op :: ops) = .ok (all, s')) (hands : HandsOver s op) :
    Heap.empty.replay (uses ++ all.flatten) ≠ some Heap.empty := by
  obtain ⟨calls, next, later, taken, rest, rfl⟩ := run_cons_eq_ok.mp ran
  rw [List.flatten_cons]
  cases op with
  | construct x path aquire release aquired size =>
    cases aquired with
    | none => exact absurd (fun acquired => by cases acquired) unclean
    | some fd =>
      cases size with
      | some size => exact absurd (fun _ => rfl) unclean
      | none =>
        -- nobody has the descriptor that was acquired
        cases taken
        have lost : Lost ⟨s.objects, s.acquisitions + 1⟩ s.acquisitions :=
          ⟨Nat.lt_succ_self _, fun x r keeping =>
            absurd (accounted.bound x s.acquisitions r keeping) (Nat.lt_irrefl _)⟩
        exact not_replay_of_deletions (lost.run rest)
  | moveConstruct x y =>
    obtain ⟨other, there⟩ := Option.isSome_iff_exists.mp legal.2
    have handed := hands calls next taken
    cases (step_moveConstruct x there).symm.trans taken
    -- the size of the new object is 0
    simp only [Function.update_self, there, Option.map_some, FileObject.cargo, Option.some.injEq,
      Prod.mk.injEq] at handed
    refine absurd (fun other' there' => ?_) unclean
    obtain rfl := Option.some.inj (there.symm.trans there')
    exact handed.2.1.symm
  | moveAssign x y => exact refuses_moveAssign accounted legal unclean hands taken later.flatten
  | send x count => exact absurd trivial unclean
  | destroy x =>
    obtain ⟨f, there⟩ := Option.isSome_iff_exists.mp legal
    cases closed : f.close with
    | none => cases (step_destroy_thrown there closed).symm.trans taken
    | some released =>
      cases (step_destroy there closed).symm.trans taken
      apply accounted.refuses there _ closed
      intro releases
      exact unclean fun f' there' => Option.some.inj (there.symm.trans there') ▸ releases

/-- The rest of a run goes well iff its operations are clean. -/
theorem balanced_iff_along {ops : List (Operation N A R)} (accounted : Accounted s uses)
    (legal : Along step Legal s ops)
    (destroyed : ∀ all s', Machine.run step s ops = .ok (all, s') → ∀ x, s'.objects x = none) :
    (∃ all s', Machine.run step s ops = .ok (all, s') ∧ Along step HandsOver s ops ∧
      Heap.empty.replay (uses ++ all.flatten) = some Heap.empty) ↔ Along step Clean s ops := by
  induction ops generalizing s uses with
  | nil =>
    refine iff_of_true ⟨[], s, rfl, trivial, ?_⟩ trivial
    rw [List.flatten_nil, List.append_nil]
    refine accounted.custody.replay_of_forall fun x => ?_
    rw [kept, destroyed [] s rfl x, Option.bind_none]
  | cons op ops ih =>
    by_cases clean : Clean s op
    · obtain ⟨calls, next, taken, hands, accounted'⟩ := step_clean accounted legal.1 clean
      have rest := ih accounted' (legal.2 calls next taken) fun all s' ran =>
        destroyed (calls :: all) s' (run_cons_eq_ok.mpr ⟨calls, next, all, taken, ran, rfl⟩)
      rw [along_cons_of_ok taken clean, ← rest, along_cons_of_ok taken hands]
      constructor
      · rintro ⟨all, s', ran, handed, balanced⟩
        obtain ⟨calls', next', later, first, ran, rfl⟩ := run_cons_eq_ok.mp ran
        cases taken.symm.trans first
        rw [List.flatten_cons, ← List.append_assoc] at balanced
        exact ⟨later, s', ran, handed, balanced⟩
      · rintro ⟨later, s', ran, handed, balanced⟩
        refine ⟨calls :: later, s', run_cons_eq_ok.mpr ⟨calls, next, later, taken, ran, rfl⟩,
          handed, ?_⟩
        rwa [List.flatten_cons, ← List.append_assoc]
    · refine iff_of_false ?_ fun along => clean along.1
      rintro ⟨all, s', ran, handed, balanced⟩
      exact not_balanced_of_not_clean accounted legal.1 clean ran handed.1 balanced

end Steps

/-- A program that has destroyed all its files in the end has acquired and released in balance iff
it did nothing that is not clean. -/
theorem balanced_iff [DecidableEq R] (ops : List (Operation N A R)) (whole : Whole ops) :
    Balanced ops ↔ Along step Clean start ops :=
  balanced_iff_along accounted_start whole.legal whole.destroyed

/-- A file that is assigned to another one of its size. -/
theorem balanced_assigned :
    Balanced [.construct 0 [97] () () (some 7) (some 5), .construct 1 [98] () () (some 8) (some 5),
      .moveAssign 1 0, .destroy 0, (.destroy 1 : Operation Nat Unit Unit)] := by
  refine (balanced_iff _ ⟨?_, ?_⟩).mpr ?_
  · refine ⟨rfl, ?_⟩
    rintro _ _ ⟨⟩
    refine ⟨rfl, ?_⟩
    rintro _ _ ⟨⟩
    refine ⟨⟨rfl, rfl⟩, ?_⟩
    rintro _ _ ⟨⟩
    refine ⟨rfl, ?_⟩
    rintro _ _ ⟨⟩
    exact ⟨rfl, fun _ _ _ => trivial⟩
  · rintro calls s ⟨⟩ (_ | _ | x) <;> rfl
  · refine ⟨fun _ => rfl, ?_⟩
    rintro _ _ ⟨⟩
    refine ⟨fun _ => rfl, ?_⟩
    rintro _ _ ⟨⟩
    refine ⟨.inr fun this other here there => ?_, ?_⟩
    · obtain rfl := Option.some.inj here
      obtain rfl := Option.some.inj there
      exact ⟨fun d has => rfl, rfl⟩
    rintro _ _ ⟨⟩
    refine ⟨fun f there d has => ?_, ?_⟩
    · obtain rfl := Option.some.inj there
      rfl
    rintro _ _ ⟨⟩
    refine ⟨fun f there d has => ?_, fun _ _ _ => trivial⟩
    obtain rfl := Option.some.inj there
    rfl

/-- A descriptor that is acquired before `stat64` fails stays acquired, and a file that was made by
a move ends the program. -/
theorem unbalanced :
    let failed : List (Operation Nat Unit Unit) := [.construct 0 [97] () () (some 7) none]
    let moved : List (Operation Nat Unit Unit) :=
      [.construct 0 [97] () () (some 7) (some 0), .moveConstruct 1 0, .destroy 0, .destroy 1]
    (Whole failed ∧ ¬ Balanced failed) ∧ Whole moved ∧ ¬ Balanced moved := by
  intro failed moved
  have whole : Whole failed := by
    constructor
    · exact ⟨rfl, fun _ _ _ => trivial⟩
    · rintro calls s ⟨⟩ x
      rfl
  have whole' : Whole moved := by
    constructor
    · refine ⟨rfl, ?_⟩
      rintro _ _ ⟨⟩
      refine ⟨⟨rfl, rfl⟩, ?_⟩
      rintro _ _ ⟨⟩
      refine ⟨rfl, ?_⟩
      rintro _ _ ⟨⟩
      exact ⟨rfl, fun _ _ _ => trivial⟩
    · rintro calls s ⟨⟩
  refine ⟨⟨whole, fun balanced => ?_⟩, whole', fun balanced => ?_⟩
  · have along := (balanced_iff_along accounted_start whole.legal whole.destroyed).mp balanced
    cases along.1 rfl
  · -- no run of this program returns
    obtain ⟨calls, s, ran, -⟩ := balanced
    cases ran

end Objects

end Viking.Io
