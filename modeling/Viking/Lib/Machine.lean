/-
# Machines that may stop

A machine reads inputs one by one; at each it answers and moves to a state, or
stops for good with a reason. `run` feeds it a list of inputs. `Along` says that
a condition on the state and the input holds at each step of a run, which is how
a condition on single steps is stated for whole runs.

The last sections are about folds in `Except`, the same thing without answers, and
about machines that never stop.
-/

import Mathlib.Data.List.Forall2
import Mathlib.Data.List.Induction

namespace Machine

universe u

theorem bind_eq_ok {ε : Type*} {α β : Type u} {x : Except ε α} {f : α → Except ε β} {b : β} :
    x >>= f = .ok b ↔ ∃ a, x = .ok a ∧ f a = .ok b := by
  cases x with
  | error e => simp [bind, Except.bind]
  | ok a => simp [bind, Except.bind]

/-- A computation over a list returns what it returns on each element. -/
theorem mapM_eq_ok {ε α : Type*} {β : Type u} {f : α → Except ε β} {xs : List α} {ys : List β} :
    xs.mapM f = .ok ys ↔ List.Forall₂ (fun x y => f x = .ok y) xs ys := by
  induction xs generalizing ys with
  | nil => simp [pure, Except.pure, eq_comm]
  | cons x xs ih =>
    simp only [List.mapM_cons, bind_eq_ok, List.forall₂_cons_left_iff]
    constructor
    · rintro ⟨y, hy, ys', hys, same⟩
      cases same
      exact ⟨y, ys', hy, ih.mp hys, rfl⟩
    · rintro ⟨y, ys', hy, hys, rfl⟩
      exact ⟨y, hy, ys', ih.mpr hys, rfl⟩

/-- That a computation returns is found by evaluation. -/
theorem exists_ok_of_toBool {ε α : Type*} {x : Except ε α} (h : x.toBool = true) :
    ∃ a, x = .ok a := by
  cases x with
  | error e => cases h
  | ok a => exact ⟨a, rfl⟩

theorem toOption_eq_some {ε α : Type*} {x : Except ε α} {a : α} :
    x.toOption = some a ↔ x = .ok a := by
  cases x with
  | error e => simp [Except.toOption]
  | ok b => simp [Except.toOption]

theorem exists_ok_of_map {ε α β : Type*} {x : Except ε α} {f : α → β} {b : β}
    (h : x.map f = .ok b) : ∃ a, x = .ok a ∧ f a = b := by
  cases x with
  | error e => cases h
  | ok a => exact ⟨a, rfl, by simpa [Except.map] using h⟩

theorem eq_error_of_map {ε α β : Type*} {x : Except ε α} {f : α → β} {e : ε}
    (h : x.map f = .error e) : x = .error e := by
  cases x with
  | error e' => simpa [Except.map] using h
  | ok a => cases h

/-- What is returned, if anything is, is in `Q`. -/
def Ensures {ε α : Type*} (Q : α → Prop) (x : Except ε α) : Prop := ∀ a, x = .ok a → Q a

namespace Ensures

variable {ε : Type*} {α β : Type u} {Q : α → Prop} {R : β → Prop} {x : Except ε α}
  {f : α → Except ε β}

theorem ok {a : α} (h : Q a) : Ensures Q (.ok a : Except ε α) :=
  fun _ returned => Except.ok.inj returned ▸ h

theorem error (e : ε) : Ensures Q (.error e : Except ε α) := fun _ returned => by cases returned

theorem bind (h : Ensures Q x) (rest : ∀ a, Q a → Ensures R (f a)) : Ensures R (x >>= f) := by
  intro b returned
  obtain ⟨a, first, second⟩ := bind_eq_ok.mp returned
  exact rest a (h a first) b second

end Ensures

section Run

variable {ι ε : Type*} {σ ο : Type u} (step : σ → ι → Except ε (ο × σ))

/-- The answers to a list of inputs and the state after them. -/
def run : σ → List ι → Except ε (List ο × σ)
  | s, [] => .ok ([], s)
  | s, i :: is => do
    let (o, s') ← step s i
    let (os, t) ← run s' is
    return (o :: os, t)

/-- `P` holds of the state and the input at each step of the run that the machine takes. -/
def Along (P : σ → ι → Prop) : σ → List ι → Prop
  | _, [] => True
  | s, i :: is => P s i ∧ ∀ o s', step s i = .ok (o, s') → Along P s' is

variable {step} {s s' t : σ} {i : ι} {is js : List ι} {o : ο} {os : List ο}

@[simp] theorem run_nil : run step s [] = .ok ([], s) := rfl

theorem run_cons_of_ok (h : step s i = .ok (o, s')) :
    run step s (i :: is) = (run step s' is).map fun (os, t) => (o :: os, t) := by
  simp only [run, h, bind, Except.bind]
  cases run step s' is <;> rfl

theorem run_cons_of_error {e : ε} (h : step s i = .error e) :
    run step s (i :: is) = .error e := by
  simp only [run, h, bind, Except.bind]

theorem run_cons_eq_ok :
    run step s (i :: is) = .ok (os, t) ↔
      ∃ o s' os', step s i = .ok (o, s') ∧ run step s' is = .ok (os', t) ∧ os = o :: os' := by
  simp only [run, bind_eq_ok]
  constructor
  · rintro ⟨⟨o, s'⟩, h, ⟨os', t'⟩, h', done⟩
    simp only [pure, Except.pure, Except.ok.injEq, Prod.mk.injEq] at done
    obtain ⟨rfl, rfl⟩ := done
    exact ⟨o, s', os', h, h', rfl⟩
  · rintro ⟨o, s', os', h, h', rfl⟩
    exact ⟨(o, s'), h, (os', t), h', rfl⟩

theorem run_append_eq_ok :
    run step s (is ++ js) = .ok (os, t) ↔
      ∃ s' os₁ os₂, run step s is = .ok (os₁, s') ∧ run step s' js = .ok (os₂, t) ∧
        os = os₁ ++ os₂ := by
  induction is generalizing s os with
  | nil =>
    constructor
    · intro h
      exact ⟨s, [], os, rfl, h, rfl⟩
    · rintro ⟨s', os₁, os₂, h, h', rfl⟩
      simp only [run_nil, Except.ok.injEq, Prod.mk.injEq] at h
      obtain ⟨rfl, rfl⟩ := h
      exact h'
  | cons i is ih =>
    simp only [List.cons_append, run_cons_eq_ok, ih]
    constructor
    · rintro ⟨o, s₁, _, h, ⟨s', os₁, os₂, h₁, h₂, rfl⟩, rfl⟩
      exact ⟨s', o :: os₁, os₂, ⟨o, s₁, os₁, h, h₁, rfl⟩, h₂, rfl⟩
    · rintro ⟨s', _, os₂, ⟨o, s₁, os₁, h, h₁, rfl⟩, h₂, rfl⟩
      exact ⟨o, s₁, os₁ ++ os₂, h, ⟨s', os₁, os₂, h₁, h₂, rfl⟩, rfl⟩

theorem run_snoc_eq_ok :
    run step s (is ++ [i]) = .ok (os, t) ↔
      ∃ os' o s', run step s is = .ok (os', s') ∧ step s' i = .ok (o, t) ∧ os = os' ++ [o] := by
  simp only [run_append_eq_ok, run_cons_eq_ok, run_nil, Except.ok.injEq, Prod.mk.injEq]
  constructor
  · rintro ⟨s', os', _, h, ⟨o, _, _, hstep, ⟨rfl, rfl⟩, rfl⟩, rfl⟩
    exact ⟨os', o, s', h, hstep, rfl⟩
  · rintro ⟨os', o, s', h, hstep, rfl⟩
    exact ⟨s', os', [o], h, ⟨o, t, [], hstep, ⟨rfl, rfl⟩, rfl⟩, rfl⟩

/-- A machine stops for an allowed reason, if at all, iff the condition under which a
step does so holds at each step. -/
theorem run_errors_iff_along {Inv : σ → Prop} {P : σ → ι → Prop} {allowed : ε → Prop}
    (keeps : ∀ s i o s', Inv s → step s i = .ok (o, s') → Inv s')
    (steps : ∀ s i, Inv s → ((∀ e, step s i = .error e → allowed e) ↔ P s i)) (start : Inv s) :
    (∀ e, run step s is = .error e → allowed e) ↔ Along step P s is := by
  induction is generalizing s with
  | nil => exact ⟨fun _ => trivial, fun _ e h => by cases h⟩
  | cons i is ih =>
    -- The first step settles whether it stops, and `Inv` carries on to the rest.
    simp only [Along, ← steps s i start]
    cases h : step s i with
    | error e =>
      rw [run_cons_of_error h]
      simp only [Except.error.injEq, forall_eq', reduceCtorEq, false_implies, implies_true,
        and_true]
    | ok r =>
      obtain ⟨o, s'⟩ := r
      rw [run_cons_of_ok h]
      have rest : (∀ e, (run step s' is).map (fun (os, t) => (o :: os, t)) = .error e →
          allowed e) ↔ Along step P s' is := by
        rw [← ih (keeps s i o s' start h)]
        cases run step s' is <;> simp [Except.map]
      rw [rest]
      simp only [Except.ok.injEq, Prod.mk.injEq, reduceCtorEq, false_implies, implies_true,
        true_and]
      exact ⟨fun along o₁ s₁ h₁ => h₁.2 ▸ along, fun along => along o s' ⟨rfl, rfl⟩⟩

theorem along_of_forall {P : σ → ι → Prop} (all : ∀ s i, P s i) : Along step P s is := by
  induction is generalizing s with
  | nil => exact trivial
  | cons i is ih => exact ⟨all s i, fun _ _ _ => ih⟩

theorem along_cons_of_ok {P : σ → ι → Prop} (h : step s i = .ok (o, s')) (here : P s i) :
    Along step P s (i :: is) ↔ Along step P s' is := by
  refine ⟨fun along => along.2 o s' h, fun along => ⟨here, fun o₁ s₁ h₁ => ?_⟩⟩
  cases h.symm.trans h₁
  exact along

theorem along_congr {P Q : σ → ι → Prop} (same : ∀ s i, P s i ↔ Q s i) :
    Along step P s is ↔ Along step Q s is := by
  induction is generalizing s with
  | nil => exact Iff.rfl
  | cons i is ih => simp only [Along, same, ih]

/-- A machine whose steps keep an invariant exactly where `P` holds, and never stop where
it does not, keeps it through a run iff `P` holds along the run. -/
theorem run_invariant_iff {P : σ → ι → Prop} {Inv : σ → Prop}
    (steps : ∀ s i o s', Inv s → step s i = .ok (o, s') → (Inv s' ↔ P s i))
    (stops : ∀ s i e, Inv s → step s i = .error e → P s i) (start : Inv s) :
    (∀ is' os t, is' <+: is → run step s is' = .ok (os, t) → Inv t) ↔ Along step P s is := by
  induction is generalizing s with
  | nil =>
    simp only [Along, iff_true]
    intro is' os t part h
    rw [List.prefix_nil] at part
    subst part
    simp only [run_nil, Except.ok.injEq, Prod.mk.injEq] at h
    exact h.2 ▸ start
  | cons i is ih =>
    simp only [Along]
    constructor
    · intro all
      have next : ∀ o s', step s i = .ok (o, s') → Inv s' := by
        intro o s' h
        exact all [i] [o] s' (by simp) (run_cons_eq_ok.mpr ⟨o, s', [], h, rfl, rfl⟩)
      -- The rest of the run is seen as a run with the first step before it.
      refine ⟨?_, fun o s' h => (ih (next o s' h)).mp fun is' os t part run => ?_⟩
      · cases h : step s i with
        | error e => exact stops s i e start h
        | ok r => exact (steps s i r.1 r.2 start h).mp (next r.1 r.2 h)
      · apply all (i :: is') (o :: os) t (List.cons_prefix_cons.mpr ⟨rfl, part⟩)
        exact run_cons_eq_ok.mpr ⟨o, s', os, h, run, rfl⟩
    · rintro ⟨here, later⟩ is' os t part run
      cases is' with
      | nil =>
        simp only [run_nil, Except.ok.injEq, Prod.mk.injEq] at run
        exact run.2 ▸ start
      | cons j is' =>
        obtain ⟨rfl, rest⟩ := List.cons_prefix_cons.mp part
        obtain ⟨o, s', os', h, run, -⟩ := run_cons_eq_ok.mp run
        have next := (steps s j o s' start h).mpr here
        exact (ih next).mpr (later o s' h) is' os' t rest run

/-- A machine keeps an invariant through a run along which `P` holds, if its steps keep it
where `P` holds. -/
theorem run_ensures {P : σ → ι → Prop} {Inv : σ → Prop}
    (keeps : ∀ s i, Inv s → P s i → Ensures (fun r => Inv r.2) (step s i)) (start : Inv s)
    (along : Along step P s is) : Ensures (fun r => Inv r.2) (run step s is) := by
  induction is generalizing s with
  | nil => exact .ok start
  | cons i is ih =>
    rintro ⟨os, t⟩ returned
    obtain ⟨o, s', os', first, rest, -⟩ := run_cons_eq_ok.mp returned
    exact ih (keeps s i start along.1 (o, s') first) (along.2 o s' first) (os', t) rest

/-- A machine that does with more state what another does runs as that one does. -/
theorem run_project {τ : Type u} {step' : τ → ι → Except ε (ο × τ)} {project : σ → τ}
    (same : ∀ s i, (step s i).map (fun r => (r.1, project r.2)) = step' (project s) i) (s : σ)
    (is : List ι) :
    (run step s is).map (fun r => (r.1, project r.2)) = run step' (project s) is := by
  induction is generalizing s with
  | nil => rfl
  | cons i is ih =>
    have first := same s i
    cases taken : step s i with
    | error e =>
      rw [taken] at first
      rw [run_cons_of_error taken, run_cons_of_error first.symm]
      rfl
    | ok r =>
      rw [taken] at first
      rw [run_cons_of_ok taken, run_cons_of_ok first.symm, ← ih]
      cases run step r.2 is <;> rfl

end Run

section Fold

variable {σ ι ε : Type*} {f : σ → ι → Except ε σ} {g : σ → ι → σ} (Inv : σ → Prop)
  {good : ι → Prop} {s : σ} {is : List ι}

/-- A fold that cannot fail on good inputs is a plain fold. -/
theorem foldlM_eq_ok (keeps : ∀ s i, Inv s → Inv (g s i))
    (ok : ∀ s i, Inv s → good i → f s i = .ok (g s i)) (start : Inv s)
    (all : ∀ i ∈ is, good i) : is.foldlM f s = .ok (is.foldl g s) := by
  induction is generalizing s with
  | nil => rfl
  | cons i is ih =>
    rw [List.foldlM_cons, ok s i start (all i List.mem_cons_self)]
    exact ih (keeps s i start) fun j hj => all j (List.mem_cons_of_mem i hj)

/-- A fold that fails on every bad input succeeds iff there is none. -/
theorem foldlM_isOk_iff (keeps : ∀ s i, Inv s → Inv (g s i))
    (ok : ∀ s i, Inv s → good i → f s i = .ok (g s i))
    (bad : ∀ s i, Inv s → ¬ good i → ∃ e, f s i = .error e) (start : Inv s) :
    (∃ t, is.foldlM f s = .ok t) ↔ ∀ i ∈ is, good i := by
  refine ⟨fun h => ?_, fun all => ⟨_, foldlM_eq_ok Inv keeps ok start all⟩⟩
  induction is generalizing s with
  | nil => simp
  | cons i is ih =>
    -- A bad input stops the fold before the rest is looked at.
    by_cases hi : good i
    · rw [List.foldlM_cons, ok s i start hi] at h
      simpa [hi] using ih (keeps s i start) h
    · obtain ⟨e, he⟩ := bad s i start hi
      rw [List.foldlM_cons, he] at h
      obtain ⟨t, ht⟩ := h
      cases ht

omit Inv in
/-- A fold fails as some step does. -/
theorem foldlM_eq_error {e : ε} (h : is.foldlM f s = .error e) : ∃ t i, f t i = .error e := by
  induction is generalizing s with
  | nil => cases h
  | cons i is ih =>
    rw [List.foldlM_cons] at h
    cases hf : f s i with
    | error e' =>
      simp only [hf, bind, Except.bind, Except.error.injEq] at h
      exact ⟨s, i, h ▸ hf⟩
    | ok t =>
      rw [hf] at h
      exact ih h

end Fold

section Total

variable {σ ι : Type*} {f : σ → ι → σ} {s : σ} {is : List ι}

/-- `P` holds of the state and the input at each step of a machine that never stops. -/
def AlongFold (f : σ → ι → σ) (P : σ → ι → Prop) : σ → List ι → Prop
  | _, [] => True
  | s, i :: is => P s i ∧ AlongFold f P (f s i) is

theorem alongFold_iff {P : σ → ι → Prop} :
    AlongFold f P s is ↔ ∀ is' i, is' ++ [i] <+: is → P (is'.foldl f s) i := by
  induction is generalizing s with
  | nil => exact iff_of_true trivial fun is' i part => absurd part (by simp)
  | cons i is ih =>
    rw [AlongFold, ih]
    constructor
    · rintro ⟨first, later⟩ is' j part
      cases is' with
      | nil => exact (List.cons_prefix_cons.mp part).1 ▸ first
      | cons k is' =>
        obtain ⟨rfl, rest⟩ := List.cons_prefix_cons.mp part
        exact later is' j rest
    · intro all
      refine ⟨all [] i (List.prefix_append [i] is), fun is' j part => ?_⟩
      exact all (i :: is') j (List.cons_prefix_cons.mpr ⟨rfl, part⟩)

/-- Where the inputs are legal, which keeps `Inv`, a machine stays within `Good` iff the condition
under which a single step stays there holds at each step. -/
theorem foldl_good_iff {Inv Good : σ → Prop} {Legal Guard : σ → ι → Prop}
    (keeps : ∀ s i, Inv s → Legal s i → Inv (f s i))
    (steps : ∀ s i, Inv s → Legal s i → Good s → (Good (f s i) ↔ Guard s i))
    (start : Inv s) (good : Good s) (legal : AlongFold f Legal s is) :
    (∀ is', is' <+: is → Good (is'.foldl f s)) ↔ AlongFold f Guard s is := by
  induction is generalizing s with
  | nil =>
    refine iff_of_true (fun is' part => ?_) trivial
    obtain rfl := List.prefix_nil.mp part
    exact good
  | cons i is ih =>
    have step := steps s i start legal.1 good
    have next := keeps s i start legal.1
    constructor
    · intro all
      have here : Good (f s i) := all [i] (List.prefix_append [i] is)
      refine ⟨step.mp here, (ih next here legal.2).mp fun is' part => ?_⟩
      exact all (i :: is') (List.cons_prefix_cons.mpr ⟨rfl, part⟩)
    · rintro ⟨here, later⟩ is' part
      cases is' with
      | nil => exact good
      | cons j is' =>
        obtain ⟨rfl, rest⟩ := List.cons_prefix_cons.mp part
        exact (ih next (step.mpr here) legal.2).mpr later is' rest

/-- A machine that never stops keeps an invariant through a whole run iff the condition
under which a single step keeps it holds at each step. -/
theorem foldl_invariant_iff {Inv : σ → Prop} {Guard : σ → ι → Prop} (start : Inv s)
    (steps : ∀ s i, Inv s → (Inv (f s i) ↔ Guard s i)) :
    (∀ is', is' <+: is → Inv (is'.foldl f s)) ↔
      ∀ is' i, is' ++ [i] <+: is → Guard (is'.foldl f s) i := by
  -- every input is legal
  have legal : AlongFold f (fun _ _ => True) s is := alongFold_iff.mpr fun _ _ _ => trivial
  have always (t : σ) (i : ι) : True → True → True := fun _ _ => trivial
  rw [← alongFold_iff]
  exact foldl_good_iff always (fun t i _ _ => steps t i) trivial start legal

end Total

end Machine
