/-
# The history of a component

A machine is made of components, and a step does something to some of them. `history` is what a run
does to one component. When each step leaves a relation between the state of the machine and that of
the component, the component on its own, which meets nothing but its history, ends a run in the
state that the relation gives it: this is `run_history`, and what the other components do in between
does not get into it.
-/

import Viking.Lib.Machine

namespace Machine

section History

universe u

variable {ι ε α τ : Type*} {σ ο : Type u} (step : σ → ι → Except ε (ο × σ))
  (doings : σ → ι → List α)

/-- What is done to the component in a run, as far as the machine takes it. -/
def history : σ → List ι → List α
  | _, [] => []
  | s, i :: is => doings s i ++
    match step s i with
    | .ok (_, s') => history s' is
    | .error _ => []

variable {step doings} {s s' : σ} {i : ι} {is : List ι} {o : ο} {os : List ο}

@[simp] theorem history_nil : history step doings s [] = [] := rfl

theorem history_cons_of_ok (h : step s i = .ok (o, s')) :
    history step doings s (i :: is) = doings s i ++ history step doings s' is := by
  rw [history, h]

/-- The component after a run is what its history makes of it. -/
theorem run_history {R : σ → τ → Prop} {act : τ → α → τ} {t : τ}
    (keeps : ∀ s i o s' t, R s t → step s i = .ok (o, s') → R s' ((doings s i).foldl act t))
    (h : R s t) (returned : run step s is = .ok (os, s')) :
    R s' ((history step doings s is).foldl act t) := by
  induction is generalizing s t os with
  | nil =>
    cases returned
    exact h
  | cons i is ih =>
    obtain ⟨o, s₁, os', first, rest, -⟩ := run_cons_eq_ok.mp returned
    rw [history_cons_of_ok first, List.foldl_append]
    exact ih (keeps s i o s₁ t h first) rest

end History

end Machine
