/-
# Texts handed over in pieces

Some events carry a text: `event k t` is the one of kind `k` with the text `t`. A reader that gets
its input in several parts cannot wait for the end of a text and hands over what it has, so that
one event becomes several of the same kind. `Pieces xs ys` says that the events `ys` are `xs` with
some of the texts in pieces.

A consumer for which two pieces are as good as the text they make up cannot tell the difference:
`Pieces.foldl`.
-/

import Mathlib.Data.List.Basic

namespace Texts

variable {α κ β : Type*} {event : κ → List β → α}

/-- The second list is the first one with some of its texts in pieces. -/
inductive Pieces (event : κ → List β → α) : List α → List α → Prop
  | nil : Pieces event [] []
  | same {x : α} {xs ys : List α} : Pieces event xs ys → Pieces event (x :: xs) (x :: ys)
  | cut {k : κ} {t u : List β} {xs ys : List α} : Pieces event (event k u :: xs) ys →
      Pieces event (event k (t ++ u) :: xs) (event k t :: ys)

theorem Pieces.refl (xs : List α) : Pieces event xs xs := by
  induction xs with
  | nil => exact .nil
  | cons x xs ih => exact .same ih

theorem Pieces.append {xs ys xs' ys' : List α} (h : Pieces event xs ys)
    (h' : Pieces event xs' ys') : Pieces event (xs ++ xs') (ys ++ ys') := by
  induction h with
  | nil => exact h'
  | same _ ih => exact .same ih
  | cut _ ih => exact .cut ih

/-- One text, of which `last` is the last piece. -/
theorem Pieces.text (k : κ) (pieces : List (List β)) (last : List β) :
    Pieces event [event k (pieces.flatten ++ last)] (pieces.map (event k) ++ [event k last]) := by
  induction pieces with
  | nil => exact .refl _
  | cons piece pieces ih =>
    rw [List.flatten_cons, List.append_assoc]
    exact .cut ih

theorem Pieces.text_of_ne_nil (k : κ) {pieces : List (List β)} (some : pieces ≠ []) :
    Pieces event [event k pieces.flatten] (pieces.map (event k)) := by
  have split := pieces.dropLast_concat_getLast some
  have pieced : Pieces event _ _ := .text k pieces.dropLast (pieces.getLast some)
  rw [← split, List.flatten_append, List.flatten_singleton, List.map_append, List.map_singleton]
  exact pieced

/-- A consumer that takes two pieces like the text they make up does not see the cuts. -/
theorem Pieces.foldl {σ : Type*} {f : σ → α → σ} {xs ys : List α} (h : Pieces event xs ys)
    (joins : ∀ s k t u, f (f s (event k t)) (event k u) = f s (event k (t ++ u))) (s : σ) :
    ys.foldl f s = xs.foldl f s := by
  induction h generalizing s with
  | nil => rfl
  | same _ ih => exact ih (f s _)
  | cut _ ih =>
    rw [List.foldl_cons, ih, List.foldl_cons, List.foldl_cons, joins]

end Texts
