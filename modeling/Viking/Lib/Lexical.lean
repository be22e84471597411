/-
# Paths read as moves

A path read from the left moves through a tree of directories without looking at it: a
name goes down, two dots go up, one dot stays. `Place` is where such moves lead. Above the
root there is nothing, and a path that does not start at the root may lead above its start.

`follow_eq_after` says that moves do from any place what they do from an unknown one, and
`within_after_iff` when they end below the place they start from.
-/

import Mathlib.Data.List.Basic
import Mathlib.Data.List.Induction

namespace Lexical

variable {α : Type*}

/-- What one part of a path does. -/
inductive Move (α : Type*)
  | stay
  | up
  | down (name : α)
  deriving DecidableEq

/-- So many directories above the start, or below the root, and from there down the names. -/
structure Place (α : Type*) where
  absolute : Bool
  ups : Nat
  names : List α
  deriving DecidableEq

namespace Place

def start (absolute : Bool) : Place α := ⟨absolute, 0, []⟩

def move (p : Place α) : Move α → Place α
  | .stay => p
  | .up =>
    match p.names with
    -- above the root is the root itself
    | [] => if p.absolute then p else { p with ups := p.ups + 1 }
    | _ :: _ => { p with names := p.names.dropLast }
  | .down name => { p with names := p.names ++ [name] }

def follow (p : Place α) (moves : List (Move α)) : Place α := moves.foldl move p

/-- What moves come to from a place that is not known: some directories up, and then down. -/
def climb (moves : List (Move α)) : Place α := (start false).follow moves

/-- The place that `c` is when it starts at `p`. -/
def after (p c : Place α) : Place α where
  absolute := p.absolute
  ups := if p.absolute then p.ups else p.ups + (c.ups - p.names.length)
  names := p.names.take (p.names.length - c.ups) ++ c.names

/-- `p` is in the subtree of `root`. -/
def Within (root p : Place α) : Prop :=
  p.absolute = root.absolute ∧ p.ups = root.ups ∧ root.names <+: p.names

instance [DecidableEq α] (root p : Place α) : Decidable (root.Within p) :=
  inferInstanceAs (Decidable (_ ∧ _ ∧ _))

/-- From `root`, `c` goes up no further than to a directory from which it comes down to
`root` again. -/
def Rejoins (root c : Place α) : Prop :=
  (root.absolute = true ∨ c.ups ≤ root.names.length) ∧
    root.names.drop (root.names.length - c.ups) <+: c.names

variable {p c root : Place α} {moves : List (Move α)}

@[simp] theorem follow_nil : p.follow [] = p := rfl

theorem follow_append (moves' : List (Move α)) :
    p.follow (moves ++ moves') = (p.follow moves).follow moves' := List.foldl_append

@[simp] theorem follow_stay : p.follow (.stay :: moves) = p.follow moves := rfl

theorem after_start : p.after (start false) = p := by
  obtain ⟨absolute, ups, names⟩ := p
  simp [after, start]

/-- One move more. -/
theorem move_after (relative : c.absolute = false) (m : Move α) :
    (p.after c).move m = p.after (c.move m) := by
  cases m with
  | stay => rfl
  | down name => simp [move, after]
  | up =>
    cases below : c.names with
    | cons name names =>
      -- the move takes back a name of `c`
      have nonempty : p.names.take (p.names.length - c.ups) ++ c.names ≠ [] := by simp [below]
      obtain ⟨first, rest, split⟩ := List.exists_cons_of_ne_nil nonempty
      simp only [move, after, below] at split ⊢
      rw [split]
      simp only [← split]
      rw [List.dropLast_append_of_ne_nil (by simp)]
    | nil =>
      have higher : c.move .up = { c with ups := c.ups + 1 } := by
        simp [move, below, relative]
      rw [higher]
      by_cases room : c.ups < p.names.length
      · -- it takes back a name of `p`
        have nonempty : p.names.take (p.names.length - c.ups) ≠ [] := by
          rw [← List.length_pos_iff, List.length_take]
          omega
        obtain ⟨first, rest, split⟩ := List.exists_cons_of_ne_nil nonempty
        have shorter : (p.names.take (p.names.length - c.ups)).dropLast =
            p.names.take (p.names.length - (c.ups + 1)) := by
          rw [List.dropLast_eq_take, List.length_take, List.take_take]
          congr 1
          omega
        have none : c.ups - p.names.length = 0 := by omega
        have none' : c.ups + 1 - p.names.length = 0 := by omega
        simp only [move, after, below, List.append_nil, none, none']
        rw [split]
        simp only [← split, shorter]
      · -- it leads above where `p` starts
        have all : p.names.length - c.ups = 0 := by omega
        have all' : p.names.length - (c.ups + 1) = 0 := by omega
        have one : c.ups + 1 - p.names.length = c.ups - p.names.length + 1 := by omega
        simp only [move, after, below, all, all', one, List.take_zero, List.append_nil]
        split_ifs <;> simp_all [Nat.add_assoc]

theorem move_absolute (p : Place α) (m : Move α) : (p.move m).absolute = p.absolute := by
  cases m with
  | stay | down => rfl
  | up =>
    simp only [move]
    split
    · split_ifs <;> rfl
    · rfl

theorem follow_absolute (p : Place α) (moves : List (Move α)) :
    (p.follow moves).absolute = p.absolute := by
  induction moves generalizing p with
  | nil => rfl
  | cons m moves ih => exact (ih (p.move m)).trans (move_absolute p m)

/-- Moves do from every place what they come to. -/
theorem follow_eq_after (p : Place α) (moves : List (Move α)) :
    p.follow moves = p.after (climb moves) := by
  -- Induct on the moves from their end: the last one is done at the place they come to.
  induction moves using List.reverseRecOn with
  | nil => exact after_start.symm
  | append_singleton moves m ih =>
    rw [climb, follow_append, follow_append, ih]
    exact move_after (follow_absolute _ moves) m

theorem within_refl (p : Place α) : p.Within p := ⟨rfl, rfl, List.prefix_refl _⟩

theorem within_after_iff : root.Within (root.after c) ↔ root.Rejoins c := by
  -- Both lists begin with the names that `c` has left of `root`.
  have names : root.names <+: root.names.take (root.names.length - c.ups) ++ c.names ↔
      root.names.drop (root.names.length - c.ups) <+: c.names :=
    calc root.names <+: root.names.take (root.names.length - c.ups) ++ c.names
        ↔ root.names.take (root.names.length - c.ups) ++
              root.names.drop (root.names.length - c.ups) <+:
            root.names.take (root.names.length - c.ups) ++ c.names := by
          rw [List.take_append_drop]
      _ ↔ root.names.drop (root.names.length - c.ups) <+: c.names :=
          List.prefix_append_right_inj _
  simp only [Within, Rejoins, after, true_and, names]
  apply and_congr_left'
  cases root.absolute with
  | true => simp
  | false =>
    simp only [Bool.false_eq_true, if_false, false_or]
    omega

end Place

end Lexical
