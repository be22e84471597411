/-
# Text between separators

A separator is a list that is not empty. `split` takes a text apart at each place where the
separator stands, read from the left, and `cut` at the first such place only. A part in
which the first element of the separator does not occur is found again: `split_append` and
`cut_append` say so with any text behind the separator, and `takeWhile_append` and its like do for
a separator of one element.
-/

import Mathlib.Data.List.Basic
import Mathlib.Data.List.DropRight

namespace Delimited

variable {α : Type*} [DecidableEq α]

/-- The parts of a text between the separators `first :: others`; `skip` elements of a
separator are still to be passed over. -/
def splitFrom (first : α) (others : List α) : ℕ → List α → List (List α)
  | _, [] => [[]]
  | skip + 1, _ :: rest => splitFrom first others skip rest
  | 0, x :: rest =>
    if (first :: others).isPrefixOf (x :: rest) then
      [] :: splitFrom first others others.length rest
    else (splitFrom first others 0 rest).modifyHead (x :: ·)

def split (first : α) (others text : List α) : List (List α) := splitFrom first others 0 text

/-- What stands before the first separator and what stands behind it. -/
def cut (first : α) (others : List α) : List α → Option (List α × List α)
  | [] => none
  | x :: rest =>
    if (first :: others).isPrefixOf (x :: rest) then some ([], rest.drop others.length)
    else (cut first others rest).map fun parts => (x :: parts.1, parts.2)

variable {first : α} {others part rest : List α}

theorem splitFrom_skip (passed : List α) :
    splitFrom first others passed.length (passed ++ rest) = splitFrom first others 0 rest := by
  induction passed with
  | nil => rfl
  | cons x passed ih => exact ih

theorem isPrefixOf_separator : (first :: others).isPrefixOf (first :: (others ++ rest)) := by
  rw [List.isPrefixOf_iff_prefix]
  exact ⟨rest, rfl⟩

/-- No separator begins with an element that is not its first. -/
theorem not_isPrefixOf {x : α} (other : x ≠ first) :
    ¬ (first :: others).isPrefixOf (x :: rest) := by
  rw [List.isPrefixOf_iff_prefix, List.cons_prefix_cons]
  exact fun starts => other starts.1.symm

/-- A part without the first element of the separator, and a separator behind it. -/
theorem split_append (plain : first ∉ part) :
    split first others (part ++ first :: (others ++ rest)) = part :: split first others rest := by
  induction part with
  | nil =>
    rw [List.nil_append, split, splitFrom, if_pos isPrefixOf_separator, splitFrom_skip]
    rfl
  | cons x part ih =>
    rw [List.mem_cons, not_or] at plain
    have rest_split := ih plain.2
    rw [split] at rest_split
    rw [List.cons_append, split, splitFrom, if_neg (not_isPrefixOf (Ne.symm plain.1)), rest_split]
    rfl

@[simp] theorem split_nil : split first others [] = [[]] := rfl

theorem cut_append (plain : first ∉ part) :
    cut first others (part ++ first :: (others ++ rest)) = some (part, rest) := by
  induction part with
  | nil =>
    rw [List.nil_append, cut, if_pos isPrefixOf_separator, List.drop_left]
  | cons x part ih =>
    rw [List.mem_cons, not_or] at plain
    rw [List.cons_append, cut, if_neg (not_isPrefixOf (Ne.symm plain.1)), ih plain.2]
    rfl

/-- Parts that each end in a separator, and what stands behind the last of them. -/
theorem split_flatMap {parts : List (List α)} (plain : ∀ part ∈ parts, first ∉ part) :
    split first others (parts.flatMap (· ++ first :: others) ++ rest) =
      parts ++ split first others rest := by
  induction parts with
  | nil => rfl
  | cons part parts ih =>
    rw [List.forall_mem_cons] at plain
    rw [List.flatMap_cons, List.append_assoc, List.append_assoc, List.cons_append,
      split_append plain.1, ih plain.2]
    rfl

/-! ## Separators of one element -/

/-- None of a part without it is the separator. -/
theorem ne_of_plain (plain : first ∉ part) : ∀ x ∈ part, decide (x ≠ first) = true := by
  intro x mem
  simpa using fun same : x = first => plain (same ▸ mem)

theorem takeWhile_append (plain : first ∉ part) (rest : List α) :
    (part ++ first :: rest).takeWhile (· ≠ first) = part := by
  rw [List.takeWhile_append_of_pos (ne_of_plain plain)]
  simp

theorem dropWhile_append (plain : first ∉ part) (rest : List α) :
    (part ++ first :: rest).dropWhile (· ≠ first) = first :: rest := by
  rw [List.dropWhile_append_of_pos (ne_of_plain plain)]
  simp

/-- What stands behind the last separator. -/
theorem rtakeWhile_append (plain : first ∉ part) (front : List α) :
    (front ++ first :: part).rtakeWhile (· ≠ first) = part := by
  have back : (front ++ first :: part).reverse = part.reverse ++ first :: front.reverse := by simp
  rw [List.rtakeWhile, back, takeWhile_append (by simpa using plain), List.reverse_reverse]

end Delimited
