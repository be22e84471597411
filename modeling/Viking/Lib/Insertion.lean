/-
# Inserting before the first element that has a property

`beforeFirst p new xs` puts `new` in front of the first element of `xs` that has
`p`, and at the end when there is none: a search followed by an insertion at the
position found. The lemmas say that nothing is lost, when the insertion is an
insertion at the end, and that it commutes with renaming the elements. `Behind` is what
an insertion should come to that is to overtake no element without `p`.
-/

import Mathlib.Data.List.Basic

namespace Insertion

variable {α β : Type*} (p : α → Bool)

/-- `new` goes in front of the first element of `xs` that has `p`. -/
def beforeFirst (new : List α) : List α → List α
  | [] => new
  | x :: xs => if p x then new ++ x :: xs else x :: beforeFirst new xs

@[simp] theorem beforeFirst_nil (new : List α) : beforeFirst p new [] = new := rfl

variable {p} {new xs ys : List α} {x : α}

theorem beforeFirst_cons_of_pos (h : p x = true) :
    beforeFirst p new (x :: xs) = new ++ x :: xs := if_pos h

theorem beforeFirst_cons_of_neg (h : p x = false) :
    beforeFirst p new (x :: xs) = x :: beforeFirst p new xs := by
  rw [beforeFirst, h, if_neg Bool.false_ne_true]

theorem beforeFirst_perm : (beforeFirst p new xs).Perm (new ++ xs) := by
  induction xs with
  | nil => simp
  | cons x xs ih =>
    cases h : p x with
    | true => rw [beforeFirst_cons_of_pos h]
    | false =>
      rw [beforeFirst_cons_of_neg h]
      exact (ih.cons x).trans List.perm_middle.symm

theorem beforeFirst_of_forall (none : ∀ x ∈ xs, p x = false) :
    beforeFirst p new xs = xs ++ new := by
  induction xs with
  | nil => rfl
  | cons x xs ih =>
    rw [beforeFirst_cons_of_neg (none x List.mem_cons_self),
      ih fun y hy => none y (List.mem_cons_of_mem x hy), List.cons_append]

theorem map_beforeFirst {q : β → Bool} {f : α → β} (same : ∀ x, q (f x) = p x) :
    (beforeFirst p new xs).map f = beforeFirst q (new.map f) (xs.map f) := by
  induction xs with
  | nil => rfl
  | cons x xs ih =>
    cases h : p x with
    | true =>
      have h' : q (f x) = true := (same x).trans h
      rw [beforeFirst_cons_of_pos h, List.map_cons, beforeFirst_cons_of_pos h', List.map_append,
        List.map_cons]
    | false =>
      have h' : q (f x) = false := (same x).trans h
      rw [beforeFirst_cons_of_neg h, List.map_cons, List.map_cons, beforeFirst_cons_of_neg h', ih]

/-- Seen through names that tell old from new elements, an insertion is one at the end
only if no element has `p`. -/
theorem map_beforeFirst_eq_append_iff {f : α → β} (some : new ≠ [])
    (disjoint : ∀ x ∈ xs, f x ∉ new.map f) :
    (beforeFirst p new xs).map f = xs.map f ++ new.map f ↔ ∀ x ∈ xs, p x = false := by
  constructor
  · intro h
    induction xs with
    | nil => simp
    | cons x xs ih =>
      have hx : f x ∉ new.map f := disjoint x List.mem_cons_self
      cases hp : p x with
      | true =>
        -- the inserted elements come first, so one of them would have the name of `x`
        obtain ⟨y, ys, rfl⟩ := List.exists_cons_of_ne_nil some
        rw [beforeFirst_cons_of_pos hp] at h
        simp only [List.cons_append, List.map_cons, List.cons.injEq] at h
        apply absurd _ hx
        rw [List.map_cons, h.1]
        exact List.mem_cons_self
      | false =>
        rw [beforeFirst_cons_of_neg hp, List.map_cons, List.map_cons, List.cons_append,
          List.cons.injEq] at h
        intro y hy
        rcases List.mem_cons.mp hy with rfl | hy
        · exact hp
        · exact ih (fun z hz => disjoint z (List.mem_cons_of_mem x hz)) h.2 y hy
  · intro none
    rw [beforeFirst_of_forall none, List.map_append]

/-! ## Insertion behind the elements without the property -/

theorem beforeFirst_eq :
    beforeFirst p new xs =
      xs.takeWhile (fun x => !p x) ++ new ++ xs.dropWhile (fun x => !p x) := by
  induction xs with
  | nil => simp
  | cons x xs ih =>
    cases h : p x with
    | true => simp [beforeFirst_cons_of_pos h, h]
    | false => simp [beforeFirst_cons_of_neg h, h, ih]

/-- `new` is in `ys` in one piece and in its order, with `xs` around it; behind it all have
`p`. -/
def Behind (p : α → Bool) (new xs ys : List α) : Prop :=
  ∃ front back, xs = front ++ back ∧ ys = front ++ new ++ back ∧ ∀ x ∈ back, p x = true

/-- Where pieces of other elements are put into a list, they are put at the same place and
are the same if the lists that come out are. -/
theorem pieces_eq {front front' back back' piece piece' : List α}
    (same : front ++ back = front' ++ back')
    (all : front ++ piece ++ back = front' ++ piece' ++ back') (some : piece ≠ [])
    (length : piece.length = piece'.length) (other : ∀ x ∈ piece, x ∉ front ++ back)
    (other' : ∀ x ∈ piece', x ∉ front ++ back) :
    front = front' ∧ piece = piece' ∧ back = back' := by
  have some' : piece' ≠ [] := by
    intro none
    rw [none, List.length_nil, List.length_eq_zero_iff] at length
    exact some length
  induction front generalizing front' with
  | nil =>
    cases front' with
    | nil =>
      obtain ⟨pieces, backs⟩ := List.append_inj all (by simpa using length)
      exact ⟨rfl, by simpa using pieces, backs⟩
    | cons x front' =>
      -- the piece begins with an element of the list
      obtain ⟨y, ys, rfl⟩ := List.exists_cons_of_ne_nil some
      simp only [List.nil_append, List.cons_append, List.cons.injEq] at all same
      refine absurd ?_ (other y List.mem_cons_self)
      rw [List.nil_append, same, all.1]
      exact List.mem_cons_self
  | cons x front ih =>
    cases front' with
    | nil =>
      obtain ⟨y, ys, rfl⟩ := List.exists_cons_of_ne_nil some'
      simp only [List.nil_append, List.cons_append, List.cons.injEq] at all
      refine absurd ?_ (other' y List.mem_cons_self)
      rw [← all.1]
      exact List.mem_cons_self
    | cons x' front' =>
      simp only [List.cons_append, List.cons.injEq] at same all
      obtain ⟨rfl, same⟩ := same
      obtain ⟨rfl, rest⟩ := ih same all.2 (fun y mem in_rest => other y mem (by simp [in_rest]))
        fun y mem in_rest => other' y mem (by simp [in_rest])
      exact ⟨rfl, rest⟩

/-- Of different elements a list is its own reverse only if it has none or one. -/
theorem length_le_one_of_reverse (nodup : xs.Nodup) (same : xs.reverse = xs) : xs.length ≤ 1 := by
  cases xs with
  | nil => simp
  | cons x rest =>
    cases behind : rest.reverse with
    | nil => simp [List.reverse_eq_nil_iff.mp behind]
    | cons y ys =>
      rw [List.reverse_cons, behind, List.cons_append, List.cons.injEq] at same
      have mem : y ∈ rest := List.mem_reverse.mp (behind ▸ List.mem_cons_self)
      exact absurd (same.1 ▸ mem) (List.nodup_cons.mp nodup).1

/-- At the front an element is in its place iff it has nothing to stay behind. -/
theorem behind_cons_iff (absent : x ∉ xs) : Behind p [x] xs (x :: xs) ↔ ∀ y ∈ xs, p y = true := by
  constructor
  · rintro ⟨front, back, rfl, all, have_p⟩
    have all : [] ++ [x] ++ (front ++ back) = front ++ [x] ++ back := all
    have absent : ∀ y ∈ [x], y ∉ [] ++ (front ++ back) := by simpa using absent
    have same : [] ++ (front ++ back) = front ++ back := rfl
    obtain ⟨rfl, -, -⟩ := pieces_eq same all (by simp) rfl absent absent
    simpa using have_p
  · intro all
    exact ⟨[], xs, rfl, rfl, all⟩

/-- Elements put in front of the first one with `p`, last one first, are in their place iff
there are none, or it is one and nothing without `p` follows. -/
theorem behind_reverse_iff (distinct : (new ++ xs).Nodup) :
    Behind p new xs (beforeFirst p new.reverse xs) ↔
      new = [] ∨ new.length = 1 ∧ ∀ x ∈ xs.dropWhile (fun x => !p x), p x = true := by
  obtain ⟨nodup, -, apart⟩ := List.nodup_append.mp distinct
  have other : ∀ x ∈ new, x ∉ xs := fun x mem there => apart x mem x there rfl
  have parts : xs.takeWhile (fun x => !p x) ++ xs.dropWhile (fun x => !p x) = xs :=
    List.takeWhile_append_dropWhile
  rw [beforeFirst_eq]
  constructor
  · rintro ⟨front, back, same, all, have_p⟩
    rw [or_iff_not_imp_left]
    intro some
    obtain ⟨-, reversed, rfl⟩ := pieces_eq (parts.trans same) all (by simpa using some)
      (List.length_reverse) (by simpa [parts] using other) (by simpa [parts] using other)
    have short := length_le_one_of_reverse nodup reversed
    have := List.length_pos_iff.mpr some
    exact ⟨by omega, have_p⟩
  · rintro (rfl | ⟨one, have_p⟩)
    · exact ⟨xs, [], by simp, by simp, by simp⟩
    · obtain ⟨y, rfl⟩ := List.length_eq_one_iff.mp one
      exact ⟨_, _, parts.symm, by simp, have_p⟩

end Insertion
