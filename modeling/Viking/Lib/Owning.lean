/-
# Objects with owners

Objects are allocated for an owner, at a place where none is, and deleted for their owner. `use`
is one of the two and refuses what must not happen: to allocate where an object is, and to delete
what is not there or is not the owner's. A list of uses that `replay` does not refuse is one in
which every object is deleted once at most, and `replay_balance` says that those left are the ones
that were not deleted.

`Accounts` is the invariant of a program whose owners have a pointer each: the objects that are
left are those which the pointers point to. `Custody` is that of a program in which somebody else
keeps the objects for their owners, and passes them on.
-/

import Mathlib.Logic.Equiv.Basic
import Mathlib.Logic.Function.Basic
import Mathlib.Data.List.Basic

namespace Owning

variable {ω π : Type*}

inductive Use (ω π : Type*)
  | allocated (owner : ω) (place : π)
  | deleted (owner : ω) (place : π)
deriving DecidableEq

/-- At each place the owner of the object that is there. -/
abbrev Heap (ω π : Type*) := π → Option ω

/-- No object is anywhere. -/
def Heap.empty : Heap ω π := fun _ => none

section

variable [DecidableEq ω] [DecidableEq π]

def Heap.use (heap : Heap ω π) : Use ω π → Option (Heap ω π)
  | .allocated owner place =>
    if heap place = none then some (Function.update heap place (some owner)) else none
  | .deleted owner place =>
    if heap place = some owner then some (Function.update heap place none) else none

def Heap.replay (heap : Heap ω π) (uses : List (Use ω π)) : Option (Heap ω π) :=
  uses.foldlM Heap.use heap

/-- How often an object was allocated at the place. -/
def allocations (place : π) (uses : List (Use ω π)) : ℕ :=
  uses.countP fun
    | .allocated _ p => p = place
    | .deleted _ _ => false

/-- How often an object was deleted at the place. -/
def deletions (place : π) (uses : List (Use ω π)) : ℕ :=
  uses.countP fun
    | .allocated _ _ => false
    | .deleted _ p => p = place

variable {heap heap' : Heap ω π} {owner x : ω} {place p : π} {uses uses' : List (Use ω π)}
  {u : Use ω π}

theorem replay_nil : heap.replay [] = some heap := rfl

theorem replay_append : heap.replay (uses ++ uses') =
    (heap.replay uses).bind fun heap => heap.replay uses' :=
  List.foldlM_append

theorem replay_allocated (free : heap place = none) :
    heap.replay [.allocated owner place] = some (Function.update heap place (some owner)) := by
  show (heap.use (.allocated owner place)).bind some = _
  rw [Heap.use, if_pos free, Option.bind_some]

theorem replay_deleted (owned : heap place = some owner) :
    heap.replay [.deleted owner place] = some (Function.update heap place none) := by
  show (heap.use (.deleted owner place)).bind some = _
  rw [Heap.use, if_pos owned, Option.bind_some]

/-- One use counts for the place where it is. -/
theorem use_balance (used : heap.use u = some heap') (place : π) :
    allocations place [u] + (heap place).toList.length =
      deletions place [u] + (heap' place).toList.length := by
  cases u with
  | allocated owner p =>
    rw [Heap.use] at used
    split_ifs at used with free
    obtain rfl := Option.some.inj used
    by_cases here : p = place
    · subst here
      simp [allocations, deletions, free]
    · simp [allocations, deletions, here, Function.update_of_ne (Ne.symm here)]
  | deleted owner p =>
    rw [Heap.use] at used
    split_ifs at used with owned
    obtain rfl := Option.some.inj used
    by_cases here : p = place
    · subst here
      simp [allocations, deletions, owned]
    · simp [allocations, deletions, here, Function.update_of_ne (Ne.symm here)]

/-- At each place there have been as many deletions as allocations, but for the object that
is there. -/
theorem replay_balance (replayed : heap.replay uses = some heap') (place : π) :
    allocations place uses + (heap place).toList.length =
      deletions place uses + (heap' place).toList.length := by
  induction uses generalizing heap with
  | nil =>
    obtain rfl := Option.some.inj (replay_nil.symm.trans replayed)
    rfl
  | cons u uses ih =>
    obtain ⟨next, first, rest⟩ := Option.bind_eq_some_iff.mp replayed
    have one := use_balance first place
    have others := ih rest
    -- The counts of the whole list are those of its first use and of the rest.
    have allocated : allocations place (u :: uses) =
        allocations place [u] + allocations place uses := by
      rw [allocations, ← List.singleton_append, List.countP_append]
      rfl
    have deleted : deletions place (u :: uses) =
        deletions place [u] + deletions place uses := by
      rw [deletions, ← List.singleton_append, List.countP_append]
      rfl
    omega

/-- An allocation may put an object at the place. -/
def Free (uses : List (Use ω π)) (place : π) : Prop :=
  ∀ heap, Heap.empty.replay uses = some heap → heap place = none

theorem free_of_replay (h : (Heap.empty.replay uses).map (· place) = some none) :
    Free uses place := by
  intro heap replayed
  rw [replayed, Option.map_some, Option.some.injEq] at h
  exact h

/-- After the uses each owner has the object that its pointer points to, and no other. -/
def Accounts (uses : List (Use ω π)) (pointer : ω → Option π) : Prop :=
  ∃ heap, Heap.empty.replay uses = some heap ∧ ∀ x p, heap p = some x ↔ pointer x = some p

variable {pointer : ω → Option π}

theorem Accounts.empty : Accounts ([] : List (Use ω π)) fun _ => none :=
  ⟨Heap.empty, replay_nil, fun x p => by simp [Heap.empty]⟩

theorem Accounts.allocate (h : Accounts uses pointer) (null : pointer owner = none)
    (free : Free uses place) :
    Accounts (uses ++ [.allocated owner place]) (Function.update pointer owner (some place)) := by
  obtain ⟨heap, replayed, owned⟩ := h
  have vacant := free heap replayed
  refine ⟨Function.update heap place (some owner), ?_, fun x p => ?_⟩
  · rw [replay_append, replayed, Option.bind_some, replay_allocated vacant]
  · by_cases same : x = owner
    · subst same
      rw [Function.update_self, Option.some.injEq]
      by_cases here : p = place
      · rw [here, Function.update_self]
        simp
      · -- the owner had no other object before
        rw [Function.update_of_ne here, owned, null]
        simp [Ne.symm here]
    · rw [Function.update_of_ne same]
      by_cases here : p = place
      · rw [here, Function.update_self, ← owned, vacant]
        simp [Ne.symm same]
      · rw [Function.update_of_ne here, owned]

/-- To delete what a pointer points to; nothing is done where it points to nothing. -/
theorem Accounts.release (h : Accounts uses pointer) (owner : ω) :
    Accounts (uses ++ (pointer owner).toList.map (.deleted owner))
      (Function.update pointer owner none) := by
  obtain ⟨heap, replayed, owned⟩ := h
  cases points : pointer owner with
  | none =>
    refine ⟨heap, ?_, fun x p => ?_⟩
    · rw [Option.toList_none, List.map_nil, List.append_nil, replayed]
    · rw [owned, ← points, Function.update_eq_self]
  | some place =>
    have there := (owned owner place).mpr points
    refine ⟨Function.update heap place none, ?_, fun x p => ?_⟩
    · rw [replay_append, replayed]
      exact replay_deleted there
    · by_cases here : p = place
      · subst here
        rw [Function.update_self]
        by_cases same : x = owner
        · rw [same, Function.update_self]
          simp
        · rw [Function.update_of_ne same, ← owned, there]
          simp [Ne.symm same]
      · rw [Function.update_of_ne here, owned]
        by_cases same : x = owner
        · rw [same, Function.update_self, points]
          simp [Ne.symm here]
        · rw [Function.update_of_ne same]

/-- No two owners have one object. -/
theorem Accounts.injective {y : ω} (h : Accounts uses pointer) (left : pointer x = some p)
    (right : pointer y = some p) : x = y := by
  obtain ⟨heap, -, owned⟩ := h
  exact Option.some.inj (((owned x p).mpr left).symm.trans ((owned y p).mpr right))

/-! ## Keepers -/

section Custody

variable {ν : Type*} [DecidableEq ν] {keeps : ν → Option (π × ω)} {k l : ν} {o : ω}

/-- After the uses each object has one keeper, who knows its owner. -/
def Custody (uses : List (Use ω π)) (keeps : ν → Option (π × ω)) : Prop :=
  ∃ heap, Heap.empty.replay uses = some heap ∧
    (∀ p o, heap p = some o ↔ ∃ k, keeps k = some (p, o)) ∧
    ∀ k l p o o', keeps k = some (p, o) → keeps l = some (p, o') → k = l

omit [DecidableEq ν] in
theorem Custody.empty : Custody ([] : List (Use ω π)) fun _ : ν => none :=
  ⟨Heap.empty, replay_nil, fun p o => by simp [Heap.empty], fun _ _ _ _ _ kept => by cases kept⟩

omit [DecidableEq ν] in
/-- Where nobody keeps anything, nothing is left. -/
theorem Custody.replay_of_forall (h : Custody uses keeps) (nothing : ∀ k, keeps k = none) :
    Heap.empty.replay uses = some Heap.empty := by
  obtain ⟨heap, replayed, kept, -⟩ := h
  rw [replayed, Option.some.injEq]
  funext p
  rw [Heap.empty, Option.eq_none_iff_forall_ne_some]
  intro o there
  obtain ⟨k, keeping⟩ := (kept p o).mp there
  rw [nothing] at keeping
  cases keeping

omit [DecidableEq ν] in
theorem Custody.eq_of_place (h : Custody uses keeps) {o' : ω} (left : keeps k = some (p, o))
    (right : keeps l = some (p, o')) : k = l := by
  obtain ⟨heap, -, -, one⟩ := h
  exact one k l p o o' left right

/-- A new object is given to somebody who keeps nothing. -/
theorem Custody.allocate (h : Custody uses keeps) (nothing : keeps k = none)
    (free : ∀ l o, keeps l ≠ some (place, o)) (o : ω) :
    Custody (uses ++ [.allocated o place]) (Function.update keeps k (some (place, o))) := by
  obtain ⟨heap, replayed, kept, one⟩ := h
  have vacant : heap place = none := by
    rw [Option.eq_none_iff_forall_ne_some]
    intro o there
    obtain ⟨l, keeping⟩ := (kept place o).mp there
    exact free l o keeping
  refine ⟨Function.update heap place (some o), ?_, fun p o' => ?_, fun l m p a b left right => ?_⟩
  · rw [replay_append, replayed, Option.bind_some, replay_allocated vacant]
  · by_cases here : p = place
    · subst here
      rw [Function.update_self]
      constructor
      · intro same
        exact ⟨k, by rw [Function.update_self, Option.some.inj same]⟩
      · rintro ⟨l, keeping⟩
        by_cases same : l = k
        · rw [same, Function.update_self, Option.some.injEq, Prod.mk.injEq] at keeping
          rw [keeping.2]
        · rw [Function.update_of_ne same] at keeping
          exact absurd keeping (free l o')
    · rw [Function.update_of_ne here, kept]
      constructor
      · rintro ⟨l, keeping⟩
        have other : l ≠ k := by
          rintro rfl
          rw [nothing] at keeping
          cases keeping
        exact ⟨l, by rwa [Function.update_of_ne other]⟩
      · rintro ⟨l, keeping⟩
        by_cases same : l = k
        · rw [same, Function.update_self, Option.some.injEq, Prod.mk.injEq] at keeping
          exact absurd keeping.1.symm here
        · exact ⟨l, by rwa [Function.update_of_ne same] at keeping⟩
  · -- the place of the new object is nobody's before
    by_cases first : l = k <;> by_cases second : m = k
    · rw [first, second]
    · rw [first, Function.update_self, Option.some.injEq, Prod.mk.injEq] at left
      rw [Function.update_of_ne second, ← left.1] at right
      exact absurd right (free m b)
    · rw [second, Function.update_self, Option.some.injEq, Prod.mk.injEq] at right
      rw [Function.update_of_ne first, ← right.1] at left
      exact absurd left (free l a)
    · rw [Function.update_of_ne first] at left
      rw [Function.update_of_ne second] at right
      exact one l m p a b left right

/-- The object that somebody keeps is deleted for its owner. -/
theorem Custody.delete (h : Custody uses keeps) (keeping : keeps k = some (place, o)) :
    Custody (uses ++ [.deleted o place]) (Function.update keeps k none) := by
  obtain ⟨heap, replayed, kept, one⟩ := h
  have there := (kept place o).mpr ⟨k, keeping⟩
  have before {l : ν} {t : π × ω} (keeping : Function.update keeps k none l = some t) :
      l ≠ k ∧ keeps l = some t := by
    by_cases same : l = k
    · rw [same, Function.update_self] at keeping
      cases keeping
    · rw [Function.update_of_ne same] at keeping
      exact ⟨same, keeping⟩
  refine ⟨Function.update heap place none, ?_, fun p o' => ?_, fun l m p a b left right => ?_⟩
  · rw [replay_append, replayed]
    exact replay_deleted there
  · by_cases here : p = place
    · subst here
      rw [Function.update_self]
      constructor
      · rintro ⟨⟩
      · rintro ⟨l, kept'⟩
        obtain ⟨other, keeping'⟩ := before kept'
        exact absurd (one l k p o' o keeping' keeping) other
    · rw [Function.update_of_ne here, kept]
      constructor
      · rintro ⟨l, keeping'⟩
        have other : l ≠ k := by
          rintro rfl
          rw [keeping, Option.some.injEq, Prod.mk.injEq] at keeping'
          exact here keeping'.1.symm
        exact ⟨l, by rwa [Function.update_of_ne other]⟩
      · rintro ⟨l, keeping'⟩
        exact ⟨l, (before keeping').2⟩
  · exact one l m p a b (before left).2 (before right).2

omit [DecidableEq ν] in
/-- It is not deleted for another owner. -/
theorem Custody.refuses (h : Custody uses keeps) (keeping : keeps k = some (place, o)) {o' : ω}
    (other : o' ≠ o) (more : List (Use ω π)) :
    Heap.empty.replay (uses ++ .deleted o' place :: more) = none := by
  obtain ⟨heap, replayed, kept, -⟩ := h
  have there := (kept place o).mpr ⟨k, keeping⟩
  rw [replay_append, replayed, Option.bind_some]
  show (heap.use (.deleted o' place)).bind _ = none
  rw [Heap.use, if_neg, Option.bind_none]
  rw [there, Option.some.injEq]
  exact other.symm

/-- What somebody keeps is passed on to somebody who keeps nothing. -/
theorem Custody.pass (h : Custody uses keeps) (nothing : keeps k = none) (l : ν) :
    Custody uses (Function.update (Function.update keeps l none) k (keeps l)) := by
  obtain ⟨heap, replayed, kept, one⟩ := h
  -- `k` has what `l` had, and the others have what they had
  have swapped (m : ν) : Function.update (Function.update keeps l none) k (keeps l) m =
      keeps (Equiv.swap k l m) := by
    by_cases first : m = k
    · rw [first, Function.update_self, Equiv.swap_apply_left]
    · rw [Function.update_of_ne first]
      by_cases second : m = l
      · rw [second, Function.update_self, Equiv.swap_apply_right, nothing]
      · rw [Function.update_of_ne second, Equiv.swap_apply_of_ne_of_ne first second]
  refine ⟨heap, replayed, fun p o => ?_, fun m n p a b left right => ?_⟩
  · simp only [kept, swapped]
    exact (Equiv.swap k l).exists_congr_left.trans (by simp)
  · rw [swapped] at left right
    exact (Equiv.swap k l).injective (one _ _ p a b left right)

/-- An object that is never deleted is left. -/
theorem not_replay_of_deletions (kept : deletions place uses' = 0) :
    Heap.empty.replay (uses ++ .allocated o place :: uses') ≠ some Heap.empty := by
  intro replayed
  rw [replay_append] at replayed
  obtain ⟨heap, first, rest⟩ := Option.bind_eq_some_iff.mp replayed
  obtain ⟨next, used, last⟩ := Option.bind_eq_some_iff.mp rest
  have balance := replay_balance last place
  rw [Heap.use] at used
  split_ifs at used
  obtain rfl := Option.some.inj used
  simp [kept, Heap.empty] at balance

end Custody

end

end Owning
