/-
# Versions

The history of something that may be absent, and that has a stamp with its value when it is there.
`Advances` says that whatever changes it, or brings it back, gives it a stamp that is larger than
all that it had before.

So a stamp tells whether a copy is still good: `Advances.unchanged` says that a stamp which has not
grown is one under which nothing has happened.
-/

import Mathlib.Data.Nat.Init
import Mathlib.Order.Basic

namespace Versions

variable {V S : Type*}

/-- The value and the stamp at each instant. -/
abbrev History (V S : Type*) := ℕ → Option (V × S)

/-- From one instant to the next nothing happens, or what was there goes away, or a value comes
with a stamp that is larger than all before. -/
def Advances [LT S] (h : History V S) : Prop :=
  ∀ t, h (t + 1) = h t ∨ h (t + 1) = none ∨
    ∃ value stamp, h (t + 1) = some (value, stamp) ∧
      ∀ u ≤ t, ∀ value' stamp', h u = some (value', stamp') → stamp' < stamp

/-- One value with its stamp, and from the instant `n` on another. -/
def replaced (n : ℕ) (old new : V × S) : History V S := fun t => some (if t < n then old else new)

section

variable [Preorder S] {h : History V S} {t t' u : ℕ} {v v' : V} {s s' : S}

/-- Where the later stamp is not the larger one, nothing has happened in between. -/
theorem Advances.unchanged (advances : Advances h) (later : t ≤ t') (before : h t = some (v, s))
    (after : h t' = some (v', s')) (small : s' ≤ s) (from_t : t ≤ u) (to_t' : u ≤ t') :
    h u = some (v, s) := by
  induction t', later using Nat.le_induction generalizing u v' s' with
  | base =>
    obtain rfl := Nat.le_antisymm to_t' from_t
    exact before
  | succ t' later ih =>
    rcases advances t' with same | gone | ⟨value, stamp, comes, larger⟩
    · -- what is there now was there already
      rw [same] at after
      rcases Nat.le_succ_iff.mp to_t' with earlier | rfl
      · exact ih after small from_t earlier
      · exact same.trans (ih after small later (Nat.le_refl t'))
    · rw [gone] at after
      cases after
    · -- a new stamp is larger than the one at `t`
      have grown := larger t later v s before
      obtain ⟨rfl, rfl⟩ := Prod.mk.inj (Option.some.inj (comes.symm.trans after))
      exact absurd (grown.trans_le small) (lt_irrefl s)

theorem advances_replaced (n : ℕ) {old new : V × S} (larger : old.2 < new.2) :
    Advances (replaced n old new) := by
  intro t
  unfold replaced
  rcases Nat.lt_trichotomy (t + 1) n with before | now | after
  · left
    rw [if_pos before, if_pos (by omega)]
  · refine .inr (.inr ⟨new.1, new.2, by rw [if_neg (by omega)], fun u le value' stamp' there => ?_⟩)
    rw [if_pos (by omega), Option.some.injEq] at there
    rwa [there] at larger
  · left
    rw [if_neg (by omega), if_neg (by omega)]

end

end Versions
