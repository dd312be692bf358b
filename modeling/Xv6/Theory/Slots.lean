/-
# Theory.Slots -- slots that name items in use

A structure with slots, each empty or naming an item, next to a record of which
items are in use.  `Assigned used names` says that the two agree: an item is in
use exactly when some slot names it, and then only one does.  Filling an empty
slot with an item not in use and emptying a slot together with its item are the
two steps that keep them in agreement.
-/
import Mathlib.Logic.Function.Basic
import Mathlib.Tactic.SplitIfs

namespace Xv6.Theory

set_option autoImplicit false

variable {κ β : Type}

/-- Every item in use is named by exactly one slot, and nothing else is named. -/
structure Assigned (used : β → Prop) (names : κ → Option β) : Prop where
  inUse : ∀ k b, names k = some b → used b
  once : ∀ k l b, names k = some b → names l = some b → k = l
  named : ∀ b, used b → ∃ k, names k = some b

namespace Assigned

variable {used used' : β → Prop} {names : κ → Option β}

/-- An item that is not in use is named by no slot. -/
theorem not_named (holds : Assigned used names) {b : β} (free : ¬ used b) (k : κ) : names k ≠ some b :=
  fun at' => free (holds.inUse k b at')

/-- Two slots that name items name different ones. -/
theorem ne (holds : Assigned used names) {k l : κ} {b c : β} (first : names k = some b) (second : names l = some c)
    (apart : k ≠ l) : b ≠ c := by
  intro same
  subst same
  exact apart (holds.once k l b first second)

/-- An empty slot takes an item that was not in use. -/
theorem fill [DecidableEq κ] (holds : Assigned used names) {k : κ} {b : β} (empty : names k = none) (free : ¬ used b)
    (now : ∀ c, used' c ↔ used c ∨ c = b) : Assigned used' (Function.update names k (some b)) where
  inUse l c at' := by
    rw [Function.update_apply] at at'
    split_ifs at at' with here
    · exact (now c).2 (.inr (Option.some.inj at').symm)
    · exact (now c).2 (.inl (holds.inUse l c at'))
  once l m c first second := by
    rw [Function.update_apply] at first second
    split_ifs at first second with here there there
    · rw [here, there]
    · cases first
      exact absurd second (holds.not_named free m)
    · cases second
      exact absurd first (holds.not_named free l)
    · exact holds.once l m c first second
  named c inUse := by
    rcases (now c).1 inUse with old | rfl
    · obtain ⟨l, at'⟩ := holds.named c old
      refine ⟨l, ?_⟩
      rwa [Function.update_of_ne]
      rintro rfl
      rw [empty] at at'
      cases at'
    · exact ⟨k, Function.update_self _ _ _⟩

/-- A slot is emptied and its item given back. -/
theorem drop [DecidableEq κ] (holds : Assigned used names) {k : κ} {b : β} (full : names k = some b)
    (now : ∀ c, used' c ↔ used c ∧ c ≠ b) : Assigned used' (Function.update names k none) where
  inUse l c at' := by
    rw [Function.update_apply] at at'
    split_ifs at at' with here
    exact (now c).2 ⟨holds.inUse l c at', holds.ne at' full here⟩
  once l m c first second := by
    rw [Function.update_apply] at first second
    split_ifs at first second
    exact holds.once l m c first second
  named c inUse := by
    obtain ⟨old, other⟩ := (now c).1 inUse
    obtain ⟨l, at'⟩ := holds.named c old
    refine ⟨l, ?_⟩
    rwa [Function.update_of_ne]
    rintro rfl
    rw [full] at at'
    exact other (Option.some.inj at').symm

end Assigned

end Xv6.Theory
