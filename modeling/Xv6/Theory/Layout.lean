/-
# Theory.Layout -- C structs in memory, and the bytes between their members

A struct is its list of members, each at the next multiple of its alignment; its size is
rounded up to the largest alignment.  Assigning the members one by one (`assign`) decides
the bytes they cover and no others: `assign_eq_iff` says that two structs assigned over
different memory agree at a byte exactly when it is covered or the memory agreed there.
-/
import Xv6.Theory.Bytes

namespace Xv6.Theory.Layout

set_option autoImplicit false

open Xv6.Theory.Bytes

def alignUp (n a : Nat) : Nat := (n + (a - 1)) / a * a

/-- A member: its size and alignment, and what is assigned to it. -/
structure Member where
  size : Nat
  align : Nat
  bytes : Mem

def Member.offset (pos : Nat) (f : Member) : Nat := alignUp pos f.align

def Member.next (pos : Nat) (f : Member) : Nat := f.offset pos + f.size

/-- Assign the members in order, the first one at `pos` or after it. -/
def assign : Nat → List Member → Mem → Mem
  | _, [], m => m
  | pos, f :: rest, m => assign (f.next pos) rest (blit m (f.offset pos) f.size f.bytes)

/-- Byte `j` belongs to a member. -/
def Covered : Nat → List Member → Nat → Prop
  | _, [], _ => False
  | pos, f :: rest, j => f.offset pos ≤ j ∧ j < f.next pos ∨ Covered (f.next pos) rest j

instance : ∀ (pos : Nat) (members : List Member) (j : Nat), Decidable (Covered pos members j)
  | _, [], _ => isFalse id
  | pos, f :: rest, j =>
    have := instDecidableCovered (f.next pos) rest j
    inferInstanceAs (Decidable (_ ∨ _))

variable {pos j : Nat} {members : List Member} {m m' : Mem}

theorem assign_padding (padding : ¬ Covered pos members j) : assign pos members m j = m j := by
  induction members generalizing pos m with
  | nil => rfl
  | cons f rest ih =>
    rw [assign, ih fun covered => padding (.inr covered)]
    refine blit_out ?_
    by_contra inside
    exact padding (.inl (by rw [Member.next]; omega))

theorem assign_covered (covered : Covered pos members j) : assign pos members m j = assign pos members m' j := by
  induction members generalizing pos m m' with
  | nil => exact covered.elim
  | cons f rest ih =>
    rw [assign, assign]
    by_cases later : Covered (f.next pos) rest j
    · exact ih later
    · rw [assign_padding later, assign_padding later]
      obtain ⟨low, high⟩ := covered.resolve_right later
      rw [blit_in low high, blit_in low high]

theorem assign_eq_iff : assign pos members m j = assign pos members m' j ↔ (¬ Covered pos members j → m j = m' j) := by
  by_cases covered : Covered pos members j
  · exact iff_of_true (assign_covered covered) fun padding => absurd covered padding
  · rw [assign_padding covered, assign_padding covered]
    exact ⟨fun same _ => same, fun same => same covered⟩

end Xv6.Theory.Layout
