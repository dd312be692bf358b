/-
# Theory.Pool -- who owns which page

A `Pool` is a memory cut into pages and a list of free pages.  A component of a
system owns pages; what it owns is a counting function `Nat → Nat` on page
addresses, so that "in exactly one place" is an equation between numbers.

`Keeps p f p' f'` is the contract of a program that owned `f` before and owns `f'`
after: pages only move between the free list and the owner, no byte outside the
owner's pages and the free pages has changed, and what the allocator keeps in the
free pages is intact.  Contracts compose (`Keeps.trans`) and can be used inside a
larger system (`Keeps.frame`); whoever owns other pages sees no change
(`Keeps.untouched`).
-/
import Mathlib.Data.List.Count
import Mathlib.Data.List.Nodup
import Mathlib.Data.List.Perm.Subperm

namespace Xv6.Theory

set_option autoImplicit false

/-- Memory and the pages nobody owns. -/
structure Pool (β : Type) where
  mem : Nat → β
  free : List Nat

/-- Owning the one page `p`. -/
def one (p : Nat) : Nat → Nat := fun q => if q = p then 1 else 0

@[simp] theorem one_self (p : Nat) : one p p = 1 := if_pos rfl

theorem one_of_ne {p q : Nat} (ne : q ≠ p) : one p q = 0 := if_neg ne

theorem one_pos {p q : Nat} (mine : 0 < one p q) : q = p := by
  by_contra ne
  rw [one_of_ne ne] at mine
  exact absurd mine (Nat.lt_irrefl 0)

namespace Pool

/-- How memory is cut into pages, which pages may be owned, and what the free
pages hold. -/
structure Rules (β : Type) where
  page : Nat → Nat
  valid : Nat → Prop
  linked : (Nat → β) → List Nat → Prop

variable {β : Type} (R : Rules β)

/-- The contract of a program that owned `f` before and owns `f'` after. -/
structure Keeps (p : Pool β) (f : Nat → Nat) (p' : Pool β) (f' : Nat → Nat) : Prop where
  sum : ∀ q, p'.free.count q + f' q = p.free.count q + f q
  mem : ∀ x, p.free.count (R.page x) + f (R.page x) = 0 → p'.mem x = p.mem x
  linked : R.linked p.mem p.free → R.linked p'.mem p'.free

/-- Free and owned pages are pairwise distinct and valid, and the free list is intact. -/
structure Fits (p : Pool β) (f : Nat → Nat) : Prop where
  once : ∀ q, p.free.count q + f q ≤ 1
  valid : ∀ q, 0 < p.free.count q + f q → R.valid q
  linked : R.linked p.mem p.free

variable {R} {p p' p'' : Pool β} {f f' f'' g : Nat → Nat}

theorem Keeps.refl (p : Pool β) (f : Nat → Nat) : Keeps R p f p f := ⟨fun _ => rfl, fun _ _ => rfl, fun h => h⟩

theorem Keeps.trans (first : Keeps R p f p' f') (second : Keeps R p' f' p'' f'') : Keeps R p f p'' f'' where
  sum := fun q => (second.sum q).trans (first.sum q)
  mem := fun x none => by
    have none' : p'.free.count (R.page x) + f' (R.page x) = 0 := (first.sum (R.page x)).trans none
    rw [second.mem x none', first.mem x none]
  linked := fun h => second.linked (first.linked h)

/-- A program leaves alone what else its caller owns. -/
theorem Keeps.frame (keeps : Keeps R p f p' f') (g : Nat → Nat) :
    Keeps R p (fun q => f q + g q) p' (fun q => f' q + g q) where
  sum := fun q => by have := keeps.sum q; omega
  mem := fun x none => keeps.mem x (by omega)
  linked := keeps.linked

theorem Keeps.congr {f₁ f₁' : Nat → Nat} (keeps : Keeps R p f p' f') (before : ∀ q, f₁ q = f q)
    (after : ∀ q, f₁' q = f' q) : Keeps R p f₁ p' f₁' where
  sum := fun q => by rw [before, after]; exact keeps.sum q
  mem := fun x none => keeps.mem x (by rw [← before]; exact none)
  linked := keeps.linked

/-- A contract used by a program that owns more. -/
theorem Keeps.within {F F' : Nat → Nat} (keeps : Keeps R p f p' f') (g : Nat → Nat) (before : ∀ q, F q = f q + g q)
    (after : ∀ q, F' q = f' q + g q) : Keeps R p F p' F' :=
  (keeps.frame g).congr before after

theorem Fits.keeps (fits : Fits R p f) (keeps : Keeps R p f p' f') : Fits R p' f' where
  once := fun q => by rw [keeps.sum q]; exact fits.once q
  valid := fun q some => fits.valid q (by rw [← keeps.sum q]; exact some)
  linked := keeps.linked fits.linked

/-- Part of what fits, fits. -/
theorem Fits.mono (fits : Fits R p f) (less : ∀ q, g q ≤ f q) : Fits R p g where
  once := fun q => by have := fits.once q; have := less q; omega
  valid := fun q some => fits.valid q (by have := less q; omega)
  linked := fits.linked

theorem Fits.owned (fits : Fits R p f) {q : Nat} (mine : 0 < f q) :
    q ∉ p.free ∧ f q = 1 ∧ R.valid q := by
  have := fits.once q
  exact ⟨List.count_eq_zero.mp (by omega), by omega, fits.valid q (by omega)⟩

/-- What `g` owns is not seen to change by a program that owns `f`. -/
theorem Keeps.untouched (keeps : Keeps R p f p' f') (fits : Fits R p fun q => f q + g q) {x : Nat}
    (other : 0 < g (R.page x)) : p'.mem x = p.mem x := by
  have := fits.once (R.page x)
  exact keeps.mem x (by omega)

/-- What a program owns that owned nothing, it took from the free list. -/
theorem Keeps.spent {taken : List Nat} (keeps : Keeps R p (fun _ => 0) p' f') (nodup : taken.Nodup)
    (mine : ∀ q ∈ taken, 0 < f' q) :
    p'.free.length + taken.length ≤ p.free.length := by
  rw [← List.length_append]
  refine List.Subperm.length_le (List.subperm_iff_count.mpr fun q => ?_)
  have moved := keeps.sum q
  rw [List.count_append]
  by_cases here : q ∈ taken
  · have := mine q here
    have := List.count_eq_one_of_mem nodup here
    omega
  · rw [List.count_eq_zero.mpr here]
    omega

/-- Writing inside owned pages. -/
theorem Keeps.write {m : Nat → β} (inside : ∀ x, f (R.page x) = 0 → m x = p.mem x)
    (linked : R.linked p.mem p.free → R.linked m p.free) : Keeps R p f { p with mem := m } f where
  sum := fun _ => rfl
  mem := fun x none => inside x (by omega)
  linked := linked

/-- Taking the first free page, and writing into it. -/
theorem Keeps.take {q : Nat} {rest : List Nat} {m : Nat → β} (first : p.free = q :: rest)
    (inside : ∀ x, R.page x ≠ q → m x = p.mem x) (linked : R.linked p.mem p.free → R.linked m rest) :
    Keeps R p (fun _ => 0) ⟨m, rest⟩ (one q) where
  sum := fun a => by
    rw [first, List.count_cons]
    by_cases same : a = q
    · subst same
      simp
    · simp [one_of_ne same, Ne.symm same]
  mem := fun x none => inside x (by
    rintro rfl
    rw [first] at none
    simp at none)
  linked := linked

/-- Giving an owned page back, and writing into it. -/
theorem Keeps.give {q : Nat} {m : Nat → β} (inside : ∀ x, R.page x ≠ q → m x = p.mem x)
    (linked : R.linked p.mem p.free → R.linked m (q :: p.free)) :
    Keeps R p (one q) ⟨m, q :: p.free⟩ (fun _ => 0) where
  sum := fun a => by
    rw [List.count_cons]
    by_cases same : a = q
    · subst same
      simp
    · simp [one_of_ne same, Ne.symm same]
  mem := fun x none => inside x (by
    rintro rfl
    simp at none)
  linked := linked

end Pool

end Xv6.Theory
