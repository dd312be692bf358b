/-
# Theory.Forest -- rows that point to their parents

A list of rows, each with a key and the key of its parent, is a forest when keys are
distinct and a parent has the smaller key.  `Below a n r` says that `r` is `n` steps below
the row with key `a`.  Subtrees of siblings are disjoint (`IsForest.siblings`), and going
down one step leaves fewer rows above a key (`above_lt`): this is what a walk over the rows
needs in order to end and to meet every row once.
-/
import Mathlib.Data.List.Nodup
import Mathlib.Order.Lattice

namespace Xv6.Theory.Forest

set_option autoImplicit false

variable {α ρ : Type}

inductive Below (key up : ρ → α) (rows : List ρ) (a : α) : Nat → ρ → Prop where
  | root {r : ρ} (mem : r ∈ rows) (is : key r = a) : Below key up rows a 0 r
  | child {n : Nat} {q r : ρ} (below : Below key up rows a n q) (mem : r ∈ rows) (is : up r = key q) :
    Below key up rows a (n + 1) r

variable {key up : ρ → α} {rows : List ρ} {a : α} {n m : Nat} {r x y t : ρ}

theorem Below.mem (below : Below key up rows a n r) : r ∈ rows := by
  cases below with
  | root mem | child _ mem => exact mem

/-- The first step down. -/
theorem Below.down (below : Below key up rows a (n + 1) r) : ∃ q ∈ rows, up q = a ∧ Below key up rows (key q) n r := by
  induction n generalizing r with
  | zero =>
    cases below with
    | child below mem is =>
      cases below with
      | root _ top => exact ⟨r, mem, is.trans top, .root mem rfl⟩
  | succ n ih =>
    cases below with
    | child below mem is =>
      obtain ⟨q, inRows, isUp, rest⟩ := ih below
      exact ⟨q, inRows, isUp, .child rest mem is⟩

structure IsForest [LT α] (key up : ρ → α) (rows : List ρ) : Prop where
  keys : (rows.map key).Nodup
  older : ∀ r ∈ rows, ∀ q ∈ rows, up r = key q → key q < key r

namespace IsForest

variable [LinearOrder α]

variable (forest : IsForest key up rows)
include forest

theorem eq_of_key (memX : x ∈ rows) (memY : y ∈ rows) (same : key x = key y) : x = y :=
  List.inj_on_of_nodup_map forest.keys memX memY same

theorem le (below : Below key up rows a n r) : a ≤ key r := by
  induction below with
  | root _ is => exact is.ge
  | child below mem is ih => exact ih.trans (forest.older _ mem _ below.mem is).le

/-- What is below a child is below its parent, one step further down. -/
theorem of_child (top : t ∈ rows) (is : key t = a) (mem : x ∈ rows) (child : up x = a)
    (below : Below key up rows (key x) n r) : Below key up rows a (n + 1) r := by
  induction below with
  | root mem' same =>
    rw [forest.eq_of_key mem' mem same]
    exact .child (.root top is) mem (child.trans is.symm)
  | child _ mem' is' ih => exact .child ih mem' is'

/-- A child is not below its sibling. -/
theorem not_below (memY : y ∈ rows) (same : up x = up y) :
    ¬ Below key up rows (key y) (n + 1) x := fun below => by
  cases below with
  | child below _ is =>
    have lower := forest.older y memY _ below.mem (same.symm.trans is)
    exact (forest.le below).not_gt lower

/-- The subtrees of siblings have no row in common. -/
theorem siblings (memX : x ∈ rows) (memY : y ∈ rows) (same : up x = up y)
    (belowX : Below key up rows (key x) n r) (belowY : Below key up rows (key y) m r) : x = y := by
  induction belowX generalizing m with
  | root mem is =>
    obtain rfl := forest.eq_of_key mem memX is
    cases belowY with
    | root _ isY => exact forest.eq_of_key memX memY isY
    | child below mem isUp => exact absurd (.child below mem isUp) (forest.not_below memY same)
  | child below mem isUp ih =>
    cases belowY with
    | root mem isY =>
      obtain rfl := forest.eq_of_key mem memY isY
      exact absurd (.child below mem isUp) (forest.not_below memX same.symm)
    | child belowY _ isUpY =>
      rw [← forest.eq_of_key below.mem belowY.mem (isUp.symm.trans isUpY)] at belowY
      exact ih belowY

/-- One step down there are fewer rows above. -/
theorem above_lt (top : t ∈ rows) (mem : x ∈ rows) (child : up x = key t) :
    (rows.filter (key x < key ·)).length < (rows.filter (key t < key ·)).length := by
  have lower := forest.older x mem t top child
  have included : (rows.filter (key x < key ·)).Sublist (rows.filter (key t < key ·)) :=
    List.monotone_filter_right rows fun r above => by
      simp only [decide_eq_true_eq] at above ⊢
      exact lower.trans above
  refine Nat.lt_of_le_of_ne included.length_le fun same => ?_
  have member : x ∈ rows.filter (key t < key ·) := List.mem_filter.mpr ⟨mem, by simpa using lower⟩
  rw [← included.eq_of_length same] at member
  exact lt_irrefl (key x) (by simpa using (List.mem_filter.mp member).2)

end IsForest

end Xv6.Theory.Forest
