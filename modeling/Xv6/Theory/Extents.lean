/-
# Theory.Extents -- lists of address ranges that coalesce

An extent is a run of cells of `u` bytes.  `cover` counts how many extents of a list hold an
address, so that "disjoint" reads "every address is covered at most once" and "these make up
those" reads "the covers agree".  A `Spread` list is in address order and no two of its
extents touch.  `join` puts an extent in front of a spread list, fused with the first one
when the two meet; `spread_insert` and `cover_insert` are what fusing on both sides does.
-/
import Mathlib.Algebra.Order.BigOperators.Group.List
import Mathlib.Algebra.Order.Ring.Nat

namespace Xv6.Theory

set_option autoImplicit false

structure Extent where
  start : Nat
  len : Nat
deriving DecidableEq

namespace Extent

variable (u : Nat)

def stop (e : Extent) : Nat := e.start + u * e.len

def Has (e : Extent) (x : Nat) : Prop := e.start ≤ x ∧ x < e.stop u

instance (e : Extent) (x : Nat) : Decidable (e.Has u x) := inferInstanceAs (Decidable (_ ∧ _))

/-- How many extents of the list hold the address. -/
def cover (l : List Extent) (x : Nat) : Nat := l.countP fun e => e.Has u x

def total (l : List Extent) : Nat := (l.map len).sum

/-- In address order, with a gap between any two. -/
def Spread (l : List Extent) : Prop := l.Pairwise fun e f => e.stop u < f.start

/-- `e` before the list, fused with the first extent when `e` ends where that one starts. -/
def join (e : Extent) : List Extent → List Extent
  | [] => [e]
  | f :: rest => if e.stop u = f.start then ⟨e.start, e.len + f.len⟩ :: rest else e :: f :: rest

variable {u}

@[simp]
theorem cover_cons (e : Extent) (l : List Extent) (x : Nat) :
    cover u (e :: l) x = cover u l x + if e.Has u x then 1 else 0 := by
  simp [cover, List.countP_cons]

@[simp]
theorem cover_append (l m : List Extent) (x : Nat) : cover u (l ++ m) x = cover u l x + cover u m x :=
  List.countP_append

theorem cover_pos {l : List Extent} {x : Nat} : 0 < cover u l x ↔ ∃ e ∈ l, e.Has u x := by
  simp [cover, List.countP_pos_iff]

@[simp]
theorem total_cons (e : Extent) (l : List Extent) : total (e :: l) = e.len + total l := rfl

@[simp]
theorem total_append (l m : List Extent) : total (l ++ m) = total l + total m := by
  simp [total]

theorem has_fused {e f : Extent} (meet : e.stop u = f.start) (x : Nat) :
    (if Has u ⟨e.start, e.len + f.len⟩ x then 1 else 0) = (if e.Has u x then 1 else 0) + if f.Has u x then 1
    else 0 := by
  have either : Has u ⟨e.start, e.len + f.len⟩ x ↔ e.Has u x ∨ f.Has u x := by
    simp only [Has, stop, Nat.mul_add] at meet ⊢
    omega
  have one : ¬ (e.Has u x ∧ f.Has u x) := by
    simp only [Has, stop] at meet ⊢
    omega
  by_cases left : e.Has u x <;> by_cases right : f.Has u x <;> simp_all

/-- Extents that hold something and share no address lie one after the other. -/
theorem apart_of_cover {l m : List Extent} {e f : Extent} (once : ∀ x, cover u l x + cover u m x ≤ 1) (memL : e ∈ l)
    (memM : f ∈ m) (fullE : 0 < u * e.len) (fullF : 0 < u * f.len) : e.stop u ≤ f.start ∨ f.stop u ≤ e.start := by
  by_contra shared
  simp only [stop, not_or, not_le] at shared
  have left : 0 < cover u l (max e.start f.start) := cover_pos.mpr ⟨e, memL, by simp only [Has, stop]; omega⟩
  have right : 0 < cover u m (max e.start f.start) := cover_pos.mpr ⟨f, memM, by simp only [Has, stop]; omega⟩
  have := once (max e.start f.start)
  omega

section Join

variable {e f : Extent} {l front post : List Extent}

theorem join_meet (meet : e.stop u = f.start) : join u e (f :: l) = ⟨e.start, e.len + f.len⟩ :: l := if_pos meet

theorem join_gap (gap : e.stop u ≠ f.start) : join u e (f :: l) = e :: f :: l := if_neg gap

theorem cover_join (e : Extent) (l : List Extent) (x : Nat) : cover u (join u e l) x = cover u (e :: l) x := by
  cases l with
  | nil => rfl
  | cons f rest =>
    by_cases meet : e.stop u = f.start
    · rw [join_meet meet]
      simp only [cover_cons, has_fused meet]
      omega
    · rw [join_gap meet]

theorem total_join (e : Extent) (l : List Extent) : total (join u e l) = e.len + total l := by
  cases l with
  | nil => rfl
  | cons f rest =>
    by_cases meet : e.stop u = f.start
    · rw [join_meet meet]
      simp only [total_cons]
      omega
    · rw [join_gap meet, total_cons]

/-- The list starts with an extent at the place of `e`, and the rest of it was there before. -/
theorem join_eq (e : Extent) (l : List Extent) :
    ∃ j rest, join u e l = j :: rest ∧ j.start = e.start ∧ e.len ≤ j.len ∧ ∀ c ∈ rest, c ∈ l := by
  cases l with
  | nil => exact ⟨e, [], rfl, rfl, Nat.le_refl _, fun c mem => mem⟩
  | cons f rest =>
    by_cases meet : e.stop u = f.start
    · exact ⟨_, rest, join_meet meet, rfl, Nat.le_add_right _ _, fun c mem => List.mem_cons_of_mem f mem⟩
    · exact ⟨e, f :: rest, join_gap meet, rfl, Nat.le_refl _, fun c mem => mem⟩

theorem mem_join (mem : f ∈ join u e l) : f.start = e.start ∧ e.len ≤ f.len ∨ f ∈ l := by
  obtain ⟨j, rest, is, starts, more, there⟩ := join_eq (u := u) e l
  rw [is] at mem
  rcases List.mem_cons.mp mem with rfl | mem
  · exact .inl ⟨starts, more⟩
  · exact .inr (there f mem)

theorem exists_mem_join (e : Extent) (l : List Extent) : ∃ j ∈ join u e l, j.start = e.start ∧ e.len ≤ j.len := by
  obtain ⟨j, rest, is, starts, more, -⟩ := join_eq (u := u) e l
  exact ⟨j, is ▸ List.mem_cons_self, starts, more⟩

theorem spread_join (spread : Spread u l) (before : ∀ c ∈ l, e.stop u ≤ c.start) : Spread u (join u e l) := by
  cases l with
  | nil => exact List.pairwise_singleton _ _
  | cons f rest =>
    obtain ⟨gaps, apart⟩ := List.pairwise_cons.mp spread
    have first := before f List.mem_cons_self
    by_cases meet : e.stop u = f.start
    · rw [join_meet meet]
      refine List.pairwise_cons.mpr ⟨?_, apart⟩
      intro c mem
      have := gaps c mem
      simp only [stop, Nat.mul_add] at this meet ⊢
      omega
    · rw [join_gap meet]
      refine List.pairwise_cons.mpr ⟨?_, spread⟩
      intro c mem
      rcases List.mem_cons.mp mem with rfl | mem
      · omega
      · have := gaps c mem
        have : f.start ≤ f.stop u := Nat.le_add_right _ _
        omega

/-- Where an extent that lies apart from all of a spread list belongs in it. -/
theorem place (spread : Spread u (f :: l)) (above : f.stop u ≤ e.start)
    (apart : ∀ c ∈ l, c.stop u ≤ e.start ∨ e.stop u ≤ c.start) (full : ∀ c ∈ l, 0 < u * c.len) :
    ∃ front p post, f :: l = front ++ p :: post ∧ (∀ c ∈ front ++ [p], c.stop u ≤ e.start) ∧
    ∀ c ∈ post, e.stop u ≤ c.start := by
  induction l generalizing f with
  | nil => exact ⟨[], f, [], rfl, by simpa using above, by simp⟩
  | cons c rest ih =>
    obtain ⟨gaps, tail⟩ := List.pairwise_cons.mp spread
    rcases apart c List.mem_cons_self with below | beyond
    · obtain ⟨front, p, post, is, low, high⟩ := ih tail below (fun d mem => apart d (List.mem_cons_of_mem c mem))
        (fun d mem => full d (List.mem_cons_of_mem c mem))
      refine ⟨f :: front, p, post, by rw [is]; rfl, ?_, high⟩
      intro d mem
      rcases List.mem_cons.mp mem with rfl | mem
      · exact above
      · exact low d mem
    · refine ⟨[], f, c :: rest, rfl, by simpa using above, ?_⟩
      intro d mem
      rcases List.mem_cons.mp mem with rfl | mem
      · exact beyond
      · have := (List.pairwise_cons.mp tail).1 d mem
        have : c.start ≤ c.stop u := Nat.le_add_right _ _
        omega

variable {p : Extent}

/-- Put between its neighbours and fused with those it meets, `e` keeps the list spread. -/
theorem spread_insert (spread : Spread u (front ++ p :: post)) (low : p.stop u ≤ e.start)
    (high : ∀ c ∈ post, e.stop u ≤ c.start) : Spread u (front ++ join u p (join u e post)) := by
  obtain ⟨spreadFront, spreadPost, gaps⟩ := List.pairwise_append.mp spread
  obtain ⟨gapsP, spreadPost⟩ := List.pairwise_cons.mp spreadPost
  have inner : Spread u (join u e post) := spread_join spreadPost high
  have beyond : ∀ c ∈ join u e post, p.stop u ≤ c.start := by
    intro c mem
    rcases mem_join mem with ⟨starts, -⟩ | mem
    · rw [starts]
      exact low
    · exact Nat.le_of_lt (gapsP c mem)
  refine List.pairwise_append.mpr ⟨spreadFront, spread_join inner beyond, ?_⟩
  intro d memD c memC
  have gap : d.stop u < p.start := gaps d memD p List.mem_cons_self
  rcases mem_join memC with ⟨starts, -⟩ | memC
  · rw [starts]
    exact gap
  · have := beyond c memC
    have : p.start ≤ p.stop u := Nat.le_add_right _ _
    omega

theorem cover_insert (front : List Extent) (p e : Extent) (post : List Extent) (x : Nat) :
    cover u (front ++ join u p (join u e post)) x = cover u (e :: (front ++ p :: post)) x := by
  simp only [cover_append, cover_cons, cover_join]
  omega

theorem total_insert (front : List Extent) (p e : Extent) (post : List Extent) :
    total (front ++ join u p (join u e post)) = e.len + total (front ++ p :: post) := by
  simp only [total_append, total_cons, total_join]
  omega

end Join

end Extent

end Xv6.Theory
