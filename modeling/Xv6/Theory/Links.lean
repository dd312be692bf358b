/-
# Theory.Links -- a circular doubly linked list with a head

The head is `none` and a node `b` is `some b`; `next` and `prev` are the two pointer fields.
`Seg r x l y` says that following `next` from `x` goes through `l` and then to `y`, with
`prev` leading back; `Closed r l` that the list from the head through `l` back to the head.

`unlink` and `pushFront` are the pointer writes of taking a node out and of putting one
behind the head, each write reading what the ones before it left.  They are exact:
`Closed.unlink`, `Closed.pushFront`.  A loop over the list, in either direction, is
`find?` on `l` (`Closed.findNext`, `Closed.findPrev`).
-/
import Mathlib.Data.List.Nodup
import Mathlib.Logic.Function.Iterate

namespace Xv6.Theory

set_option autoImplicit false
set_option linter.unusedSectionVars false

/-- The pointer fields of the head and of the nodes. -/
structure Links (ν : Type) where
  next : Option ν → Option ν
  prev : Option ν → Option ν

namespace Links

variable {ν : Type} [DecidableEq ν]

/-- A head that points to itself. -/
def empty : Links ν := ⟨fun _ => none, fun _ => none⟩

def setNext (r : Links ν) (x y : Option ν) : Links ν := { r with next := Function.update r.next x y }

def setPrev (r : Links ν) (x y : Option ν) : Links ν := { r with prev := Function.update r.prev x y }

/-- Take `b` out. -/
def unlink (r : Links ν) (b : ν) : Links ν :=
  let r := r.setPrev (r.next (some b)) (r.prev (some b))
  r.setNext (r.prev (some b)) (r.next (some b))

/-- Put `b` behind the head. -/
def pushFront (r : Links ν) (b : ν) : Links ν :=
  let r := r.setNext (some b) (r.next none)
  let r := r.setPrev (some b) none
  let r := r.setPrev (r.next none) (some b)
  r.setNext none (some b)

/-- The loop over `next`, from `x` on, that stops at the first node with `p`. -/
def findNext (r : Links ν) (p : ν → Bool) : Nat → Option ν → Option ν
  | 0, _ => none
  | _ + 1, none => none
  | n + 1, some b => if p b then some b else findNext r p n (r.next (some b))

/-- The loop over `prev`. -/
def findPrev (r : Links ν) (p : ν → Bool) : Nat → Option ν → Option ν
  | 0, _ => none
  | _ + 1, none => none
  | n + 1, some b => if p b then some b else findPrev r p n (r.prev (some b))

/-! ## Segments -/

/-- From `x` through `l` to `y`. -/
def Seg (r : Links ν) : Option ν → List ν → Option ν → Prop
  | x, [], y => r.next x = y ∧ r.prev y = x
  | x, a :: l, y => r.next x = some a ∧ r.prev (some a) = x ∧ Seg r (some a) l y

variable {r r' : Links ν} {x y : Option ν} {l l' : List ν} {b : ν}

theorem seg_append : Seg r x (l ++ b :: l') y ↔ Seg r x l (some b) ∧ Seg r (some b) l' y := by
  induction l generalizing x with
  | nil => simp only [List.nil_append, Seg, and_assoc]
  | cons a l ih => simp only [List.cons_append, Seg, ih, and_assoc]

/-- A segment depends on the `next` of its nodes and of its start, and on the `prev` of its nodes
and of its end. -/
theorem Seg.congr (seg : Seg r x l y) (start : r'.next x = r.next x) (stop : r'.prev y = r.prev y)
    (nodes : ∀ a ∈ l, r'.next (some a) = r.next (some a) ∧ r'.prev (some a) = r.prev (some a)) : Seg r' x l y := by
  induction l generalizing x with
  | nil => exact ⟨start.trans seg.1, stop.trans seg.2⟩
  | cons a l ih =>
    have here := nodes a List.mem_cons_self
    exact ⟨start.trans seg.1, here.2.trans seg.2.1, ih seg.2.2 here.1 fun c mem => nodes c (List.mem_cons_of_mem a mem)⟩

/-- The same segment, backwards. -/
theorem Seg.reverse (seg : Seg r x l y) : Seg ⟨r.prev, r.next⟩ y l.reverse x := by
  induction l generalizing x with
  | nil => exact ⟨seg.2, seg.1⟩
  | cons a l ih =>
    rw [List.reverse_cons]
    exact seg_append.2 ⟨ih seg.2.2, seg.2.1, seg.1⟩

/-- The `next` of the start is a node of the segment or its end. -/
theorem Seg.first (seg : Seg r x l y) : r.next x = y ∨ ∃ a ∈ l, r.next x = some a := by
  cases l with
  | nil => exact .inl seg.1
  | cons a l => exact .inr ⟨a, List.mem_cons_self, seg.1⟩

/-- The `prev` of the end is the start, or a node of the segment. -/
theorem Seg.last (seg : Seg r x l y) : r.prev y = x ∨ ∃ a ∈ l, r.prev y = some a :=
  seg.reverse.first.imp_right fun ⟨a, mem, is⟩ => ⟨a, List.mem_reverse.1 mem, is⟩

/-! ## The writes -/

theorem unlink_prev (r : Links ν) (b : ν) (x : Option ν) :
    (r.unlink b).prev x = if x = r.next (some b) then r.prev (some b) else r.prev x := by
  simp only [unlink, setNext, setPrev, Function.update_apply]

theorem unlink_next (r : Links ν) (b : ν) (x : Option ν) :
    (r.unlink b).next x = if x = r.prev (some b) then r.next (some b) else r.next x := by
  simp only [unlink, setNext, setPrev, Function.update_apply, ite_self]

theorem pushFront_next (r : Links ν) (b : ν) (x : Option ν) :
    (r.pushFront b).next x = if x = none then some b else if x = some b then r.next none else r.next x := by
  simp only [pushFront, setNext, setPrev, Function.update_apply]

theorem pushFront_prev (r : Links ν) (b : ν) (x : Option ν) :
    (r.pushFront b).prev x = if x = r.next none then some b else if x = some b then none else r.prev x := by
  simp only [pushFront, setNext, setPrev, Function.update_apply, reduceCtorEq, if_false]

/-- The node between two segments is taken out. -/
theorem Seg.unlink : ∀ {l : List ν} {x : Option ν}, Seg r x l (some b) → Seg r (some b) l' none →
    (l ++ b :: l').Nodup → (∀ c ∈ l ++ b :: l', x ≠ some c) → Seg (r.unlink b) x (l ++ l') none := by
  intro l
  induction l with
  | nil =>
    intro x before after once apart
    have back : r.prev (some b) = x := before.2
    rw [List.nil_append] at once apart ⊢
    cases l' with
    | nil =>
      refine ⟨?_, ?_⟩
      · rw [unlink_next, if_pos back.symm, after.1]
      · rw [unlink_prev, if_pos after.1.symm, back]
    | cons a l' =>
      have to' : r.next (some b) = some a := after.1
      refine ⟨?_, ?_, after.2.2.congr ?_ ?_ fun c mem => ⟨?_, ?_⟩⟩
      · rw [unlink_next, if_pos back.symm, to']
      · rw [unlink_prev, if_pos to'.symm, back]
      · rw [unlink_next, back, if_neg (Ne.symm (apart a (by simp)))]
      · rw [unlink_prev, to', if_neg (by simp)]
      · rw [unlink_next, back, if_neg (Ne.symm (apart c (by simp [mem])))]
      · have other : c ≠ a := by
          rintro rfl
          exact (List.nodup_cons.1 (List.nodup_cons.1 once).2).1 mem
        rw [unlink_prev, to', if_neg (by simpa using other)]
  | cons a l ih =>
    intro x before after once apart
    rw [List.cons_append] at once apart
    have once' := List.nodup_cons.1 once
    refine ⟨?_, ?_, ih before.2.2 after once'.2 fun c mem same => once'.1 (Option.some.inj same ▸ mem)⟩
    · have other : x ≠ r.prev (some b) := by
        rcases before.2.2.last with is | ⟨c, mem, is⟩
        · rw [is]
          exact apart a List.mem_cons_self
        · rw [is]
          exact apart c (by simp [mem])
      rw [unlink_next, if_neg other, before.1]
    · have other : some a ≠ r.next (some b) := by
        rcases after.first with is | ⟨c, mem, is⟩
        · rw [is]
          exact Option.some_ne_none a
        · rw [is]
          rintro ⟨rfl⟩
          exact once'.1 (by simp [mem])
      rw [unlink_prev, if_neg other, before.2.1]

/-! ## The whole list -/

/-- The list from the head through `l` back to the head. -/
structure Closed (r : Links ν) (l : List ν) : Prop where
  once : l.Nodup
  seg : Seg r none l none

namespace Closed

theorem empty : Closed (Links.empty : Links ν) [] := ⟨List.nodup_nil, rfl, rfl⟩

theorem reverse (closed : Closed r l) : Closed ⟨r.prev, r.next⟩ l.reverse :=
  ⟨List.nodup_reverse.2 closed.once, closed.seg.reverse⟩

/-- `next` and `prev` are inverse to each other on the list. -/
theorem prev_next (closed : Closed r l) (inside : ∀ b, x = some b → b ∈ l) : r.prev (r.next x) = x := by
  have step : ∀ {l : List ν} {x y : Option ν}, Seg r x l y → ∀ z, (z = x ∨ ∃ b ∈ l, z = some b) →
    r.prev (r.next z) = z := by
    intro l
    induction l with
    | nil =>
      rintro x y seg z (rfl | ⟨b, no, _⟩)
      · rw [seg.1, seg.2]
      · cases no
    | cons a l ih =>
      rintro x y seg z (rfl | ⟨b, mem, rfl⟩)
      · rw [seg.1, seg.2.1]
      · refine ih seg.2.2 (some b) ?_
        rcases List.mem_cons.1 mem with rfl | later
        · exact .inl rfl
        · exact .inr ⟨b, later, rfl⟩
  refine step closed.seg x ?_
  cases x with
  | none => exact .inl rfl
  | some b => exact .inr ⟨b, inside b rfl, rfl⟩

theorem next_prev (closed : Closed r l) (inside : ∀ b, x = some b → b ∈ l) : r.next (r.prev x) = x :=
  closed.reverse.prev_next fun b is => List.mem_reverse.2 (inside b is)

theorem unlink (closed : Closed r (l ++ b :: l')) : Closed (r.unlink b) (l ++ l') := by
  obtain ⟨before, after⟩ := seg_append.1 closed.seg
  have fewer : (l ++ l').Sublist (l ++ b :: l') := List.Sublist.append_left (List.sublist_cons_self b l') l
  exact ⟨closed.once.sublist fewer, before.unlink after closed.once fun c _ => (Option.some_ne_none c).symm⟩

theorem pushFront (closed : Closed r l) (new : b ∉ l) : Closed (r.pushFront b) (b :: l) := by
  refine ⟨List.nodup_cons.2 ⟨new, closed.once⟩, ?_⟩
  have seg := closed.seg
  have once := closed.once
  cases l with
  | nil =>
    have back : r.next none = none := seg.1
    refine ⟨?_, ?_, ?_, ?_⟩
    · simp [pushFront_next]
    · simp [pushFront_prev, back]
    · simp [pushFront_next, back]
    · simp [pushFront_prev, back]
  | cons a l =>
    have to' : r.next none = some a := seg.1
    rw [List.mem_cons, not_or] at new
    refine ⟨?_, ?_, ?_, ?_, seg.2.2.congr ?_ ?_ fun c mem => ⟨?_, ?_⟩⟩
    · simp [pushFront_next]
    · simp [pushFront_prev, to', new.1]
    · simp [pushFront_next, to']
    · simp [pushFront_prev, to']
    · simp [pushFront_next, Ne.symm new.1]
    · simp [pushFront_prev, to']
    · have other : c ≠ b := fun same => new.2 (same ▸ mem)
      simp [pushFront_next, other]
    · have other : c ≠ b := fun same => new.2 (same ▸ mem)
      have other' : c ≠ a := by
        rintro rfl
        exact (List.nodup_cons.1 once).1 mem
      simp [pushFront_prev, to', other, other']

/-- Taking a node out and putting it behind the head. -/
theorem moveFront (closed : Closed r l) (mem : b ∈ l) : Closed ((r.unlink b).pushFront b) (b :: l.erase b) := by
  obtain ⟨before, after, rfl⟩ := List.append_of_mem mem
  have once := List.nodup_middle.1 closed.once
  have split : (before ++ b :: after).erase b = before ++ after := by
    rw [List.erase_append_right _ fun first => (List.nodup_cons.1 once).1 (List.mem_append_left _ first),
      List.erase_cons_head]
  rw [split]
  exact closed.unlink.pushFront (List.nodup_cons.1 once).1

end Closed

/-! ## Loops over the list -/

theorem Seg.findNext {p : ν → Bool} :
    ∀ {l : List ν} {x : Option ν} {n : Nat}, Seg r x l none → l.length ≤ n → findNext r p n (r.next x) = l.find? p := by
  intro l
  induction l with
  | nil =>
    intro x n seg _
    rw [seg.1]
    cases n <;> rfl
  | cons a l ih =>
    intro x n seg enough
    obtain ⟨n, rfl⟩ := Nat.exists_eq_succ_of_ne_zero (Nat.ne_of_gt (Nat.lt_of_lt_of_le (Nat.succ_pos _) enough))
    rw [seg.1, Links.findNext, List.find?_cons]
    cases p a with
    | true => rfl
    | false => exact ih seg.2.2 (Nat.le_of_succ_le_succ enough)

theorem findPrev_eq_findNext (r : Links ν) (p : ν → Bool) (n : Nat) (x : Option ν) :
    findPrev r p n x = findNext ⟨r.prev, r.next⟩ p n x := by
  induction n generalizing x with
  | zero => rfl
  | succ n ih =>
    cases x with
    | none => rfl
    | some b => rw [findPrev, findNext, ih]

theorem Closed.findNext {p : ν → Bool} {n : Nat} (closed : Closed r l) (enough : l.length ≤ n) :
    findNext r p n (r.next none) = l.find? p :=
  closed.seg.findNext enough

theorem Closed.findPrev {p : ν → Bool} {n : Nat} (closed : Closed r l) (enough : l.length ≤ n) :
    findPrev r p n (r.prev none) = l.reverse.find? p := by
  rw [findPrev_eq_findNext]
  exact closed.seg.reverse.findNext (by rw [List.length_reverse]; exact enough)

/-- Following `next` from the head visits the nodes in order and then comes back. -/
theorem Seg.iterate : ∀ {l : List ν} {x y : Option ν}, Seg r x l y →
    (∀ k (h : k < l.length), r.next^[k + 1] x = some l[k]) ∧ r.next^[l.length + 1] x = y := by
  intro l
  induction l with
  | nil => exact fun seg => ⟨fun k no => absurd no (Nat.not_lt_zero k), seg.1⟩
  | cons a l ih =>
    intro x y seg
    obtain ⟨inside, stop⟩ := ih seg.2.2
    constructor
    · intro k below
      rw [Function.iterate_succ_apply, seg.1]
      cases k with
      | zero => rfl
      | succ k => exact inside k (Nat.lt_of_succ_lt_succ below)
    · rw [List.length_cons, Function.iterate_succ_apply, seg.1]
      exact stop

end Links

end Xv6.Theory
