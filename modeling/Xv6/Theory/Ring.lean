/-
# Theory.Ring -- a ring buffer whose counters run freely and wrap

`N` cells, and two counters that count modulo `M`, a multiple of `N`, and are reduced
modulo `N` for an index.  `Holds r put got` says that `r` is what remains after the elements
of `put` went in and those of `got` came out: a queue of at most `N` elements.  The tests
for empty and full compare wrapped counters, and still decide it (`empty_iff`, `full_iff`).
-/
import Mathlib.Data.Nat.ModEq

namespace Xv6.Theory

set_option autoImplicit false

structure RingBuf (β : Type) where
  data : Nat → β
  nread : Nat
  nwrite : Nat

namespace RingBuf

variable {β : Type} (N M : Nat)

def Empty (r : RingBuf β) : Prop := r.nread = r.nwrite

def Full (r : RingBuf β) : Prop := r.nwrite = (r.nread + N) % M

instance (r : RingBuf β) : Decidable r.Empty := inferInstanceAs (Decidable (_ = _))

instance (r : RingBuf β) : Decidable (r.Full N M) := inferInstanceAs (Decidable (_ = _))

def push (r : RingBuf β) (b : β) : RingBuf β :=
  { r with data := Function.update r.data (r.nwrite % N) b, nwrite := (r.nwrite + 1) % M }

/-- Take back the youngest element. -/
def unpush (r : RingBuf β) : RingBuf β := { r with nwrite := (r.nwrite + (M - 1)) % M }

def front (r : RingBuf β) : β := r.data (r.nread % N)

def pop (r : RingBuf β) : RingBuf β := { r with nread := (r.nread + 1) % M }

/-- The elements of `put` went in, those of `got` came out. -/
structure Holds (r : RingBuf β) (put got : List β) : Prop where
  taken : got <+: put
  bounded : put.length ≤ got.length + N
  nread : r.nread = got.length % M
  nwrite : r.nwrite = put.length % M
  kept : ∀ k (below : k < put.length), got.length ≤ k → r.data (k % N) = put[k]

variable {N M} {r : RingBuf β} {put got : List β}

theorem mod_inj {x y : Nat} (le : x ≤ y) (near : y - x < M) (same : x % M = y % M) : x = y := by
  have divides : M ∣ y - x := (Nat.modEq_iff_dvd' le).mp same
  have := Nat.eq_zero_of_dvd_of_lt divides near
  omega

namespace Holds

variable (holds : r.Holds N M put got)
include holds

theorem empty_iff (less : N < M) : r.Empty ↔ put.length = got.length := by
  have le := holds.taken.length_le
  have bounded := holds.bounded
  rw [Empty, holds.nread, holds.nwrite]
  exact ⟨fun same => (mod_inj le (by omega) same).symm, fun same => by rw [same]⟩

theorem full_iff (less : N < M) : r.Full N M ↔ put.length = got.length + N := by
  have le := holds.taken.length_le
  rw [Full, holds.nread, holds.nwrite, Nat.mod_add_mod]
  exact ⟨fun same => mod_inj holds.bounded (by omega) same, fun same => by rw [same]⟩

/-- The difference of the counters is the number of elements inside. -/
theorem count (less : N < M) : (r.nwrite + (M - r.nread)) % M = put.length - got.length := by
  have le := holds.taken.length_le
  have bounded := holds.bounded
  have below : got.length % M < M := Nat.mod_lt _ (by omega)
  have split := Nat.div_add_mod got.length M
  have sum : put.length + (M - got.length % M) = put.length - got.length + M * (got.length / M + 1) := by
    rw [Nat.mul_succ]
    omega
  rw [holds.nread, holds.nwrite, Nat.mod_add_mod, sum, Nat.add_mul_mod_self_left, Nat.mod_eq_of_lt (by omega)]

theorem push (divides : N ∣ M) (b : β) (room : put.length < got.length + N) :
    (r.push N M b).Holds N M (put ++ [b]) got := by
  have slot : r.nwrite % N = put.length % N := by rw [holds.nwrite, Nat.mod_mod_of_dvd _ divides]
  refine ⟨holds.taken.trans (List.prefix_append ..), ?_, holds.nread, ?_, fun k below from' => ?_⟩
  · rw [List.length_append, List.length_singleton]
    omega
  · rw [RingBuf.push, holds.nwrite, Nat.mod_add_mod, List.length_append, List.length_singleton]
  · rw [List.length_append, List.length_singleton] at below
    rw [RingBuf.push, slot]
    by_cases last : k = put.length
    · subst last
      simp
    · -- an older element has another cell
      have apart : k % N ≠ put.length % N := fun same => last (mod_inj (by omega) (by omega) same)
      have inside : k < put.length := by omega
      rw [List.getElem_append_left inside]
      exact (Function.update_of_ne apart ..).trans (holds.kept k inside from')

theorem front (divides : N ∣ M) (below : got.length < put.length) : r.front N = put[got.length] := by
  rw [RingBuf.front, holds.nread, Nat.mod_mod_of_dvd _ divides]
  exact holds.kept _ below (Nat.le_refl _)

theorem pop (divides : N ∣ M) (below : got.length < put.length) :
    (r.pop M).Holds N M put (got ++ [r.front N]) := by
  refine ⟨?_, ?_, ?_, holds.nwrite, fun k inside from' => holds.kept k inside ?_⟩
  · rw [holds.front divides below]
    have taken := List.prefix_iff_eq_take.mp holds.taken
    have next : got ++ [put[got.length]] = put.take (got.length + 1) := by
      rw [List.take_succ_eq_append_getElem below, ← taken]
    rw [next]
    exact List.take_prefix ..
  · have bounded := holds.bounded
    rw [List.length_append, List.length_singleton]
    omega
  · rw [RingBuf.pop, holds.nread, Nat.mod_add_mod, List.length_append, List.length_singleton]
  · rw [List.length_append] at from'
    omega

end Holds

/-! ## The elements inside, from the ring alone -/

/-- The number of elements inside. -/
def size (M : Nat) (r : RingBuf β) : Nat := (r.nwrite + (M - r.nread)) % M

/-- The elements inside, the oldest first. -/
def contents (N M : Nat) (r : RingBuf β) : List β := (List.range (r.size M)).map fun k => r.data ((r.nread + k) % N)

/-- The counters are reduced. -/
structure Counted (M : Nat) (r : RingBuf β) : Prop where
  nread : r.nread < M
  nwrite : r.nwrite < M

@[simp] theorem length_contents : (r.contents N M).length = r.size M := by simp [contents]

theorem getElem?_contents {k : Nat} (inside : k < r.size M) :
    (r.contents N M)[k]? = some (r.data ((r.nread + k) % N)) := by
  simp [contents, inside]

namespace Counted

/-- Either counter may be the larger one. -/
theorem size_cases (counted : r.Counted M) :
    r.nread ≤ r.nwrite ∧ r.size M = r.nwrite - r.nread ∨ r.nwrite < r.nread ∧ r.size M = r.nwrite + (M - r.nread) := by
  have low := counted.nread
  have high := counted.nwrite
  unfold size
  by_cases ahead : r.nread ≤ r.nwrite
  · rw [show r.nwrite + (M - r.nread) = r.nwrite - r.nread + M by omega, Nat.add_mod_right, Nat.mod_eq_of_lt (by omega)]
    exact .inl ⟨ahead, rfl⟩
  · rw [Nat.mod_eq_of_lt (by omega)]
    exact .inr ⟨by omega, rfl⟩

theorem succ_cases {x : Nat} (less : x < M) : (x + 1) % M = x + 1 ∧ x + 1 < M ∨ (x + 1) % M = 0 ∧ x + 1 = M := by
  by_cases last : x + 1 = M
  · rw [last, Nat.mod_self]
    exact .inr ⟨rfl, rfl⟩
  · rw [Nat.mod_eq_of_lt (by omega)]
    exact .inl ⟨rfl, by omega⟩

section

variable (counted : r.Counted M)
include counted

theorem empty_iff : r.Empty ↔ r.size M = 0 := by
  have low := counted.nread
  have high := counted.nwrite
  unfold Empty
  rcases counted.size_cases with ⟨_, size⟩ | ⟨_, size⟩ <;> omega

theorem pop : (r.pop M).Counted M :=
  ⟨Nat.mod_lt _ (Nat.zero_lt_of_lt counted.nread), counted.nwrite⟩

theorem push (b : β) : (r.push N M b).Counted M :=
  ⟨counted.nread, Nat.mod_lt _ (Nat.zero_lt_of_lt counted.nread)⟩

theorem size_pop (some : ¬ r.Empty) : r.size M = (r.pop M).size M + 1 := by
  rw [counted.empty_iff] at some
  have next : (r.pop M).nread = (r.nread + 1) % M := rfl
  have same : (r.pop M).nwrite = r.nwrite := rfl
  have low := counted.nread
  have high := counted.nwrite
  rcases succ_cases counted.nread with ⟨succ, _⟩ | ⟨succ, _⟩ <;> rw [succ] at next <;>
    rcases counted.size_cases with ⟨_, size⟩ | ⟨_, size⟩ <;> rcases counted.pop.size_cases with ⟨_,
      size'⟩ | ⟨_, size'⟩ <;> omega

theorem size_push (b : β) (room : r.size M + 1 < M) : (r.push N M b).size M = r.size M + 1 := by
  have next : (r.push N M b).nwrite = (r.nwrite + 1) % M := rfl
  have same : (r.push N M b).nread = r.nread := rfl
  have low := counted.nread
  have high := counted.nwrite
  rcases succ_cases counted.nwrite with ⟨succ, _⟩ | ⟨succ, _⟩ <;> rw [succ] at next <;>
    rcases counted.size_cases with ⟨_, size⟩ | ⟨_, size⟩ <;>
    rcases (counted.push (N := N) b).size_cases with ⟨_, size'⟩ | ⟨_, size'⟩ <;> omega

/-- The oldest element comes out. -/
theorem contents_pop (divides : N ∣ M) (some : ¬ r.Empty) :
    r.contents N M = r.front N :: (r.pop M).contents N M := by
  rw [contents, counted.size_pop some, List.range_succ_eq_map, List.map_cons, List.map_map]
  refine congrArg₂ List.cons rfl (List.map_congr_left fun k _ => ?_)
  have next : ((r.nread + 1) % M + k) % N = (r.nread + (k + 1)) % N := by
    rw [Nat.add_mod, Nat.mod_mod_of_dvd _ divides, ← Nat.add_mod]
    congr 1
    omega
  change r.data _ = r.data (((r.nread + 1) % M + k) % N)
  rw [next]

/-- The cell after the youngest element is the one to be written. -/
theorem slot_size (divides : N ∣ M) : (r.nread + r.size M) % N = r.nwrite % N := by
  have low := counted.nread
  rcases counted.size_cases with ⟨_, size⟩ | ⟨_, size⟩
  · rw [size]
    congr 1
    omega
  · obtain ⟨c, rfl⟩ := divides
    rw [size, show r.nread + (r.nwrite + (N * c - r.nread)) = r.nwrite + N * c by omega, Nat.add_mul_mod_self_left]

/-- A new element is the youngest, and overwrites none. -/
theorem contents_push (divides : N ∣ M) (less : N < M) (b : β) (room : r.size M < N) :
    (r.push N M b).contents N M = r.contents N M ++ [b] := by
  rw [contents, counted.size_push b (by omega), List.range_succ, List.map_append, List.map_singleton, contents]
  refine congrArg₂ _ (List.map_congr_left fun k inside => ?_) (congrArg (fun c => [c]) ?_)
  · have below := List.mem_range.mp inside
    apply Function.update_of_ne
    intro (same : (r.nread + k) % N = r.nwrite % N)
    have equal := mod_inj (M := N) (by omega) (by omega) (same.trans (counted.slot_size divides).symm)
    omega
  · change Function.update r.data (r.nwrite % N) b ((r.nread + r.size M) % N) = b
    rw [counted.slot_size divides, Function.update_self]

/-- Writing the next cell does not change the elements inside. -/
theorem contents_write (divides : N ∣ M) (b : β) (room : r.size M < N) :
    ({ r with data := Function.update r.data (r.nwrite % N) b } : RingBuf β).contents N M = r.contents N M := by
  refine List.map_congr_left fun k inside => ?_
  have below : k < r.size M := List.mem_range.mp inside
  apply Function.update_of_ne
  intro (same : (r.nread + k) % N = r.nwrite % N)
  have equal := mod_inj (M := N) (by omega) (by omega) (same.trans (counted.slot_size divides).symm)
  omega

theorem nwrite_eq : r.nwrite = (r.nread + r.size M) % M := by
  have low := counted.nread
  have high := counted.nwrite
  rcases counted.size_cases with ⟨_, size⟩ | ⟨_, size⟩
  · rw [size, Nat.add_sub_cancel' (by omega), Nat.mod_eq_of_lt high]
  · rw [size, show r.nread + (r.nwrite + (M - r.nread)) = r.nwrite + M by omega,
      Nat.add_mod_right, Nat.mod_eq_of_lt high]

theorem unpush : (r.unpush M).Counted M :=
  ⟨counted.nread, Nat.mod_lt _ (Nat.zero_lt_of_lt counted.nread)⟩

end

theorem pred_cases {x : Nat} (less : x < M) :
    (x + (M - 1)) % M = x - 1 ∧ 0 < x ∨ (x + (M - 1)) % M = M - 1 ∧ x = 0 := by
  by_cases zero : x = 0
  · rw [zero, Nat.zero_add, Nat.mod_eq_of_lt (by omega)]
    exact .inr ⟨rfl, rfl⟩
  · rw [show x + (M - 1) = x - 1 + M by omega, Nat.add_mod_right, Nat.mod_eq_of_lt (by omega)]
    exact .inl ⟨rfl, by omega⟩

theorem size_unpush (counted : r.Counted M) (some : ¬ r.Empty) : r.size M = (r.unpush M).size M + 1 := by
  rw [counted.empty_iff] at some
  have next : (r.unpush M).nwrite = (r.nwrite + (M - 1)) % M := rfl
  have same : (r.unpush M).nread = r.nread := rfl
  have low := counted.nread
  have high := counted.nwrite
  rcases pred_cases counted.nwrite with ⟨pred, _⟩ | ⟨pred, _⟩ <;> rw [pred] at next <;>
    rcases counted.size_cases with ⟨_, size⟩ | ⟨_, size⟩ <;> rcases counted.unpush.size_cases with ⟨_,
      size'⟩ | ⟨_, size'⟩ <;> omega

/-- The youngest element is taken back. -/
theorem contents_unpush (counted : r.Counted M) (divides : N ∣ M) (some : ¬ r.Empty) :
    r.contents N M = (r.unpush M).contents N M ++ [r.data ((r.unpush M).nwrite % N)] := by
  rw [← counted.unpush.slot_size divides, contents, counted.size_unpush some, List.range_succ, List.map_append]
  rfl

end Counted

end RingBuf

end Xv6.Theory
