/-
# Theory.Radix -- radix trees in a graph of numbered nodes

A node is a number and has `w` entries; an entry leads to another node through
`ptr`.  A node `b` taken at level `l` is the root of a tree: above level 0 entries
lead to nodes one level below, at level 0 they are the values.  A key selects one
entry per level, by its base-`w` digits.

`count l b q` counts how often node `q` occurs in the tree.  A graph is a tree
below `b` when no node is counted twice, and that is all the lemmas ask for: the
nodes above level 0 are those of the tree cut one level higher, so an entry written
at level 0 changes no count (`count_set`) and one value (`lookup_set`).
-/
import Xv6.Theory.Pool
import Mathlib.Algebra.Order.BigOperators.Group.Finset
import Mathlib.Algebra.Order.Ring.Nat
import Mathlib.Data.Nat.ModEq

namespace Xv6.Theory.Radix

set_option autoImplicit false

open Finset

/-- Digit `l` of a key. -/
def digit (w l k : Nat) : Nat := k / w ^ l % w

theorem digit_lt {w : Nat} (wide : 0 < w) (l k : Nat) : digit w l k < w := Nat.mod_lt _ wide

section Tree

variable {ε : Type} (ptr : ε → Nat) (w : Nat) (e e' : Nat → Nat → Option ε)

/-- How often `q` is a node of the tree of level `l` below `b`. -/
def count : Nat → Nat → Nat → Nat
  | 0, b, q => one b q
  | l + 1, b, q => one b q + ∑ i ∈ range w, (e b i).elim 0 fun x => count l (ptr x) q

/-- The node of level 0 that key `k` leads to. -/
def node : Nat → Nat → Nat → Option Nat
  | 0, b, _ => some b
  | l + 1, b, k => (e b (digit w (l + 1) k)).bind fun x => node l (ptr x) k

/-- The value at key `k`. -/
def lookup (l b k : Nat) : Option ε :=
  (node ptr w e l b k).bind fun n => e n (digit w 0 k)

/-- Every entry above level 0 satisfies `P`. -/
def Inner (P : ε → Prop) : Nat → Nat → Prop
  | 0, _ => True
  | l + 1, b => ∀ i < w, ∀ x, e b i = some x → P x ∧ Inner P l (ptr x)

/-- The tree holds no value. -/
def Bare : Nat → Nat → Prop
  | 0, b => ∀ i < w, e b i = none
  | l + 1, b => ∀ i < w, ∀ x, e b i = some x → Bare l (ptr x)

/-- The nodes below entry `i` of `b`. -/
def kid (l b i q : Nat) : Nat := (e b i).elim 0 fun x => count ptr w e l (ptr x) q

/-- The nodes that are not below entry `d` of `b`. -/
def others (l b d q : Nat) : Nat := one b q + ∑ i ∈ (range w).erase d, kid ptr w e l b i q

variable {ptr w e e'}

theorem count_succ (l b q : Nat) : count ptr w e (l + 1) b q = one b q + ∑ i ∈ range w, kid ptr w e l b i q := rfl

variable {i q k' : Nat} {P : ε → Prop}

theorem kid_some {l b : Nat} {x : ε} (entry : e b i = some x) :
    kid ptr w e l b i q = count ptr w e l (ptr x) q := by
  simp [kid, entry]

theorem kid_none {l b : Nat} (entry : e b i = none) : kid ptr w e l b i q = 0 := by
  simp [kid, entry]

theorem lookup_succ (l b k : Nat) :
    lookup ptr w e (l + 1) b k = (e b (digit w (l + 1) k)).bind fun x => lookup ptr w e l (ptr x) k := by
  simp only [lookup, node, Option.bind_assoc]

theorem count_split {d : Nat} (small : d < w) (l b q : Nat) :
    count ptr w e (l + 1) b q = others ptr w e l b d q + kid ptr w e l b d q := by
  have sum := Finset.add_sum_erase (range w) (fun i => kid ptr w e l b i q) (mem_range.mpr small)
  rw [count_succ, others]
  omega

theorem count_self (l b : Nat) : 0 < count ptr w e l b b := by
  cases l with
  | zero => simp [count]
  | succ l => rw [count_succ, one_self]; omega

theorem kid_le (small : i < w) (l b q : Nat) : kid ptr w e l b i q ≤ count ptr w e (l + 1) b q := by
  rw [count_split small]
  omega

theorem kid_le_others {d : Nat} (small : i < w) (ne : i ≠ d) (l b q : Nat) :
    kid ptr w e l b i q ≤ others ptr w e l b d q :=
  (Finset.single_le_sum (f := fun i => kid ptr w e l b i q) (fun _ _ => Nat.zero_le _)
    (mem_erase.mpr ⟨ne, mem_range.mpr small⟩)).trans (Nat.le_add_left _ _)

/-- Below two different entries lie different nodes, when no node is counted twice. -/
theorem kid_apart {l b j : Nat} (once : count ptr w e (l + 1) b q ≤ 1) (hi : i < w) (hj : j < w)
    (mine : 0 < kid ptr w e l b i q) (ne : j ≠ i) : kid ptr w e l b j q = 0 := by
  have within : kid ptr w e l b j q ≤ others ptr w e l b i q := kid_le_others hj ne l b q
  rw [count_split hi] at once
  omega

/-- What holds of the root and of every node an entry leads to holds of all nodes. -/
theorem count_induct {P : Nat → Prop} (leads : ∀ x, P (ptr x)) : ∀ {l b q : Nat}, P b → 0 < count ptr w e l b q → P q
  | 0, b, q, root, mine => by
      rw [one_pos mine]
      exact root
  | l + 1, b, q, root, mine => by
      rw [count_succ] at mine
      by_cases here : 0 < one b q
      · rw [one_pos here]
        exact root
      · have below : 0 < ∑ i ∈ range w, kid ptr w e l b i q := by omega
        obtain ⟨i, _, some'⟩ := Finset.exists_ne_zero_of_sum_ne_zero (Nat.ne_of_gt below)
        unfold kid at some'
        cases entry : e b i with
        | none =>
          rw [entry] at some'
          exact absurd rfl some'
        | some x =>
          rw [entry] at some'
          exact count_induct leads (leads x) (Nat.pos_of_ne_zero some')

/-- The tree cut one level higher has fewer nodes. -/
theorem count_le_succ : ∀ l b q : Nat, count ptr w e l b q ≤ count ptr w e (l + 1) b q
  | 0, b, q => Nat.le_add_right _ _
  | l + 1, b, q => by
      rw [count_succ, count_succ]
      refine Nat.add_le_add_left (Finset.sum_le_sum fun i _ => ?_) _
      cases entry : e b i with
      | none => rw [kid_none entry, kid_none entry]
      | some x => rw [kid_some entry, kid_some entry]; exact count_le_succ l (ptr x) q

/-! ## What a tree depends on -/

/-- The counts depend on the entries of the nodes above level 0. -/
theorem count_congr : ∀ (l b : Nat), (∀ n, 0 < count ptr w e l b n → ∀ i < w, e' n i = e n i) →
    ∀ q, count ptr w e' (l + 1) b q = count ptr w e (l + 1) b q
  | 0, b, same, q => by
      rw [count_succ, count_succ]
      congr 1
      refine Finset.sum_congr rfl fun i small => ?_
      simp only [kid, same b (count_self 0 b) i (mem_range.mp small), count]
  | l + 1, b, same, q => by
      rw [count_succ, count_succ]
      congr 1
      refine Finset.sum_congr rfl fun i small => ?_
      have here := same b (count_self (l + 1) b) i (mem_range.mp small)
      cases entry : e b i with
      | none => rw [kid_none entry, kid_none (here.trans entry)]
      | some x =>
        rw [kid_some entry, kid_some (here.trans entry)]
        refine count_congr l (ptr x) (fun n mine => same n ?_) q
        rw [← kid_some entry] at mine
        exact Nat.lt_of_lt_of_le mine (kid_le (mem_range.mp small) l b n)

theorem count_congr_all {l b : Nat} (same : ∀ n, 0 < count ptr w e l b n → ∀ i < w, e' n i = e n i) (q : Nat) :
    count ptr w e' l b q = count ptr w e l b q := by
  cases l with
  | zero => rfl
  | succ l => exact count_congr l b (fun n mine => same n (Nat.lt_of_lt_of_le mine (count_le_succ l b n))) q

/-- Where a key leads depends on the entries of the nodes above level 0. -/
theorem node_congr : ∀ (l b k : Nat), 0 < w → (∀ n, 0 < count ptr w e l b n → ∀ i < w, e' n i = e n i) →
    node ptr w e' (l + 1) b k = node ptr w e (l + 1) b k
  | 0, b, k, wide, same => by
      rw [node, node, same b (count_self 0 b) _ (digit_lt wide 1 k)]
      rfl
  | l + 1, b, k, wide, same => by
      have small : digit w (l + 1 + 1) k < w := digit_lt wide _ k
      have here := same b (count_self (l + 1) b) _ small
      rw [node, node, here]
      cases entry : e b (digit w (l + 1 + 1) k) with
      | none => rfl
      | some x =>
        refine node_congr l (ptr x) k wide fun n mine => same n ?_
        rw [← kid_some entry] at mine
        exact Nat.lt_of_lt_of_le mine (kid_le small l b n)

theorem node_counted : ∀ {l b k n : Nat}, 0 < w → node ptr w e l b k = some n → 0 < count ptr w e l b n
  | 0, b, k, n, _, leads => by
      cases leads
      exact count_self 0 b
  | l + 1, b, k, n, wide, leads => by
      obtain ⟨x, entry, below⟩ := Option.bind_eq_some_iff.mp leads
      have small : digit w (l + 1) k < w := digit_lt wide _ k
      have mine := node_counted wide below
      rw [← kid_some entry] at mine
      exact Nat.lt_of_lt_of_le mine (kid_le small l b n)

/-- The nodes on the way to a key are all different, when no node is counted twice. -/
theorem node_path : ∀ {l b k n : Nat}, 0 < w → (∀ q, count ptr w e l b q ≤ 1) → node ptr w e l b k = some n →
    ∃ path : List Nat, path.length = l + 1 ∧ path.Nodup ∧ ∀ q ∈ path, 0 < count ptr w e l b q
  | 0, b, _, _, _, _, _ => ⟨[b], rfl, List.nodup_singleton b, fun q here =>
    by rw [List.mem_singleton.mp here]; exact count_self 0 b⟩
  | l + 1, b, k, n, wide, once, leads => by
      obtain ⟨x, entry, below⟩ := Option.bind_eq_some_iff.mp leads
      have small : digit w (l + 1) k < w := digit_lt wide _ k
      have kid_eq : ∀ q, kid ptr w e l b (digit w (l + 1) k) q = count ptr w e l (ptr x) q := fun q => kid_some entry
      have within : ∀ q, one b q + count ptr w e l (ptr x) q ≤ count ptr w e (l + 1) b q := fun q => by
        have self : one b q ≤ others ptr w e l b (digit w (l + 1) k) q := Nat.le_add_right _ _
        rw [count_split small, kid_eq]
        omega
      obtain ⟨path, length, nodup, mine⟩ := node_path wide (fun q => by have := within q; have := once q; omega) below
      refine ⟨b :: path, by rw [List.length_cons, length], List.nodup_cons.mpr ⟨fun here => ?_, nodup⟩,
        fun q there => ?_⟩
      · have := mine b here
        have := within b
        have := once b
        rw [one_self] at *
        omega
      · rcases List.mem_cons.mp there with rfl | there
        · exact count_self (l + 1) q
        · have := mine q there
          have := within q
          omega

theorem lookup_congr {l b : Nat} (wide : 0 < w) (same : ∀ n, 0 < count ptr w e l b n → ∀ i < w, e' n i = e n i)
    (k : Nat) : lookup ptr w e' l b k = lookup ptr w e l b k := by
  have leads : node ptr w e' l b k = node ptr w e l b k := by
    cases l with
    | zero => rfl
    | succ l =>
      exact node_congr l b k wide fun n mine => same n (Nat.lt_of_lt_of_le mine (count_le_succ l b n))
  rw [lookup, lookup, leads]
  cases at_node : node ptr w e l b k with
  | none => rfl
  | some n => exact same n (node_counted wide at_node) _ (digit_lt wide _ _)

theorem inner_congr : ∀ (l b : Nat), (∀ n, 0 < count ptr w e l b n → ∀ i < w, e' n i = e n i) →
    Inner ptr w e P (l + 1) b → Inner ptr w e' P (l + 1) b
  | 0, b, same, inner => fun i small x entry =>
    ⟨(inner i small x ((same b (count_self 0 b) i small).symm.trans entry)).1, trivial⟩
  | l + 1, b, same, inner => by
      intro i small x entry
      have entry₀ : e b i = some x := (same b (count_self (l + 1) b) i small).symm.trans entry
      obtain ⟨holds, below⟩ := inner i small x entry₀
      refine ⟨holds, inner_congr l (ptr x) (fun n mine => same n ?_) below⟩
      rw [← kid_some entry₀] at mine
      exact Nat.lt_of_lt_of_le mine (kid_le small l b n)

theorem inner_congr_all {l b : Nat} (same : ∀ n, 0 < count ptr w e l b n → ∀ i < w, e' n i = e n i)
    (inner : Inner ptr w e P l b) : Inner ptr w e' P l b := by
  cases l with
  | zero => trivial
  | succ l =>
    exact inner_congr l b (fun n mine => same n (Nat.lt_of_lt_of_le mine (count_le_succ l b n))) inner

theorem bare_congr : ∀ {l b : Nat}, (∀ n, 0 < count ptr w e l b n → ∀ i < w, e' n i = e n i) →
    Bare ptr w e l b → Bare ptr w e' l b
  | 0, b, same, bare => fun i small => (same b (count_self 0 b) i small).trans (bare i small)
  | l + 1, b, same, bare => by
      intro i small x entry
      have entry₀ : e b i = some x := (same b (count_self (l + 1) b) i small).symm.trans entry
      refine bare_congr (fun n mine => same n ?_) (bare i small x entry₀)
      rw [← kid_some entry₀] at mine
      exact Nat.lt_of_lt_of_le mine (kid_le small l b n)

/-- Rewriting entry `d` of `b` and the nodes below it leaves the rest of the tree. -/
theorem others_congr {l b d : Nat} (once : others ptr w e l b d b ≤ 1)
    (here : ∀ i < w, i ≠ d → e' b i = e b i)
    (same : ∀ n, n ≠ b → 0 < others ptr w e l b d n → ∀ i < w, e' n i = e n i) (q : Nat) :
    others ptr w e' l b d q = others ptr w e l b d q := by
  unfold others
  congr 1
  refine Finset.sum_congr rfl fun i member => ?_
  obtain ⟨ne, small⟩ := mem_erase.mp member
  have alike := here i (mem_range.mp small) ne
  have within : ∀ n, kid ptr w e l b i n ≤ ∑ i ∈ (range w).erase d, kid ptr w e l b i n := fun n =>
    Finset.single_le_sum (f := fun i => kid ptr w e l b i n) (fun _ _ => Nat.zero_le _) member
  cases entry : e b i with
  | none => rw [kid_none entry, kid_none (alike.trans entry)]
  | some x =>
    rw [kid_some entry, kid_some (alike.trans entry)]
    refine count_congr_all (fun n mine => same n ?_ ?_) q
    · rintro rfl
      have := within n
      rw [kid_some entry] at this
      rw [others, one_self] at once
      omega
    · have := within n
      rw [kid_some entry] at this
      rw [others]
      omega

/-! ## Keys and nodes -/

/-- A node of level 0 is not also a node above. -/
theorem node_above : ∀ {l b k n : Nat}, 0 < w → node ptr w e (l + 1) b k = some n →
    count ptr w e l b n + 1 ≤ count ptr w e (l + 1) b n
  | 0, b, k, n, wide, leads => by
      obtain ⟨x, entry, below⟩ := Option.bind_eq_some_iff.mp leads
      cases below
      have small : digit w 1 k < w := digit_lt wide _ k
      rw [count_split small, kid_some entry, count, count, one_self, others]
      omega
  | l + 1, b, k, n, wide, leads => by
      obtain ⟨x, entry, below⟩ := Option.bind_eq_some_iff.mp leads
      have small : digit w (l + 1 + 1) k < w := digit_lt wide _ k
      have deeper := node_above wide below
      rw [← kid_some entry, ← kid_some entry] at deeper
      have rest : others ptr w e l b (digit w (l + 1 + 1) k) n ≤ others ptr w e (l + 1) b
        (digit w (l + 1 + 1) k) n := by
        refine Nat.add_le_add_left (Finset.sum_le_sum fun i _ => ?_) _
        cases entry : e b i with
        | none => rw [kid_none entry, kid_none entry]
        | some x => rw [kid_some entry, kid_some entry]; exact count_le_succ l (ptr x) n
      rw [count_split small, count_split small]
      omega

theorem digit_succ (l k : Nat) : digit w (l + 1) k = k / w / w ^ l % w := by
  rw [digit, Nat.pow_succ, Nat.mul_comm, Nat.div_div_eq_div_mul]

/-- Keys that differ in digit 0 only lead to one node. -/
theorem node_upper {k : Nat} (same : k / w = k' / w) : ∀ l b : Nat, node ptr w e l b k = node ptr w e l b k'
  | 0, _ => rfl
  | l + 1, b => by
      rw [node, node, digit_succ, digit_succ, same]
      cases e b (k' / w / w ^ l % w) with
      | none => rfl
      | some x => exact node_upper same l (ptr x)

/-- Two keys that lead to one node differ in digit 0 only. -/
theorem node_inj : ∀ {l b k k' n : Nat}, 0 < w → (∀ q, count ptr w e l b q ≤ 1) →
    node ptr w e l b k = some n → node ptr w e l b k' = some n → k / w % w ^ l = k' / w % w ^ l
  | 0, _, _, _, _, _, _, _, _ => by simp [Nat.mod_one]
  | l + 1, b, k, k', n, wide, once, leads, leads' => by
      obtain ⟨x, entry, below⟩ := Option.bind_eq_some_iff.mp leads
      obtain ⟨x', entry', below'⟩ := Option.bind_eq_some_iff.mp leads'
      have small : digit w (l + 1) k < w := digit_lt wide _ k
      have small' : digit w (l + 1) k' < w := digit_lt wide _ k'
      have mine := node_counted wide below
      have mine' := node_counted wide below'
      rw [← kid_some entry] at mine
      rw [← kid_some entry'] at mine'
      have digits : digit w (l + 1) k' = digit w (l + 1) k := by
        by_contra ne
        have := kid_apart (once n) small small' mine ne
        omega
      have same : x' = x := by
        rw [digits, entry] at entry'
        exact (Option.some.inj entry').symm
      subst same
      have once' : ∀ q, count ptr w e l (ptr x') q ≤ 1 := fun q => by
        rw [← kid_some entry]
        exact (kid_le small l b q).trans (once q)
      have lower := node_inj wide once' below below'
      rw [digit_succ, digit_succ] at digits
      rw [Nat.pow_succ, Nat.mod_mul, Nat.mod_mul, lower, digits]

/-- A key below `w ^ (l + 1)` is determined by the node it leads to and its last digit. -/
theorem key_inj {l b k n : Nat} (wide : 0 < w) (once : ∀ q, count ptr w e l b q ≤ 1)
    (leads : node ptr w e l b k = some n) (leads' : node ptr w e l b k' = some n)
    (last : digit w 0 k = digit w 0 k') (small : k < w ^ (l + 1)) (small' : k' < w ^ (l + 1)) : k = k' := by
  have upper := node_inj wide once leads leads'
  have top : ∀ {j}, j < w ^ (l + 1) → j / w < w ^ l := fun h =>
    Nat.div_lt_of_lt_mul (by rwa [Nat.pow_succ, Nat.mul_comm] at h)
  rw [Nat.mod_eq_of_lt (top small), Nat.mod_eq_of_lt (top small')] at upper
  simp only [digit, Nat.pow_zero, Nat.div_one] at last
  rw [← Nat.div_add_mod k w, ← Nat.div_add_mod k' w, upper, last]

section Set

variable {l b k n : Nat} (wide : 0 < w) (once : ∀ q, count ptr w e l b q ≤ 1)
  (leads : node ptr w e l b k = some n)
  (same : ∀ n', 0 < count ptr w e l b n' → ∀ i < w, n' ≠ n ∨ i ≠ digit w 0 k → e' n' i = e n' i)

include wide once leads same

/-- The entry written lies below the nodes that decide the shape of the tree. -/
theorem above_same {l₁ : Nat} (level : l = l₁ + 1) :
    ∀ n', 0 < count ptr w e l₁ b n' → ∀ i < w, e' n' i = e n' i := by
  subst level
  intro n' mine i small
  refine same n' (Nat.lt_of_lt_of_le mine (count_le_succ l₁ b n')) i small (.inl ?_)
  rintro rfl
  have := node_above wide leads
  have := once n'
  omega

theorem count_set (q : Nat) : count ptr w e' l b q = count ptr w e l b q := by
  cases l with
  | zero => rfl
  | succ l => exact count_congr l b (above_same wide once leads same rfl) q

theorem node_set (k' : Nat) : node ptr w e' l b k' = node ptr w e l b k' := by
  cases l with
  | zero => rfl
  | succ l => exact node_congr l b k' wide (above_same wide once leads same rfl)

theorem inner_set (inner : Inner ptr w e P l b) : Inner ptr w e' P l b := by
  cases l with
  | zero => trivial
  | succ l => exact inner_congr l b (above_same wide once leads same rfl) inner

/-- Writing the entry of key `k` changes the value at `k` and no other. -/
theorem lookup_set (small : k < w ^ (l + 1)) (small' : k' < w ^ (l + 1)) :
    lookup ptr w e' l b k' = if k' = k then e' n (digit w 0 k) else lookup ptr w e l b k' := by
  rw [lookup, node_set wide once leads same]
  split
  · next eq =>
      subst eq
      rw [leads]
      rfl
  · next ne =>
      rw [lookup]
      cases leads' : node ptr w e l b k' with
      | none => rfl
      | some n' =>
        refine same n' (node_counted wide leads') _ (digit_lt wide _ _) ?_
        by_contra both
        push Not at both
        obtain ⟨rfl, last⟩ := both
        exact ne (key_inj wide once leads' leads last small' small)

end Set

/-! ## Empty nodes -/

theorem count_empty {l b : Nat} (empty : ∀ i < w, e b i = none) (q : Nat) : count ptr w e l b q = one b q := by
  cases l with
  | zero => rfl
  | succ l =>
    rw [count_succ, Finset.sum_eq_zero fun i small => kid_none (empty i (mem_range.mp small)), Nat.add_zero]

theorem lookup_empty {l b : Nat} (wide : 0 < w) (empty : ∀ i < w, e b i = none) (k : Nat) :
    lookup ptr w e l b k = none := by
  have none_here : ∀ j, e b (digit w j k) = none := fun j => empty _ (digit_lt wide _ _)
  cases l with
  | zero => simp [lookup, node, none_here]
  | succ l => simp [lookup, node, none_here]

theorem inner_empty {l b : Nat} (empty : ∀ i < w, e b i = none) : Inner ptr w e P l b := by
  cases l with
  | zero => trivial
  | succ l =>
    intro i small x entry
    rw [empty i small] at entry
    cases entry

/-! ## Changes below one entry -/

section Child

variable {l b d : Nat} {x : ε} (valid : e b d = some x)
  (same : ∀ n, 0 < others ptr w e l b d n → ∀ i < w, e' n i = e n i)

theorem others_self (l b d : Nat) : 0 < others ptr w e l b d b := by
  rw [others, one_self]
  omega

include same

/-- The nodes beside entry `d` of `b` are as they were. -/
theorem beside_same {y : ε} (hi : i < w) (ne : i ≠ d) (valid' : e b i = some y) :
    ∀ n, 0 < count ptr w e l (ptr y) n → ∀ j < w, e' n j = e n j := by
  intro n mine
  have within : kid ptr w e l b i n ≤ others ptr w e l b d n := kid_le_others hi ne l b n
  rw [kid_some valid'] at within
  exact same n (Nat.lt_of_lt_of_le mine within)

include valid

theorem count_child (small : d < w) (once : others ptr w e l b d b ≤ 1) (q : Nat) :
    count ptr w e' (l + 1) b q = count ptr w e' l (ptr x) q + others ptr w e l b d q := by
  have here := same b (others_self l b d)
  rw [count_split small, kid_some ((here d small).trans valid), Nat.add_comm,
    others_congr once (fun i hi _ => here i hi) fun n _ mine => same n mine]

theorem lookup_child (wide : 0 < w) (below : ∀ k, lookup ptr w e' l (ptr x) k = lookup ptr w e l (ptr x) k) (k : Nat) :
    lookup ptr w e' (l + 1) b k = lookup ptr w e (l + 1) b k := by
  have hi := digit_lt wide (l + 1) k
  rw [lookup_succ, lookup_succ, same b (others_self l b d) _ hi]
  cases valid' : e b (digit w (l + 1) k) with
  | none => rfl
  | some y =>
    by_cases focus : digit w (l + 1) k = d
    · rw [focus, valid] at valid'
      cases valid'
      exact below k
    · exact lookup_congr wide (beside_same same hi focus valid') k

theorem inner_child (below : Inner ptr w e P l (ptr x) → Inner ptr w e' P l (ptr x))
    (inner : Inner ptr w e P (l + 1) b) : Inner ptr w e' P (l + 1) b := by
  intro i hi y valid'
  have valid₀ := (same b (others_self l b d) i hi).symm.trans valid'
  obtain ⟨holds, rest⟩ := inner i hi y valid₀
  by_cases focus : i = d
  · subst focus
    rw [valid] at valid₀
    cases valid₀
    exact ⟨holds, below rest⟩
  · exact ⟨holds, inner_congr_all (beside_same same hi focus valid₀) rest⟩

end Child

section Hang

variable {l b d : Nat} {x : ε} (small : d < w) (invalid : e b d = none) (hung : e' b d = some x)
  (empty : ∀ i < w, e' (ptr x) i = none) (here : ∀ i < w, i ≠ d → e' b i = e b i)
  (same : ∀ n, n ≠ b → 0 < count ptr w e (l + 1) b n → ∀ i < w, e' n i = e n i)
  (once : count ptr w e (l + 1) b b ≤ 1)

theorem others_of_none {l b d : Nat} (small : d < w) (invalid : e b d = none) (q : Nat) :
    others ptr w e l b d q = count ptr w e (l + 1) b q := by
  rw [count_split small, kid_none invalid, Nat.add_zero]

include small invalid same once

theorem beside_hung {y : ε} (hi : i < w) (ne : i ≠ d) (valid : e b i = some y) :
    ∀ n, 0 < count ptr w e l (ptr y) n → ∀ j < w, e' n j = e n j := by
  intro n mine
  have within : kid ptr w e l b i n ≤ others ptr w e l b d n := kid_le_others hi ne l b n
  rw [kid_some valid, others_of_none small invalid] at within
  refine same n ?_ (Nat.lt_of_lt_of_le mine within)
  rintro rfl
  have split : count ptr w e (l + 1) n n = one n n + _ := count_succ l n n
  have term := Finset.single_le_sum (f := fun i => kid ptr w e l n i n) (fun _ _ => Nat.zero_le _) (mem_range.mpr hi)
  simp only [kid_some valid, one_self] at term split
  omega

include hung empty here

/-- Hanging an empty node below an unused entry adds that node. -/
theorem count_hang (q : Nat) : count ptr w e' (l + 1) b q = count ptr w e (l + 1) b q + one (ptr x) q := by
  have unused : ∀ q, others ptr w e l b d q = count ptr w e (l + 1) b q := others_of_none small invalid
  rw [count_split small, kid_some hung, count_empty empty, ← unused q,
    others_congr (by rw [unused]; exact once) here fun n ne mine => same n ne (by rwa [unused] at mine)]

theorem lookup_hang (wide : 0 < w) (k : Nat) : lookup ptr w e' (l + 1) b k = lookup ptr w e (l + 1) b k := by
  rw [lookup_succ, lookup_succ]
  by_cases focus : digit w (l + 1) k = d
  · rw [focus, hung, invalid, Option.bind_some, lookup_empty wide empty]
    rfl
  · have hi := digit_lt wide (l + 1) k
    rw [here _ hi focus]
    cases valid : e b (digit w (l + 1) k) with
    | none => rfl
    | some y => exact lookup_congr wide (beside_hung small invalid same once hi focus valid) k

theorem inner_hang (holds : P x) (inner : Inner ptr w e P (l + 1) b) : Inner ptr w e' P (l + 1) b := by
  intro i hi y valid
  by_cases focus : i = d
  · subst focus
    rw [hung] at valid
    cases valid
    exact ⟨holds, inner_empty empty⟩
  · have valid₀ := (here i hi focus).symm.trans valid
    obtain ⟨fine, rest⟩ := inner i hi y valid₀
    exact ⟨fine, inner_congr_all (beside_hung small invalid same once hi focus valid₀) rest⟩

end Hang

/-! ## Trees without values -/

theorem node_mod {l : Nat} : ∀ {l' b k k' : Nat}, l' ≤ l → k % w ^ (l + 1) = k' % w ^ (l + 1) →
    node ptr w e l' b k = node ptr w e l' b k'
  | 0, _, _, _, _, _ => rfl
  | l' + 1, b, k, k', low, same => by
      have digits : digit w (l' + 1) k = digit w (l' + 1) k' := digit_mod low same
      rw [node, node, digits]
      cases e b (digit w (l' + 1) k') with
      | none => rfl
      | some x => exact node_mod (Nat.le_of_succ_le low) same
where
  digit_mod {l j k k' : Nat} (low : j ≤ l) (same : k % w ^ (l + 1) = k' % w ^ (l + 1)) :
      digit w j k = digit w j k' := by
    have cut : ∀ m, m / w ^ j % w = m % w ^ (l + 1) / w ^ j % w := by
      intro m
      obtain ⟨r, rfl⟩ := Nat.exists_eq_add_of_le low
      rw [show w ^ (j + r + 1) = w ^ j * w ^ (r + 1) by rw [← Nat.pow_add, Nat.add_assoc],
        Nat.mod_mul_right_div_self, Nat.mod_mod_of_dvd _ (dvd_pow_self w (Nat.succ_ne_zero r))]
    rw [digit, digit, cut k, cut k', same]

/-- A tree whose every key has no value is bare. -/
theorem bare_of_lookup : ∀ {l b : Nat}, (∀ k < w ^ (l + 1), lookup ptr w e l b k = none) → Bare ptr w e l b
  | 0, b, none_at => by
      intro i small
      have := none_at i (by simpa using small)
      simpa [lookup, node, digit, Nat.mod_eq_of_lt small] using this
  | l + 1, b, none_at => by
      intro i small x entry
      refine bare_of_lookup fun k low => ?_
      -- the key that goes through entry `i` and then on as `k`
      have top : digit w (l + 1) (i * w ^ (l + 1) + k) = i := by
        rw [digit, Nat.add_comm, Nat.add_mul_div_right _ _ (Nat.zero_lt_of_lt low), Nat.div_eq_of_lt low,
          Nat.zero_add, Nat.mod_eq_of_lt small]
      have rest : (i * w ^ (l + 1) + k) % w ^ (l + 1) = k % w ^ (l + 1) := by
        rw [Nat.add_comm, Nat.add_mul_mod_self_right]
      have bound : i * w ^ (l + 1) + k < w ^ (l + 1 + 1) := by
        calc i * w ^ (l + 1) + k < i * w ^ (l + 1) + w ^ (l + 1) := Nat.add_lt_add_left low _
          _ = (i + 1) * w ^ (l + 1) := by rw [Nat.add_mul, Nat.one_mul]
          _ ≤ w * w ^ (l + 1) := Nat.mul_le_mul_right _ small
          _ = w ^ (l + 1 + 1) := by rw [Nat.pow_succ w (l + 1), Nat.mul_comm]
      have value := none_at _ bound
      have last : digit w 0 (i * w ^ (l + 1) + k) = digit w 0 k := node_mod.digit_mod (Nat.zero_le l) rest
      rw [lookup, node, top, entry, Option.bind_some, node_mod (Nat.le_refl l) rest, last] at value
      exact value

end Tree

end Xv6.Theory.Radix
