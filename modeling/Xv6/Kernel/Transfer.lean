/-
# Kernel.Transfer -- copying between the kernel and user memory

`frame mem root va` is the page that user code reaches at `va`, and `userByte` the byte it
sees there.  `copyin` and `copyinstr` are functions of the bytes user code sees (`seen`,
`fetched`), for any page table.  `copyout` changes a first part of the range it is given, up
to the first page that cannot be reached, and nothing else in memory, provided that the
table maps no page twice and does not map its own pages (`Separate`): otherwise what was
written first can change where the rest goes.
-/
import Xv6.Kernel.UserMem

namespace Xv6.Kernel.Vm

set_option autoImplicit false

open Xv6.Theory Xv6.Theory.Bytes Xv6.Theory.Prog

/-- The page user code reaches at `va`; the page 0 counts as none. -/
def frame (mem : Mem) (root va : Nat) : Option Nat :=
  if va < MAXVA then
    (leaf mem root (va / PGSIZE)).bind fun pte => if pte &&& PTE_U = 0 ∨ PTE2PA pte = 0 then none else some (PTE2PA pte)
  else none

/-- The byte user code sees at `va`. -/
def userByte (mem : Mem) (root va : Nat) : Option UInt8 := (frame mem root va).map fun pa => mem (pa + va % PGSIZE)

/-- The physical address of the byte user code sees at `va`. -/
def phys (mem : Mem) (root va : Nat) : Option Nat := (frame mem root va).map fun pa => pa + va % PGSIZE

variable {root : Nat} {s s' : Pool UInt8} {E : Panic → Prop}

theorem rounddown_div (va : Nat) : PGROUNDDOWN va / PGSIZE = va / PGSIZE := Nat.mul_div_cancel _ (by decide)

theorem rounddown_lt_maxva (va : Nat) : PGROUNDDOWN va < MAXVA ↔ va < MAXVA := by
  simp only [PGROUNDDOWN, MAXVA, PGSIZE]
  omega

theorem frame_rounddown (mem : Mem) (root va : Nat) : frame mem root (PGROUNDDOWN va) = frame mem root va := by
  rw [frame, frame, rounddown_div]
  simp only [rounddown_lt_maxva]

variable {va pa j len n srcva k x : Nat} {mem : Mem}

/-- All of a page is mapped, or none. -/
theorem frame_same_page {va' : Nat} (mem : Mem) (root : Nat) (same : va / PGSIZE = va' / PGSIZE) :
    frame mem root va = frame mem root va' := by
  rw [← frame_rounddown mem root va, ← frame_rounddown mem root va', PGROUNDDOWN, PGROUNDDOWN, same]

theorem frame_eq_some : frame mem root va = some pa ↔
    va < MAXVA ∧ ∃ pte, leaf mem root (va / PGSIZE) = some pte ∧ pte &&& PTE_U ≠ 0 ∧ PTE2PA pte = pa ∧ pa ≠ 0 := by
  unfold frame
  by_cases range : va < MAXVA
  · cases value : leaf mem root (va / PGSIZE) with
    | none => simp [range]
    | some pte =>
      by_cases hidden : pte &&& PTE_U = 0
      · simp [range, hidden]
      · by_cases zero : PTE2PA pte = 0
        · simp only [range, zero, hidden, if_true, Option.bind_some, or_true, reduceCtorEq, false_iff]
          rintro ⟨_, pte', is, _, rfl, pos⟩
          rw [← Option.some.inj is] at pos
          exact pos zero
        · simp only [range, zero, hidden, if_true, Option.bind_some, or_self, if_false, Option.some.injEq, true_and]
          constructor
          · rintro rfl
            exact ⟨pte, rfl, hidden, rfl, zero⟩
          · rintro ⟨pte', rfl, _, is, _⟩
            exact is
  · simp [range]

theorem userByte_none : userByte mem root va = none ↔ frame mem root va = none := Option.map_eq_none_iff

theorem wp_walkaddr {Q : Option Nat → Pool UInt8 → Prop} (post : Q (frame s.mem root va) s) :
    wp (walkaddr root va) s Q E := by
  unfold walkaddr
  by_cases high : MAXVA ≤ va
  · rw [frame, if_neg (Nat.not_lt_of_le high)] at post
    rw [if_pos high]
    exact wp_pure post
  rw [frame, if_pos (Nat.lt_of_not_le high)] at post
  rw [if_neg high]
  refine wp_withEntry (f := fun _ pte => if pte &&& PTE_U = 0 then pure none else if PTE2PA pte = 0 then pure none
    else pure (some (PTE2PA pte))) (Nat.lt_of_not_le high) (fun absent => ?_) fun _ pte _ mapped => ?_
  · rw [absent] at post
    exact ⟨wp_pure post, wp_pure post⟩
  rw [mapped, Option.bind_some] at post
  by_cases hidden : pte &&& PTE_U = 0
  · rw [if_pos (.inl hidden)] at post
    rw [if_pos hidden]
    exact wp_pure post
  rw [if_neg hidden]
  by_cases zero : PTE2PA pte = 0
  · rw [if_pos (.inr zero)] at post
    rw [if_pos zero]
    exact wp_pure post
  · rw [if_neg (not_or.mpr ⟨hidden, zero⟩)] at post
    rw [if_neg zero]
    exact wp_pure post

/-! ## One turn of a copy loop -/

theorem offset_eq (va : Nat) : va - PGROUNDDOWN va = va % PGSIZE := by
  simp only [PGROUNDDOWN, PGSIZE]
  omega

/-- The bytes of one page are mapped as the first one is. -/
theorem frame_in_page (found : frame s.mem root va = some pa) (inside : va % PGSIZE + j < PGSIZE) :
    frame s.mem root (va + j) = some pa := by
  rw [← found]
  apply frame_same_page
  simp only [PGSIZE] at *
  omega

theorem phys_in_page (found : frame s.mem root va = some pa) (inside : va % PGSIZE + j < PGSIZE) :
    phys s.mem root (va + j) = some (pa + va % PGSIZE + j) := by
  rw [phys, frame_in_page found inside, Option.map_some]
  congr 1
  simp only [PGSIZE] at *
  omega

theorem userByte_eq (mem : Mem) (root va : Nat) : userByte mem root va = (phys mem root va).map mem := by
  rw [userByte, phys, Option.map_map]
  rfl

theorem userByte_in_page (found : frame s.mem root va = some pa) (inside : va % PGSIZE + j < PGSIZE) :
    userByte s.mem root (va + j) = some (s.mem (pa + va % PGSIZE + j)) := by
  rw [userByte_eq, phys_in_page found inside]
  rfl

/-- A turn that is not the last one ends at a page boundary, and the address does not wrap there. -/
theorem next_page (found : frame s.mem root va = some pa) (size : min (PGSIZE - va % PGSIZE) len = n)
    (more : n ≠ len) : u64 (PGROUNDDOWN va + PGSIZE) = va + n := by
  have range := (frame_eq_some.mp found).1
  simp only [u64, PGROUNDDOWN, MAXVA, PGSIZE] at range size more ⊢
  omega

/-! ## Copying in -/

/-- The bytes from `srcva` on, up to the first one that user code cannot see. -/
def seen (bytes : Nat → Option UInt8) : Nat → Nat → Int × List UInt8
  | _, 0 => (0, [])
  | srcva, len + 1 =>
    match bytes srcva with
    | none => (-1, [])
    | some x =>
      let rest := seen bytes (srcva + 1) len
      (rest.1, x :: rest.2)

/-- A part that user code can see, and then the rest. -/
theorem seen_add {bytes : Nat → Option UInt8} {data : Nat → UInt8}
    (there : ∀ j < n, bytes (srcva + j) = some (data j)) :
    seen bytes srcva (n + len) = ((seen bytes (srcva + n) len).1, (List.range n).map data ++
      (seen bytes (srcva + n) len).2) := by
  induction n generalizing srcva data with
  | zero => rw [Nat.zero_add]; rfl
  | succ n ih =>
    have first : bytes srcva = some (data 0) := there 0 (Nat.succ_pos n)
    have rest := @ih (srcva + 1) (fun j => data (j + 1)) fun j below => by
      rw [Nat.add_assoc, Nat.add_comm 1]
      exact there (j + 1) (Nat.succ_lt_succ below)
    rw [Nat.succ_add, seen, first, List.range_succ_eq_map, List.map_cons, List.map_map]
    dsimp only
    rw [rest, Nat.add_assoc, Nat.add_comm 1]
    rfl

theorem wp_copyinFrom : ∀ {turns srcva len : Nat}, len ≤ turns →
    wp (copyinFrom root turns srcva len) s (fun r t => r = seen (userByte s.mem root) srcva len ∧ t = s) E := by
  intro turns
  induction turns with
  | zero =>
    intro srcva len enough
    obtain rfl : len = 0 := by omega
    exact wp_pure ⟨rfl, rfl⟩
  | succ turns ih =>
    intro srcva len enough
    rw [copyinFrom]
    by_cases done : len = 0
    · subst done
      rw [if_pos rfl]
      exact wp_pure ⟨rfl, rfl⟩
    rw [if_neg done]
    refine wp_bind (wp_walkaddr ?_)
    rw [frame_rounddown]
    cases found : frame s.mem root srcva with
    | none =>
      obtain ⟨len, rfl⟩ := Nat.exists_eq_succ_of_ne_zero done
      refine wp_pure ⟨?_, rfl⟩
      rw [seen, userByte_none.mpr found]
    | some pa =>
      simp only [offset_eq]
      have inPage : srcva % PGSIZE < PGSIZE := Nat.mod_lt _ (by decide)
      generalize size : min (PGSIZE - srcva % PGSIZE) len = n
      have whole := @seen_add (len - n) n srcva (userByte s.mem root) _ fun j below => userByte_in_page found (by omega)
      rw [Nat.add_sub_cancel' (by omega)] at whole
      refine wp_bind (wp_get (wp_bind (wp_imp (ih (by omega)) ?_)))
      rintro r t ⟨is, rfl⟩
      refine wp_pure ⟨?_, rfl⟩
      rw [whole, is]
      by_cases last : n = len
      · rw [last, Nat.sub_self, seen, seen]
      · rw [next_page found size last]

theorem copyin_run (srcva len : Nat) (s : Pool UInt8) :
    copyin root srcva len s = .ok (seen (userByte s.mem root) srcva len, s) := by
  obtain ⟨r, t, ran, rfl, rfl⟩ := Returns.run (wp_copyinFrom (Nat.le_refl len))
  exact ran

/-- `copyin` changes nothing. -/
theorem copyin_same : wp (copyin root srcva len) s (fun _ t => t = s) E :=
  wp_imp (wp_copyinFrom (Nat.le_refl len)) fun _ _ => And.right

/-- **`copyin` up to the first byte that is not mapped.** -/
theorem copyin_cases (root srcva len : Nat) (s : Pool UInt8) :
    ∃ k ≤ len, (∀ j < k, frame s.mem root (srcva + j) ≠ none) ∧
    (k < len → frame s.mem root (srcva + k) = none) ∧ copyin root srcva len s =
      .ok ((if k = len then 0 else -1, (List.range k).map fun j => (userByte s.mem root (srcva + j)).getD 0), s) := by
  have split : ∀ k ≤ len, (∀ j < k, frame s.mem root (srcva + j) ≠ none) → copyin root srcva len s =
      .ok (((seen (userByte s.mem root) (srcva + k) (len - k)).1,
        (List.range k).map (fun j => (userByte s.mem root (srcva + j)).getD 0) ++
        (seen (userByte s.mem root) (srcva + k) (len - k)).2), s) := by
    intro k le mapped
    rw [copyin_run, ← seen_add, Nat.add_sub_cancel' le]
    intro j below
    obtain ⟨x, is⟩ := Option.ne_none_iff_exists'.mp fun none' => mapped j below (userByte_none.mp none')
    rw [is, Option.getD_some]
  by_cases all : ∀ j < len, frame s.mem root (srcva + j) ≠ none
  · refine ⟨len, Nat.le_refl len, all, fun no => absurd no (Nat.lt_irrefl len), ?_⟩
    rw [split len (Nat.le_refl len) all, Nat.sub_self, if_pos rfl, seen, List.append_nil]
  · have hole : ∃ j, j < len ∧ frame s.mem root (srcva + j) = none := by simpa using all
    obtain ⟨less, nothing⟩ := Nat.find_spec hole
    have before : ∀ j < Nat.find hole, frame s.mem root (srcva + j) ≠ none := fun j below none' =>
      Nat.find_min hole below ⟨Nat.lt_trans below less, none'⟩
    refine ⟨Nat.find hole, Nat.le_of_lt less, before, fun _ => nothing, ?_⟩
    obtain ⟨m, rest⟩ := Nat.exists_eq_succ_of_ne_zero (Nat.sub_ne_zero_of_lt less)
    rw [split _ (Nat.le_of_lt less) before, rest, seen, userByte_none.mpr nothing, if_neg (Nat.ne_of_lt less),
      List.append_nil]

/-! ## Copying strings in -/

/-- The string from `srcva` on, with its NUL, if it ends within `max` bytes that user code can
see. -/
def fetched (bytes : Nat → Option UInt8) : Nat → Nat → Int × List UInt8
  | _, 0 => (-1, [])
  | srcva, max + 1 =>
    match bytes srcva with
    | none => (-1, [])
    | some x =>
      if x = 0 then (0, [0])
      else
        let rest := fetched bytes (srcva + 1) max
        (rest.1, x :: rest.2)

/-- A string of `k` bytes and its NUL stands at `srcva`. -/
structure Ends (bytes : Nat → Option UInt8) (srcva k : Nat) : Prop where
  nul : bytes (srcva + k) = some 0
  before : ∀ j < k, ∃ x, bytes (srcva + j) = some x ∧ x ≠ 0

section Strings

variable {bytes : Nat → Option UInt8}

theorem Ends.zero_iff : Ends bytes srcva 0 ↔ bytes srcva = some 0 :=
  ⟨fun ends => ends.nul, fun nul => ⟨nul, fun j below => absurd below (Nat.not_lt_zero j)⟩⟩

theorem Ends.succ_iff : Ends bytes srcva (k + 1) ↔ (∃ x, bytes srcva = some x ∧ x ≠ 0) ∧ Ends bytes (srcva + 1) k := by
  have shift : ∀ j, srcva + 1 + j = srcva + (j + 1) := fun j => by omega
  constructor
  · rintro ⟨nul, before⟩
    refine ⟨before 0 (Nat.succ_pos k), by rw [shift]; exact nul, fun j below => ?_⟩
    rw [shift]
    exact before (j + 1) (Nat.succ_lt_succ below)
  · rintro ⟨first, nul, before⟩
    refine ⟨by rw [← shift]; exact nul, fun j below => ?_⟩
    cases j with
    | zero => exact first
    | succ j =>
      rw [← shift]
      exact before j (Nat.lt_of_succ_lt_succ below)

theorem fetched_length : ∀ (max srcva : Nat), (fetched bytes srcva max).2.length ≤ max := by
  intro max
  induction max with
  | zero => exact fun _ => Nat.le_refl 0
  | succ max ih =>
    intro srcva
    rw [fetched]
    split
    · exact Nat.zero_le _
    · split
      · exact Nat.succ_le_succ (Nat.zero_le max)
      · exact Nat.succ_le_succ (ih (srcva + 1))

theorem fetched_ends : ∀ {max srcva k : Nat}, k < max → Ends bytes srcva k →
    fetched bytes srcva max = (0, (List.range (k + 1)).map fun j => (bytes (srcva + j)).getD 0) := by
  intro max
  induction max with
  | zero => exact fun {_ k} below _ => absurd below (Nat.not_lt_zero k)
  | succ max ih =>
    intro srcva k below ends
    rw [fetched]
    cases k with
    | zero =>
      have nul : bytes srcva = some 0 := Ends.zero_iff.1 ends
      simp [nul]
    | succ k =>
      obtain ⟨⟨x, first, pos⟩, rest⟩ := Ends.succ_iff.1 ends
      have shift : ∀ j, srcva + 1 + j = srcva + (j + 1) := fun j => by omega
      rw [first]
      dsimp only
      rw [if_neg pos, ih (by omega) rest, List.range_succ_eq_map (n := k + 1), List.map_cons, List.map_map]
      simp [Function.comp_def, shift, first]

theorem fetched_status : ∀ (max srcva : Nat),
    (fetched bytes srcva max).1 = 0 ∧ (∃ k < max, Ends bytes srcva k) ∨ (fetched bytes srcva max).1 = -1 ∧
    ∀ k < max, ¬ Ends bytes srcva k := by
  intro max
  induction max with
  | zero => exact fun _ => .inr ⟨rfl, fun k below => absurd below (Nat.not_lt_zero k)⟩
  | succ max ih =>
    intro srcva
    rw [fetched]
    cases first : bytes srcva with
    | none =>
      refine .inr ⟨rfl, fun k _ ends => ?_⟩
      cases k with
      | zero => exact Option.some_ne_none _ ((Ends.zero_iff.1 ends).symm.trans first)
      | succ k =>
        obtain ⟨⟨x, is, _⟩, _⟩ := Ends.succ_iff.1 ends
        exact Option.some_ne_none _ (is.symm.trans first)
    | some x =>
      dsimp only
      by_cases nul : x = 0
      · rw [if_pos nul]
        exact .inl ⟨rfl, 0, Nat.succ_pos max, Ends.zero_iff.2 (first.trans (congrArg some nul))⟩
      · rw [if_neg nul]
        dsimp only
        refine (ih (srcva + 1)).imp (fun found => ⟨found.1, ?_⟩) fun missing => ⟨missing.1, fun k below ends => ?_⟩
        · obtain ⟨k, below, ends⟩ := found.2
          exact ⟨k + 1, Nat.succ_lt_succ below, Ends.succ_iff.2 ⟨⟨x, first, nul⟩, ends⟩⟩
        · cases k with
          | zero => exact nul (Option.some.inj (first.symm.trans (Ends.zero_iff.1 ends)))
          | succ k => exact missing.2 k (Nat.lt_of_succ_lt_succ below) (Ends.succ_iff.1 ends).2

end Strings

/-- The inner loop of `copyinstr` on a part of one page. -/
theorem fetched_scan {bytes : Nat → Option UInt8} {max : Nat} :
    ∀ {n p srcva : Nat}, (∀ j < n, bytes (srcva + j) = some (mem (p + j))) →
    fetched bytes srcva (n + max) = if (scan mem n p).2 then (0, (scan mem n p).1)
      else ((fetched bytes (srcva + n) max).1, (scan mem n p).1 ++ (fetched bytes (srcva + n) max).2) := by
  intro n
  induction n with
  | zero =>
    intro p srcva _
    rw [Nat.zero_add]
    rfl
  | succ n ih =>
    intro p srcva same
    have first : bytes srcva = some (mem p) := same 0 (Nat.succ_pos n)
    have rest := @ih (p + 1) (srcva + 1) fun j below => by
      rw [Nat.add_right_comm, Nat.add_right_comm p]
      exact same (j + 1) (by omega)
    rw [Nat.add_right_comm, fetched, first, scan]
    dsimp only
    by_cases nul : mem p = 0
    · rw [if_pos nul, if_pos nul]
      rfl
    · rw [if_neg nul, if_neg nul, rest, Nat.add_right_comm srcva, Nat.add_assoc srcva]
      dsimp only
      split <;> rfl

theorem copyinstrFrom_zero (turns srcva : Nat) : copyinstrFrom root turns srcva 0 = pure (-1, []) := by
  cases turns <;> rfl

theorem wp_copyinstrFrom : ∀ {turns srcva max : Nat}, max ≤ turns →
    wp (copyinstrFrom root turns srcva max) s (fun r t => t = s ∧ r = fetched (userByte s.mem root) srcva max) E := by
  intro turns
  induction turns with
  | zero =>
    intro srcva max enough
    obtain rfl : max = 0 := by omega
    exact wp_pure ⟨rfl, rfl⟩
  | succ turns ih =>
    intro srcva max enough
    rw [copyinstrFrom]
    by_cases done : max = 0
    · subst done
      rw [if_pos rfl]
      exact wp_pure ⟨rfl, rfl⟩
    rw [if_neg done]
    refine wp_bind (wp_walkaddr ?_)
    rw [frame_rounddown]
    cases found : frame s.mem root srcva with
    | none =>
      obtain ⟨max, rfl⟩ := Nat.exists_eq_succ_of_ne_zero done
      refine wp_pure ⟨rfl, ?_⟩
      rw [fetched, userByte_none.2 found]
    | some pa =>
      rw [offset_eq]
      have inPage : srcva % PGSIZE < PGSIZE := Nat.mod_lt _ (by decide)
      generalize size : min (PGSIZE - srcva % PGSIZE) max = n
      have split := @fetched_scan _ _ (max - n) n _ _ fun j below => userByte_in_page found (j := j) (by omega)
      rw [Nat.add_sub_cancel' (by omega)] at split
      refine wp_bind (wp_get ?_)
      rcases scanned : scan s.mem n (pa + srcva % PGSIZE) with ⟨bytes, got_null⟩
      rw [scanned] at split
      dsimp only at split ⊢
      cases got_null with
      | true =>
        rw [if_pos rfl] at split
        exact wp_pure ⟨rfl, split.symm⟩
      | false =>
        rw [if_neg Bool.false_ne_true] at split
        rw [if_neg Bool.false_ne_true, split]
        by_cases whole : n = max
        · subst whole
          rw [Nat.sub_self, copyinstrFrom_zero]
          exact wp_bind (wp_pure (wp_pure ⟨rfl, rfl⟩))
        · rw [next_page found size whole]
          refine wp_bind (wp_imp (ih (by omega)) ?_)
          rintro r t ⟨rfl, rfl⟩
          exact wp_pure ⟨rfl, rfl⟩

theorem wp_copyinstr {max : Nat} :
    wp (copyinstr root srcva max) s (fun r t => t = s ∧ r = fetched (userByte s.mem root) srcva max) E :=
  wp_copyinstrFrom (Nat.le_refl max)

/-- **`copyinstr` is a function of the bytes user code sees.** -/
theorem copyinstr_run (srcva max : Nat) (s : Pool UInt8) :
    copyinstr root srcva max s = .ok (fetched (userByte s.mem root) srcva max, s) := by
  obtain ⟨r, t, ran, rfl, rfl⟩ := Returns.run wp_copyinstr
  exact ran

/-! ## Copying out -/

/-- A page table that maps no user page twice, and none of its own pages. -/
structure Separate (mem : Mem) (root : Nat) : Prop where
  aligned : root % PGSIZE = 0
  once : ∀ va va' pa, frame mem root va = some pa → frame mem root va' = some pa → va / PGSIZE = va' / PGSIZE
  apart : ∀ va pa, frame mem root va = some pa → tables mem root pa = 0

theorem pte2pa_aligned (pte : Nat) : PTE2PA pte % PGSIZE = 0 := by
  rw [PTE2PA, u64, Nat.shiftLeft_eq]
  simp only [PGSIZE]
  omega

/-- The pages of a table are pages. -/
theorem tables_aligned (aligned : root % PGSIZE = 0) (mine : 0 < tables mem root n) : n % PGSIZE = 0 :=
  Radix.count_induct (P := fun n => n % PGSIZE = 0) pte2pa_aligned aligned mine

namespace Separate

variable {mem m : Mem}

theorem page (at' : phys mem root va = some x) :
    ∃ pa, frame mem root va = some pa ∧ PGROUNDDOWN x = pa ∧ x % PGSIZE = va % PGSIZE := by
  obtain ⟨pa, found, rfl⟩ := Option.map_eq_some_iff.1 at'
  obtain ⟨_, pte, _, _, rfl, _⟩ := frame_eq_some.1 found
  have aligned := pte2pa_aligned pte
  refine ⟨_, found, rounddown_add aligned (Nat.mod_lt _ (by decide)), ?_⟩
  simp only [PGSIZE] at *
  omega

variable (separate : Separate mem root)
include separate

/-- Different user addresses are different places in memory. -/
theorem inj {va' : Nat} (at' : phys mem root va = some x) (at'' : phys mem root va' = some x) : va = va' := by
  obtain ⟨pa, found, is, offset⟩ := page at'
  obtain ⟨pa', found', is', offset'⟩ := page at''
  have same := separate.once va va' pa found (by rw [← is, is']; exact found')
  simp only [PGSIZE] at *
  omega

/-- Writing to user memory leaves the table as it is. -/
theorem write (outside : ∀ x, (∀ va, phys mem root va ≠ some x) → m x = mem x) :
    (∀ va, frame m root va = frame mem root va) ∧ Separate m root := by
  obtain ⟨sameTables, leaves, _, _⟩ := @table_same mem m root (fun n mine => tables_aligned separate.aligned mine)
    fun x inTable =>
    outside x fun va at' => by
      obtain ⟨pa, found, is, _⟩ := page at'
      rw [is, separate.apart va pa found] at inTable
      exact Nat.lt_irrefl 0 inTable
  have frames : ∀ va, frame m root va = frame mem root va := fun va => by rw [frame, frame, leaves]
  refine ⟨frames, separate.aligned, fun va va' pa => ?_, fun va pa => ?_⟩
  · rw [frames, frames]
    exact separate.once va va' pa
  · rw [frames, sameTables]
    exact separate.apart va pa

end Separate

/-- The first `k` bytes of a copy of `src` to `dstva` have been made, and nothing else. -/
structure Sent (root dstva : Nat) (src : Mem) (k : Nat) (s s' : Pool UInt8) : Prop where
  free : s'.free = s.free
  mapped : ∀ j < k, frame s.mem root (dstva + j) ≠ none
  bytes : ∀ j < k, ∀ x, phys s.mem root (dstva + j) = some x → s'.mem x = src j
  others : ∀ x, (∀ j < k, phys s.mem root (dstva + j) ≠ some x) → s'.mem x = s.mem x

namespace Sent

variable {dstva k k' : Nat} {src : Mem} {t : Pool UInt8}

theorem refl (dstva : Nat) (src : Mem) (s : Pool UInt8) : Sent root dstva src 0 s s where
  free := rfl
  mapped _ no := absurd no (Nat.not_lt_zero _)
  bytes _ no := absurd no (Nat.not_lt_zero _)
  others _ _ := rfl

theorem congr {src' : Mem} (sent : Sent root dstva src k s t) (same : ∀ j < k, src j = src' j) :
    Sent root dstva src' k s t :=
  { sent with bytes := fun j below x at' => (sent.bytes j below x at').trans (same j below) }

/-- Nothing was copied. -/
theorem eq_of_zero (sent : Sent root dstva src 0 s t) : t = s := by
  have same : t.mem = s.mem := funext fun x => sent.others x fun _ no => absurd no (Nat.not_lt_zero _)
  cases s
  cases t
  cases same
  cases sent.free
  rfl

theorem kept (sent : Sent root dstva src k s t) (separate : Separate s.mem root) :
    (∀ va, frame t.mem root va = frame s.mem root va) ∧ Separate t.mem root :=
  separate.write fun x none' => sent.others x fun j _ => none' (dstva + j)

/-- A part of one page. -/
theorem page (found : frame s.mem root dstva = some pa) (inside : dstva % PGSIZE + n ≤ PGSIZE) :
    Sent root dstva src n s { s with mem := blit s.mem (pa + dstva % PGSIZE) n src } where
  free := rfl
  mapped j below := by
    rw [frame_in_page found (by omega)]
    exact Option.some_ne_none pa
  bytes j below x at' := by
    rw [phys_in_page found (by omega)] at at'
    cases at'
    dsimp only
    rw [blit_in (by omega) (by omega), Nat.add_sub_cancel_left]
  others x none' := by
    apply blit_out
    by_contra within
    refine none' (x - (pa + dstva % PGSIZE)) (by omega) ?_
    rw [phys_in_page found (by omega)]
    congr 1
    omega

theorem trans (separate : Separate s.mem root) (first : Sent root dstva src k s t)
    (second : Sent root (dstva + k) (fun j => src (k + j)) k' t s') : Sent root dstva src (k + k') s s' := by
  obtain ⟨frames, _⟩ := first.kept separate
  have places : ∀ va, phys t.mem root va = phys s.mem root va := fun va => by rw [phys, phys, frames]
  have later : ∀ j, k ≤ j → dstva + k + (j - k) = dstva + j := fun j low => by omega
  refine ⟨second.free.trans first.free, fun j below => ?_, fun j below x at' => ?_, fun x none' => ?_⟩
  · by_cases early : j < k
    · exact first.mapped j early
    · have mapped := second.mapped (j - k) (by omega)
      rwa [frames, later j (by omega)] at mapped
  · by_cases early : j < k
    · rw [second.others x fun i _ at'' => ?_, first.bytes j early x at']
      rw [places] at at''
      have same := separate.inj at' at''
      omega
    · have written := second.bytes (j - k) (by omega) x (by rw [places, later j (by omega)]; exact at')
      rwa [Nat.add_sub_cancel' (by omega)] at written
  · rw [second.others x fun j below at' => ?_, first.others x fun j below => none' j (by omega)]
    rw [places, Nat.add_assoc] at at'
    exact none' (k + j) (by omega) at'

end Sent

theorem copyoutFrom_zero (turns dstva : Nat) (src : Mem) : copyoutFrom root turns dstva src 0 = pure 0 := by
  cases turns <;> rfl

theorem wp_copyoutFrom_sent : ∀ {turns dstva len : Nat} {src : Mem} {s : Pool UInt8} {Q : Int → Pool UInt8 → Prop},
    len ≤ turns → Separate s.mem root →
    (∀ k s', Sent root dstva src k s s' → k ≤ len → (k < len → frame s.mem root (dstva + k) = none) →
      Q (if k = len then 0 else -1) s') →
    wp (copyoutFrom root turns dstva src len) s Q E := by
  intro turns
  induction turns with
  | zero =>
    intro dstva len src s Q enough separate post
    obtain rfl : len = 0 := by omega
    exact wp_pure (post 0 s (.refl dstva src s) (Nat.le_refl 0) (fun no => absurd no (Nat.lt_irrefl 0)))
  | succ turns ih =>
    intro dstva len src s Q enough separate post
    rw [copyoutFrom]
    by_cases done : len = 0
    · subst done
      rw [if_pos rfl]
      exact wp_pure (post 0 s (.refl dstva src s) (Nat.le_refl 0) (fun no => absurd no (Nat.lt_irrefl 0)))
    rw [if_neg done]
    refine wp_bind (wp_walkaddr ?_)
    rw [frame_rounddown]
    cases found : frame s.mem root dstva with
    | none =>
      have result := post 0 s (.refl dstva src s) (Nat.zero_le len) (fun _ => found)
      rw [if_neg (Ne.symm done)] at result
      exact wp_pure result
    | some pa =>
      simp only [offset_eq]
      have inPage : dstva % PGSIZE < PGSIZE := Nat.mod_lt _ (by decide)
      generalize size : min (PGSIZE - dstva % PGSIZE) len = n
      have first : Sent root dstva src n s _ := .page found (by omega)
      obtain ⟨frames, separate'⟩ := first.kept separate
      refine wp_bind (wp_modify ?_)
      by_cases whole : n = len
      · subst whole
        rw [Nat.sub_self, copyoutFrom_zero]
        have result := post n _ first (Nat.le_refl n) (fun no => absurd no (Nat.lt_irrefl n))
        rw [if_pos rfl] at result
        exact wp_pure result
      · rw [next_page found size whole]
        refine ih (by omega) separate' fun k s' rest le stops => ?_
        have result := post (n + k) s' (first.trans separate rest) (by omega) fun less => by
          rw [← Nat.add_assoc, ← frames]
          exact stops (by omega)
        have iff : n + k = len ↔ k = len - n := by omega
        simp only [iff] at result
        exact result

/-- `copyout` does not panic, whatever the table is. -/
theorem copyout_returns :
    ∀ {dstva len : Nat} {src : Mem} {s : Pool UInt8}, wp (copyout root dstva src len) s (fun _ _ => True) E := by
  suffices loop : ∀ turns {dstva len : Nat} {src : Mem} {s : Pool UInt8},
    wp (copyoutFrom root turns dstva src len) s (fun _ _ => True) E from
    fun {_ len} => loop len
  intro turns
  induction turns with
  | zero => exact fun {_ _ _ _} => wp_pure trivial
  | succ turns ih =>
    intro dstva len src s
    rw [copyoutFrom]
    split
    · exact wp_pure trivial
    · refine wp_bind (wp_walkaddr ?_)
      cases frame s.mem root (PGROUNDDOWN dstva) with
      | none => exact wp_pure trivial
      | some pa => exact wp_bind (wp_modify ih)

/-- **`copyout` up to the first page that cannot be reached.** -/
theorem wp_copyout_sent {dstva : Nat} {src : Mem} {Q : Int → Pool UInt8 → Prop} (separate : Separate s.mem root)
    (post : ∀ k s', Sent root dstva src k s s' → k ≤ len → (k < len → frame s.mem root (dstva + k) = none) →
      Q (if k = len then 0 else -1) s') : wp (copyout root dstva src len) s Q E :=
  wp_copyoutFrom_sent (Nat.le_refl len) separate post

/-! ## Any page table -/

/-- User code can reach the page of `va`: it is below `MAXVA`, mapped, and open to user code. -/
def Accessible (mem : Mem) (root va : Nat) : Prop :=
  va < MAXVA ∧ ∃ pte, leaf mem root (va / PGSIZE) = some pte ∧ pte &&& PTE_U ≠ 0

/-- The user pages of the table are pairwise distinct physical pages. -/
def Distinct (mem : Mem) (root : Nat) : Prop := ∀ va va' pte pte', va < MAXVA → va' < MAXVA →
  leaf mem root (va / PGSIZE) = some pte → leaf mem root (va' / PGSIZE) = some pte' →
    pte &&& PTE_U ≠ 0 → pte' &&& PTE_U ≠ 0 →
  PTE2PA pte = PTE2PA pte' → va / PGSIZE = va' / PGSIZE

/-- None of the user pages is the physical page 0. -/
def NoPageZero (mem : Mem) (root : Nat) : Prop := ∀ va pte, va < MAXVA → leaf mem root (va / PGSIZE) = some pte →
    pte &&& PTE_U ≠ 0 →
  PTE2PA pte ≠ 0

/-- None of the user pages is a page of the table. -/
def NoTablePage (mem : Mem) (root : Nat) : Prop := ∀ va pte, va < MAXVA → leaf mem root (va / PGSIZE) = some pte →
    pte &&& PTE_U ≠ 0 →
  tables mem root (PTE2PA pte) = 0

/-- Of `len` bytes from `va` on, `k` come before the first page that user code cannot reach. -/
structure Reached (mem : Mem) (root va len k : Nat) : Prop where
  le : k ≤ len
  before : ∀ j < k, Accessible mem root (va + j)
  stops : k < len → ¬ Accessible mem root (va + k) ∧ (k = 0 ∨ (va + k) % PGSIZE = 0)

section Tables

variable {mem : Mem}

theorem accessible_iff (pages : NoPageZero mem root) : Accessible mem root va ↔ frame mem root va ≠ none := by
  rw [Option.ne_none_iff_exists']
  constructor
  · rintro ⟨range, pte, mapped, user⟩
    exact ⟨PTE2PA pte, frame_eq_some.2 ⟨range, pte, mapped, user, rfl, pages va pte range mapped user⟩⟩
  · rintro ⟨pa, found⟩
    obtain ⟨range, pte, mapped, user, _⟩ := frame_eq_some.1 found
    exact ⟨range, pte, mapped, user⟩

theorem Distinct.separate (distinct : Distinct mem root) (apart : NoTablePage mem root) (aligned : root % PGSIZE = 0) :
    Separate mem root where
  aligned := aligned
  once va va' pa found found' := by
    obtain ⟨range, pte, mapped, user, is, _⟩ := frame_eq_some.1 found
    obtain ⟨range', pte', mapped', user', is', _⟩ := frame_eq_some.1 found'
    exact distinct va va' pte pte' range range' mapped mapped' user user' (is.trans is'.symm)
  apart va pa found := by
    obtain ⟨range, pte, mapped, user, rfl, _⟩ := frame_eq_some.1 found
    exact apart va pte range mapped user

theorem userByte_of_accessible (pages : NoPageZero mem root) (reach : Accessible mem root va) :
    ∃ x, userByte mem root va = some x :=
  Option.ne_none_iff_exists'.1 fun none' => (accessible_iff pages).1 reach (userByte_none.1 none')

theorem accessible_of_userByte (pages : NoPageZero mem root) {x : UInt8} (sees : userByte mem root va = some x) :
    Accessible mem root va :=
  (accessible_iff pages).2 fun none' => Option.some_ne_none x (sees.symm.trans (userByte_none.2 none'))

/-- How far a copy gets. -/
theorem Reached.of_frames (pages : NoPageZero mem root) (le : k ≤ len)
    (mapped : ∀ j < k, frame mem root (va + j) ≠ none)
    (stops : k < len → frame mem root (va + k) = none) : Reached mem root va len k := by
  refine ⟨le, fun j below => (accessible_iff pages).2 (mapped j below), fun less => ⟨?_, ?_⟩⟩
  · rw [accessible_iff pages, not_not]
    exact stops less
  · by_contra inside
    have last := mapped (k - 1) (by omega)
    have same : (va + (k - 1)) / PGSIZE = (va + k) / PGSIZE := by
      simp only [PGSIZE] at *
      omega
    rw [frame_same_page mem root same] at last
    exact last (stops less)

theorem Reached.whole_iff (reached : Reached mem root va len k) :
    k = len ↔ ∀ j < len, Accessible mem root (va + j) := by
  constructor
  · rintro rfl
    exact reached.before
  · intro all
    by_contra part
    have less := Nat.lt_of_le_of_ne reached.le part
    exact (reached.stops less).1 (all k less)

end Tables

/-! ## A table of one page -/

/-- A memory whose table at 4096 maps the page 0 by `pte`, and no other page. -/
def tower (pte : Nat) : Pool UInt8 where
  mem := store 8 (store 8 (store 8 (fun _ => 0) 4096 (PA2PTE 8192 ||| PTE_V)) 8192 (PA2PTE 12288 ||| PTE_V)) 12288 pte
  free := []

section Tower

variable {mem : Mem} {n n' v i pte : Nat}

theorem entry_other (aligned : n % PGSIZE = 0) (aligned' : n' % PGSIZE = 0) (ne : n' ≠ n) (range : i < 512) :
    entry (store 8 mem n v) n' i = entry mem n' i :=
  entry_store_ne (d := 0) aligned aligned' (by decide) range (.inl ne)

theorem entry_first (aligned : n % PGSIZE = 0) (small : v < 2 ^ 64) (valid : v &&& PTE_V ≠ 0)
    (empty : entry mem n i = none) (range : i < 512) :
    entry (store 8 mem n v) n i = if i = 0 then some v else none := by
  by_cases zero : i = 0
  · subst zero
    rw [if_pos rfl]
    exact (entry_store_self (d := 0) small).trans (if_pos valid)
  · rw [if_neg zero]
    exact (entry_store_ne (d := 0) aligned aligned (by decide) range (.inr zero)).trans empty

theorem entry_blank (n i : Nat) : entry (fun _ => 0) n i = none := by
  rw [entry, load_zero fun _ _ => rfl]
  rfl

theorem entry_tower (small : pte < 2 ^ 64) (valid : pte &&& PTE_V ≠ 0) (range : i < 512) :
    entry (tower pte).mem 4096 i = (if i = 0 then some (PA2PTE 8192 ||| PTE_V) else none) ∧
      entry (tower pte).mem 8192 i = (if i = 0 then some (PA2PTE 12288 ||| PTE_V) else none) ∧
      entry (tower pte).mem 12288 i = if i = 0 then some pte else none := by
  unfold tower
  refine ⟨?_, ?_, ?_⟩
  · rw [entry_other (by decide) (by decide) (by decide) range, entry_other (by decide) (by decide) (by decide) range]
    exact entry_first (by decide) (by decide) (by decide) (entry_blank 4096 i) range
  · rw [entry_other (by decide) (by decide) (by decide) range]
    refine entry_first (by decide) (by decide) (by decide) ?_ range
    rw [entry_other (by decide) (by decide) (by decide) range, entry_blank]
  · refine entry_first (by decide) small valid ?_ range
    rw [entry_other (by decide) (by decide) (by decide) range, entry_other (by decide) (by decide) (by decide) range,
      entry_blank]

/-- The tower maps the page 0 only. -/
theorem leaf_tower (small : pte < 2 ^ 64) (valid : pte &&& PTE_V ≠ 0) (range : j < 2 ^ 27) :
    leaf (tower pte).mem 4096 j = if j = 0 then some pte else none := by
  have digits := fun l => Radix.digit_lt (w := 512) (by decide) l j
  have low : j = 0 ↔ Radix.digit 512 2 j = 0 ∧ Radix.digit 512 1 j = 0 ∧ Radix.digit 512 0 j = 0 := by
    simp only [Radix.digit]
    omega
  have second : PTE2PA (PA2PTE 8192 ||| PTE_V) = 8192 := by decide
  have third : PTE2PA (PA2PTE 12288 ||| PTE_V) = 12288 := by decide
  rw [leaf, value, Radix.lookup_succ, (entry_tower small valid (digits 2)).1]
  by_cases top : Radix.digit 512 2 j = 0
  · rw [if_pos top, Option.bind_some, second, Radix.lookup_succ, (entry_tower small valid (digits 1)).2.1]
    by_cases middle : Radix.digit 512 1 j = 0
    · rw [if_pos middle, Option.bind_some, third]
      refine (entry_tower small valid (digits 0)).2.2.trans ?_
      simp only [low, top, middle, true_and]
    · simp [middle, low]
  · simp [top, low]

/-- A table of level `l` that has its entry 0 only. -/
theorem nodes_single {l b q : Nat} (single : ∀ i < 512, entry mem b i = if i = 0 then some x else none) :
    nodes mem (l + 1) b q = one b q + nodes mem l (PTE2PA x) q := by
  have first : entry mem b 0 = some x := (single 0 (by decide)).trans (if_pos rfl)
  rw [nodes, Radix.count_succ, Finset.sum_eq_single 0, Radix.kid_some first]
  · intro i inside other
    exact Radix.kid_none ((single i (Finset.mem_range.1 inside)).trans (if_neg other))
  · exact fun out => absurd (Finset.mem_range.2 (by decide)) out

variable (small : pte < 2 ^ 64)
include small

theorem tables_tower (valid : pte &&& PTE_V ≠ 0) (q : Nat) :
    tables (tower pte).mem 4096 q = one 4096 q + (one 8192 q + one 12288 q) := by
  rw [tables, nodes_single fun i range => (entry_tower small valid range).1,
    show PTE2PA (PA2PTE 8192 ||| PTE_V) = 8192 from by decide,
    nodes_single fun i range => (entry_tower small valid range).2.1,
    show PTE2PA (PA2PTE 12288 ||| PTE_V) = 12288 from by decide]
  rfl

/-- The entry for user code's page at `pa`. -/
abbrev userPte (pa : Nat) : Nat := PA2PTE pa ||| PTE_V ||| PTE_R ||| PTE_W ||| PTE_U

theorem tower_only (valid : pte &&& PTE_V ≠ 0) {pte' : Nat} (range : va < MAXVA)
    (mapped : leaf (tower pte).mem 4096 (va / PGSIZE) = some pte') : va / PGSIZE = 0 ∧ pte' = pte := by
  rw [leaf_tower small valid (by simp only [MAXVA, PGSIZE] at *; omega)] at mapped
  by_cases zero : va / PGSIZE = 0
  · rw [if_pos zero] at mapped
    exact ⟨zero, (Option.some.inj mapped).symm⟩
  · rw [if_neg zero] at mapped
    exact absurd mapped.symm (Option.some_ne_none pte')

theorem tower_distinct (valid : pte &&& PTE_V ≠ 0) : Distinct (tower pte).mem 4096 :=
  fun _ _ _ _ range range' mapped mapped' _ _ _ =>
    (tower_only small valid range mapped).1.trans (tower_only small valid range' mapped').1.symm

theorem tower_noPageZero (valid : pte &&& PTE_V ≠ 0) (pos : PTE2PA pte ≠ 0) : NoPageZero (tower pte).mem 4096 := by
  intro va pte' range mapped _
  rw [(tower_only small valid range mapped).2]
  exact pos

theorem tower_noTablePage (valid : pte &&& PTE_V ≠ 0)
    (apart : one 4096 (PTE2PA pte) + (one 8192 (PTE2PA pte) + one 12288 (PTE2PA pte)) = 0) :
    NoTablePage (tower pte).mem 4096 := by
  intro va pte' range mapped _
  rw [(tower_only small valid range mapped).2, tables_tower small valid]
  exact apart

theorem tower_accessible (valid : pte &&& PTE_V ≠ 0) (user : pte &&& PTE_U ≠ 0) (first : va < PGSIZE) :
    Accessible (tower pte).mem 4096 va := by
  refine ⟨Nat.lt_trans first (by decide), pte, ?_, user⟩
  rw [Nat.div_eq_of_lt first]
  exact leaf_tower small valid (by decide)

end Tower

/-! ## The copies are exact -/

theorem status_zero : (if k = len then 0 else -1 : Int) = 0 ↔ k = len := by
  split
  · next is => exact ⟨fun _ => is, fun _ => rfl⟩
  · next isNot => exact ⟨fun no => absurd no (by decide), fun is => absurd is isNot⟩

/-- **`copyout` and `copyin` are exact.**  Let no user page of a table be physical page 0, and for
`copyout` let them also be distinct and none of them a page of the table.  Then `copyout` and
`copyin` return 0 iff user code can reach every page of the range, and the range does not reach
`MAXVA` then; otherwise they return -1 and stop at the first page that cannot be reached.  Up to
there the bytes are copied, and `copyout` changes no other byte of memory.  After `copyout` has
returned 0, `copyin` of the range returns what was written. -/
theorem copy_exact (s : Pool UInt8) (root : Nat) (pages : NoPageZero s.mem root) (va len : Nat) (src : Mem) :
    (root % PGSIZE = 0 → Distinct s.mem root → NoTablePage s.mem root →
      ∃ r s' k, copyout root va src len s = .ok (r, s') ∧ (r = 0 ∨ r = -1) ∧
      (r = 0 ↔ ∀ j < len, Accessible s.mem root (va + j)) ∧ (r = 0 ↔ k = len) ∧ (r = 0 → len = 0 ∨ va + len ≤ MAXVA) ∧
      Reached s.mem root va len k ∧ (∀ j < k, userByte s'.mem root (va + j) = some (src j)) ∧
      (∀ x, (∀ j < k, phys s.mem root (va + j) ≠ some x) → s'.mem x = s.mem x) ∧ s'.free = s.free ∧
      (r = 0 → copyin root va len s' = .ok ((0, (List.range len).map src), s'))) ∧
    (∃ r bytes k, copyin root va len s = .ok ((r, bytes), s) ∧ (r = 0 ∨ r = -1) ∧
      (r = 0 ↔ ∀ j < len, Accessible s.mem root (va + j)) ∧ (r = 0 ↔ k = len) ∧ (r = 0 → len = 0 ∨ va + len ≤ MAXVA) ∧
      Reached s.mem root va len k ∧ bytes.length = k ∧ ∀ j < k, bytes[j]? = userByte s.mem root (va + j)) := by
  have low : ∀ {k}, Reached s.mem root va len k → k = len → len = 0 ∨ va + len ≤ MAXVA := by
    rintro k reached rfl
    by_cases none' : k = 0
    · exact .inl none'
    · have last := (reached.before (k - 1) (by omega)).1
      exact .inr (by omega)
  refine ⟨fun aligned distinct apart => ?_, ?_⟩
  · have separate := distinct.separate apart aligned
    have run : Returns (copyout root va src len) s fun r s' => ∃ k, Reached s.mem root va len k ∧
      r = (if k = len then 0 else -1) ∧
        Sent root va src k s s' := by
      apply wp_copyout_sent separate
      exact fun k s' sent le stops => ⟨k, .of_frames pages le sent.mapped stops, rfl, sent⟩
    obtain ⟨r, s', ran, k, reached, rfl, sent⟩ := run.run
    obtain ⟨frames, _⟩ := sent.kept separate
    have bytes : ∀ j < k, userByte s'.mem root (va + j) = some (src j) := by
      intro j below
      obtain ⟨pa, found⟩ := Option.ne_none_iff_exists'.1 (sent.mapped j below)
      have at' : phys s.mem root (va + j) = some (pa + (va + j) % PGSIZE) := by rw [phys, found, Option.map_some]
      rw [userByte, frames, found, Option.map_some, sent.bytes j below _ at']
    refine ⟨_, s', k, ran, ?_, status_zero.trans reached.whole_iff, status_zero,
      fun ok => low reached (status_zero.1 ok), reached, bytes,
      sent.others, sent.free, fun ok => ?_⟩
    · split
      · exact .inl rfl
      · exact .inr rfl
    · obtain rfl := status_zero.1 ok
      have whole := @seen_add 0 k va _ src bytes
      rw [seen, List.append_nil] at whole
      rw [copyin_run]
      exact congrArg (fun r => Except.ok (r, s')) whole
  · obtain ⟨k, le, mapped, stops, ran⟩ := copyin_cases root va len s
    have reached : Reached s.mem root va len k := .of_frames pages le mapped stops
    refine ⟨_, _, k, ran, ?_, status_zero.trans reached.whole_iff, status_zero,
      fun ok => low reached (status_zero.1 ok), reached, by simp,
      fun j below => ?_⟩
    · split
      · exact .inl rfl
      · exact .inr rfl
    · obtain ⟨x, is⟩ := Option.ne_none_iff_exists'.1 fun none' => mapped j below (userByte_none.1 none')
      rw [is]
      simp [List.getElem?_range below, is]

theorem copy_exact_sample : Distinct (tower (userPte 16384)).mem 4096 ∧ NoPageZero (tower (userPte 16384)).mem 4096 ∧
    NoTablePage (tower (userPte 16384)).mem 4096 ∧
    ∃ r s' k, copyout 4096 4090 (fun j => UInt8.ofNat j) 10 (tower (userPte 16384)) = .ok (r, s') ∧
      Reached (tower (userPte 16384)).mem 4096 4090 10 k ∧ ∀ j < k, userByte s'.mem 4096 (4090 + j) =
      some (UInt8.ofNat j) := by
  have distinct : Distinct (tower (userPte 16384)).mem 4096 := tower_distinct (by decide) (by decide)
  have pages : NoPageZero (tower (userPte 16384)).mem 4096 := tower_noPageZero (by decide) (by decide) (by decide)
  have apart : NoTablePage (tower (userPte 16384)).mem 4096 := tower_noTablePage (by decide) (by decide) (by decide)
  obtain ⟨r, s', k, ran, _, _, _, _, reached, bytes, _⟩ :=
    (copy_exact _ 4096 pages 4090 10 fun j => UInt8.ofNat j).1 (by decide) distinct apart
  exact ⟨distinct, pages, apart, r, s', k, ran, reached, bytes⟩

/-- `walkaddr` answers 0 for a page that is not mapped, so that a user page at physical address 0
counts as not mapped. -/
theorem copyout_refuses_page_zero : Distinct (tower (userPte 0)).mem 4096 ∧ NoTablePage (tower (userPte 0)).mem 4096 ∧
    (∀ j < 1, Accessible (tower (userPte 0)).mem 4096 (0 + j)) ∧
    (copyout 4096 0 (fun _ => 7) 1 (tower (userPte 0))).toOption.map Prod.fst = some (-1) := by
  refine ⟨tower_distinct (by decide) (by decide), tower_noTablePage (by decide) (by decide) (by decide),
    fun j below => ?_, by decide +kernel⟩
  exact tower_accessible (by decide) (by decide) (by decide)
    (by rw [Nat.zero_add]; exact Nat.lt_trans below (by decide))

/-- Where a user page is a page of the table, `copyout` can take the range away: it returns 0, and
`copyin` then finds nothing mapped. -/
theorem copyout_unmaps_itself : Distinct (tower (userPte 12288)).mem 4096 ∧
    NoPageZero (tower (userPte 12288)).mem 4096 ∧
    (copyout 4096 0 (fun _ => 0) 8 (tower (userPte 12288))).toOption.map (fun x =>
      (x.1, (copyin 4096 0 8 x.2).toOption.map (·.1))) =
      some (0, some (-1, [])) :=
  ⟨tower_distinct (by decide) (by decide), tower_noPageZero (by decide) (by decide) (by decide), by decide +kernel⟩

/-- A string of `k` bytes and its NUL stands at `srcva`, and user code can reach all its pages. -/
structure UserString (mem : Mem) (root srcva k : Nat) : Prop where
  reach : ∀ j ≤ k, Accessible mem root (srcva + j)
  nul : userByte mem root (srcva + k) = some 0
  before : ∀ j < k, userByte mem root (srcva + j) ≠ some 0

theorem userString_iff (pages : NoPageZero mem root) :
    UserString mem root srcva k ↔ Ends (userByte mem root) srcva k := by
  constructor
  · intro string
    refine ⟨string.nul, fun j below => ?_⟩
    obtain ⟨x, sees⟩ := userByte_of_accessible pages (string.reach j (Nat.le_of_lt below))
    exact ⟨x, sees, fun zero => string.before j below (sees.trans (congrArg some zero))⟩
  · intro ends
    refine ⟨fun j le => ?_, ends.nul, fun j below zero => ?_⟩
    · rcases Nat.lt_or_eq_of_le le with below | rfl
      · obtain ⟨x, sees, _⟩ := ends.before j below
        exact accessible_of_userByte pages sees
      · exact accessible_of_userByte pages ends.nul
    · obtain ⟨x, sees, pos⟩ := ends.before j below
      exact pos (Option.some.inj (sees.symm.trans zero))

/-- The buffer `dst` after the bytes were written to its front. -/
def filled (dst : Mem) (bytes : List UInt8) : Mem := fun i => bytes.getD i (dst i)

theorem filled_of_le (dst : Mem) {bytes : List UInt8} {i : Nat} (le : bytes.length ≤ i) :
    filled dst bytes i = dst i := by
  rw [filled, List.getD, List.getElem?_eq_none le, Option.getD_none]

/-- **`copyinstr` reads one bounded string.**  Let no user page of the table be physical page 0.
Then `copyinstr` returns 0 iff a string stands at `srcva` whose NUL is among the first `max` bytes
and whose pages user code can reach; then `dst` starts with the string and its NUL and is
otherwise as before, and every memory in which user code sees the same string gives the same
result, whatever comes after the NUL.  It writes at most `max` bytes, and changes nothing else. -/
theorem copyinstr_exact (s : Pool UInt8) (root : Nat) (pages : NoPageZero s.mem root) (srcva max : Nat) (dst : Mem) :
    ∃ r bytes, copyinstr root srcva max s = .ok ((r, bytes), s) ∧ (r = 0 ∨ r = -1) ∧ bytes.length ≤ max ∧
      (∀ i, max ≤ i → filled dst bytes i = dst i) ∧ (r = 0 ↔ ∃ k < max, UserString s.mem root srcva k) ∧
      ∀ k < max, UserString s.mem root srcva k →
        (∀ j ≤ k, userByte s.mem root (srcva + j) = some (filled dst bytes j)) ∧
        (∀ j, k < j → filled dst bytes j = dst j) ∧
        ∀ t : Pool UInt8, (∀ j ≤ k, userByte t.mem root (srcva + j) = userByte s.mem root (srcva + j)) →
          copyinstr root srcva max t = .ok ((0, bytes), t) := by
  have short := @fetched_length (userByte s.mem root) max srcva
  refine ⟨_, _, copyinstr_run srcva max s, ?_, short, fun i above => ?_, ?_, fun k below string => ?_⟩
  · exact (fetched_status max srcva).imp And.left And.left
  · exact filled_of_le dst (Nat.le_trans short above)
  · simp only [userString_iff pages]
    rcases @fetched_status (userByte s.mem root) max srcva with ⟨ok, found⟩ | ⟨failed, missing⟩
    · exact ⟨fun _ => found, fun _ => ok⟩
    · rw [failed]
      exact ⟨fun no => absurd no (by decide), fun ⟨k, below, ends⟩ => absurd ends (missing k below)⟩
  · have ends := (userString_iff pages).1 string
    rw [fetched_ends below ends]
    refine ⟨fun j le => ?_, fun j above => ?_, fun t same => ?_⟩
    · obtain ⟨x, sees⟩ := userByte_of_accessible pages (string.reach j le)
      simp [filled, List.getD, List.getElem?_range (Nat.lt_succ_of_le le), sees]
    · apply filled_of_le
      rw [List.length_map, List.length_range]
      exact above
    · have ends' : Ends (userByte t.mem root) srcva k := by
        refine ⟨(same k (Nat.le_refl k)).trans ends.nul, fun j less => ?_⟩
        rw [same j (Nat.le_of_lt less)]
        exact ends.before j less
      rw [copyinstr_run, fetched_ends below ends']
      refine congrArg (fun l => Except.ok ((0, l), t)) (List.map_congr_left fun j inside => ?_)
      rw [same j (Nat.le_of_lt_succ (List.mem_range.1 inside))]

/-- User code that is let to read the root of its table finds a string of two bytes in the first
entry. -/
theorem copyinstr_exact_sample : NoPageZero (tower (userPte 4096)).mem 4096 ∧
    UserString (tower (userPte 4096)).mem 4096 0 2 ∧
    ∃ bytes, copyinstr 4096 0 128 (tower (userPte 4096)) = .ok ((0, bytes), tower (userPte 4096)) ∧
      filled (fun _ => 9) bytes 0 = 1 ∧ filled (fun _ => 9) bytes 1 = 8 ∧ ∀ j, 2 < j →
      filled (fun _ => 9) bytes j = 9 := by
  have pages : NoPageZero (tower (userPte 4096)).mem 4096 := tower_noPageZero (by decide) (by decide) (by decide)
  have first : userByte (tower (userPte 4096)).mem 4096 0 = some 1 := by decide +kernel
  have second : userByte (tower (userPte 4096)).mem 4096 1 = some 8 := by decide +kernel
  have string : UserString (tower (userPte 4096)).mem 4096 0 2 := by
    refine ⟨fun j le => ?_, by decide +kernel, fun j below => ?_⟩
    · exact tower_accessible (by decide) (by decide) (by decide)
        (Nat.lt_of_le_of_lt (by omega) (show 2 < PGSIZE by decide))
    · obtain rfl | rfl : j = 0 ∨ j = 1 := by omega
      · simp [first]
      · simp [second]
  obtain ⟨r, bytes, ran, _, _, _, ok, exact'⟩ := copyinstr_exact _ 4096 pages 0 128 fun _ => 9
  obtain rfl := ok.2 ⟨2, by decide, string⟩
  obtain ⟨copied, rest, _⟩ := exact' 2 (by decide) string
  exact ⟨pages, string, bytes, ran, (Option.some.inj (first.symm.trans (copied 0 (by decide)))).symm,
    (Option.some.inj (second.symm.trans (copied 1 (by decide)))).symm, rest⟩

/-- A string in a user page at physical address 0 is refused. -/
theorem copyinstr_refuses_page_zero : Accessible (tower (userPte 0)).mem 4096 0 ∧ (tower (userPte 0)).mem 0 = 0 ∧
    copyinstr 4096 0 1 (tower (userPte 0)) = .ok ((-1, []), tower (userPte 0)) := by
  refine ⟨tower_accessible (by decide) (by decide) (by decide) (by decide), by decide +kernel, ?_⟩
  have hidden : userByte (tower (userPte 0)).mem 4096 0 = none := by decide +kernel
  rw [copyinstr_run, fetched, hidden]

end Xv6.Kernel.Vm
