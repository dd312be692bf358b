/-
# Kernel.PageTable -- Sv39 page tables

`walk`, `mappages`, `uvmunmap` and `freewalk` of `vm.c`.  A page table is a radix
tree of level 2 (`Theory.Radix`) whose nodes are physical pages and whose entries
are read from memory: `tables mem root` counts its pages and `leaf mem root k` is
the valid leaf entry of virtual page `k`.  Each function gets one contract, which
says what happens to both; nothing above this module looks at entries again.
-/
import Xv6.Kernel.Kalloc
import Xv6.Theory.Radix
import Mathlib.Algebra.BigOperators.Intervals

namespace Xv6.Kernel.Vm

set_option autoImplicit false

open Xv6.Theory Xv6.Theory.Bytes Xv6.Theory.Prog

/-! ## Page-table entries -/

abbrev PTE_V : Nat := 1
abbrev PTE_R : Nat := 2
abbrev PTE_W : Nat := 4
abbrev PTE_X : Nat := 8
abbrev PTE_U : Nat := 16

def PA2PTE (pa : Nat) : Nat := (pa >>> 12) <<< 10
def PTE2PA (pte : Nat) : Nat := u64 ((pte >>> 10) <<< 12)
def PTE_FLAGS (pte : Nat) : Nat := pte &&& 0x3FF
def PX (level va : Nat) : Nat := (va >>> (12 + 9 * level)) &&& 0x1FF

/-! ## The code -/

/-- The loop of `walk`, from `level` down. -/
def walkFrom (alloc : Bool) : Nat → Nat → Nat → Kern (Option Nat)
  | 0, pagetable, va => pure (some (pagetable + 8 * PX 0 va))
  | level + 1, pagetable, va => do
      let slot := pagetable + 8 * PX (level + 1) va
      let pte ← peek 8 slot
      if pte &&& PTE_V ≠ 0 then
        walkFrom alloc level (PTE2PA pte) va
      else if !alloc then
        pure none
      else
        match ← kalloc with
        | none => pure none
        | some page => do
            memset page 0 PGSIZE
            poke 8 slot (PA2PTE page ||| PTE_V)
            walkFrom alloc level page va

/-- The address of the entry for `va`. -/
def walk (pagetable va : Nat) (alloc : Bool) : Kern (Option Nat) :=
  if MAXVA ≤ va then throw .walk else walkFrom alloc 2 pagetable va

/-- The result 0 says that `va` is not mapped; so does a leaf with the physical page 0. -/
def walkaddr (pagetable va : Nat) : Kern (Option Nat) := do
  if MAXVA ≤ va then
    pure none
  else
    match ← walk pagetable va false with
    | none => pure none
    | some slot => do
        let pte ← peek 8 slot
        if pte &&& PTE_V = 0 then pure none
        else if pte &&& PTE_U = 0 then pure none
        else if PTE2PA pte = 0 then pure none
        else pure (some (PTE2PA pte))

/-- The loop of `mappages`.  After `MAXVA / PGSIZE` turns the address has left the
range `walk` accepts. -/
def mappagesFrom (pagetable last perm : Nat) : Nat → Nat → Nat → Kern Int
  | 0, _, _ => throw .walk
  | n + 1, a, pa => do
      match ← walk pagetable a true with
      | none => pure (-1)
      | some slot => do
          let pte ← peek 8 slot
          if pte &&& PTE_V ≠ 0 then
            throw .mappagesRemap
          else do
            poke 8 slot (PA2PTE pa ||| perm ||| PTE_V)
            if a = last then pure 0 else mappagesFrom pagetable last perm n (u64 (a + PGSIZE)) (u64 (pa + PGSIZE))

def mappages (pagetable va size pa perm : Nat) : Kern Int :=
  if size = 0 then throw .mappagesSize
  else mappagesFrom pagetable (PGROUNDDOWN (u64 (va + size - 1))) perm (MAXVA / PGSIZE) (PGROUNDDOWN va) pa

/-- `n` turns of the loop of `uvmunmap`, from `a` on. -/
def uvmunmapFrom (img : Image) (pagetable : Nat) (do_free : Bool) : Nat → Nat → Kern Unit
  | 0, _ => pure ()
  | n + 1, a => do
      match ← walk pagetable a false with
      | none => throw .uvmunmapWalk
      | some slot => do
          let pte ← peek 8 slot
          if pte &&& PTE_V = 0 then
            throw .uvmunmapNotMapped
          else if PTE_FLAGS pte = PTE_V then
            throw .uvmunmapNotALeaf
          else do
            when (do_free = true) (kfree img (PTE2PA pte))
            poke 8 slot 0
            uvmunmapFrom img pagetable do_free n (a + PGSIZE)

/-- The loop runs while `a < va + npages*PGSIZE`. -/
def uvmunmap (img : Image) (pagetable va npages : Nat) (do_free : Bool) : Kern Unit :=
  if va % PGSIZE ≠ 0 then throw .uvmunmapNotAligned
  else uvmunmapFrom img pagetable do_free ((u64 (va + npages * PGSIZE) - va + (PGSIZE - 1)) / PGSIZE) va

/-- One turn of the loop of `freewalk`; `below` frees a table one level down. -/
def freewalkTurn (below : Nat → Kern Unit) (pagetable i : Nat) : Kern Unit := do
  let pte ← peek 8 (pagetable + 8 * i)
  if pte &&& PTE_V ≠ 0 ∧ pte &&& (PTE_R ||| PTE_W ||| PTE_X) = 0 then do
    below (PTE2PA pte)
    poke 8 (pagetable + 8 * i) 0
  else if pte &&& PTE_V ≠ 0 then
    throw .freewalkLeaf
  else
    pure ()

/-- Recursion deeper than the three levels of a table would run off the kernel stack. -/
def freewalkFrom (img : Image) : Nat → Nat → Kern Unit
  | 0, _ => throw .kerneltrap
  | level + 1, pagetable => do
      turns (freewalkTurn (freewalkFrom img level) pagetable) 512 0
      kfree img pagetable

def freewalk (img : Image) (pagetable : Nat) : Kern Unit := freewalkFrom img 3 pagetable

/-! ## The table in memory -/

/-- Entry `i` of the page-table page `b`, if valid. -/
def entry (mem : Mem) (b i : Nat) : Option Nat :=
  if load 8 mem (b + 8 * i) &&& PTE_V ≠ 0 then some (load 8 mem (b + 8 * i)) else none

/-- How often `q` is a page of the table of level `l` at `b`. -/
abbrev nodes (mem : Mem) (l b q : Nat) : Nat := Radix.count PTE2PA 512 (entry mem) l b q

/-- The leaf entry of virtual page `k` in the table of level `l` at `b`. -/
abbrev value (mem : Mem) (l b k : Nat) : Option Nat := Radix.lookup PTE2PA 512 (entry mem) l b k

/-- Interior entries carry the valid bit and no permission. -/
abbrev Plain (mem : Mem) (l b : Nat) : Prop :=
  Radix.Inner PTE2PA 512 (entry mem) (fun pte => PTE_FLAGS pte = PTE_V) l b

/-- The pages of the page table at `root`. -/
abbrev tables (mem : Mem) (root : Nat) : Nat → Nat := nodes mem 2 root

/-- The leaf entry of virtual page `k`. -/
abbrev leaf (mem : Mem) (root k : Nat) : Option Nat := value mem 2 root k

/-! ## Bits of an entry -/

variable {pte pa perm b i n d v l root k a va hi : Nat} {own : Nat → Nat} {L : Nat → Option Nat}

theorem pte2pa_eq (small : pte < 2 ^ 62) : PTE2PA pte = pte / 1024 * PGSIZE := by
  rw [PTE2PA, u64, Nat.shiftLeft_eq, Nat.shiftRight_eq_div_pow, Nat.mod_eq_of_lt]
  omega

theorem pte_flags_eq (pte : Nat) : PTE_FLAGS pte = pte % 1024 :=
  Nat.and_two_pow_sub_one_eq_mod pte 10

theorem pte_v_eq (pte : Nat) : pte &&& PTE_V = pte % 2 := Nat.and_one_is_mod pte

theorem px_eq (level va : Nat) : PX level va = Radix.digit 512 level (va / PGSIZE) := by
  rw [PX, Nat.and_two_pow_sub_one_eq_mod _ 9, Nat.shiftRight_eq_div_pow, Radix.digit, Nat.pow_add, Nat.pow_mul,
    Nat.div_div_eq_div_mul]

/-- An entry is its page number and its flags. -/
theorem pte_eq (perms : perm < 1024) :
    PA2PTE pa ||| perm ||| PTE_V = pa / PGSIZE * 1024 + (perm ||| PTE_V) := by
  have flags : perm ||| PTE_V < 2 ^ 10 := Nat.or_lt_two_pow (by omega) (by decide)
  rw [Nat.or_assoc, PA2PTE, ← Nat.shiftLeft_add_eq_or_of_lt flags, Nat.shiftLeft_eq, Nat.shiftRight_eq_div_pow]

theorem or_v_odd (perm : Nat) : (perm ||| PTE_V) % 2 = 1 := by
  rw [Nat.or_mod_two_eq_one]
  exact .inr rfl

section MadePte

variable {pa perm : Nat} (perms : perm < 1024)

include perms

theorem or_v_lt : perm ||| PTE_V < 1024 := Nat.or_lt_two_pow (n := 10) (by omega) (by decide)

theorem pte_lt (small : pa < 2 ^ 64) : PA2PTE pa ||| perm ||| PTE_V < 2 ^ 62 := by
  rw [pte_eq perms]
  have := or_v_lt perms
  simp only [PGSIZE] at *
  omega

theorem pte_pa (small : pa < 2 ^ 64) (aligned : pa % PGSIZE = 0) : PTE2PA (PA2PTE pa ||| perm ||| PTE_V) = pa := by
  rw [pte2pa_eq (pte_lt perms small), pte_eq perms]
  have := or_v_lt perms
  simp only [PGSIZE] at *
  omega

theorem pte_flags : PTE_FLAGS (PA2PTE pa ||| perm ||| PTE_V) = perm ||| PTE_V := by
  rw [pte_flags_eq, pte_eq perms]
  have := or_v_lt perms
  omega

theorem pte_valid : (PA2PTE pa ||| perm ||| PTE_V) &&& PTE_V ≠ 0 := by
  rw [pte_v_eq, pte_eq perms]
  have := or_v_odd perm
  omega

end MadePte

/-! ## Reading and writing entries -/

variable {img : Image} {s s' t : Pool UInt8} {mem mem' : Mem} {E : Panic → Prop}

/-- An entry depends on the bytes of its page. -/
theorem entry_congr (aligned : b % PGSIZE = 0) (small : i < 512)
    (same : ∀ x, PGROUNDDOWN x = b → mem' x = mem x) : entry mem' b i = entry mem b i := by
  have word : load 8 mem' (b + 8 * i) = load 8 mem (b + 8 * i) := load_congr 8 _ fun j hj =>
    same _ (by rw [Nat.add_assoc]; exact rounddown_add aligned (by simp only [PGSIZE]; omega))
  rw [entry, entry, word]

/-- What a tree reads is in its own pages. -/
theorem entries_same (aligned : ∀ n, 0 < own n → n % PGSIZE = 0)
    (same : ∀ x, 0 < own (PGROUNDDOWN x) → mem' x = mem x) :
    ∀ n, 0 < own n → ∀ i < 512, entry mem' n i = entry mem n i := fun n mine _ small =>
  entry_congr (aligned n mine) small fun x inside => same x (by rw [inside]; exact mine)

theorem entry_store_ne {n' : Nat} (aligned : n % PGSIZE = 0) (aligned' : n' % PGSIZE = 0) (hd : d < 512)
    (hi : i < 512) (ne : n' ≠ n ∨ i ≠ d) : entry (store 8 mem (n + 8 * d) v) n' i = entry mem n' i := by
  have word : load 8 (store 8 mem (n + 8 * d) v) (n' + 8 * i) = load 8 mem (n' + 8 * i) := by
    refine load_store_disjoint ?_
    simp only [PGSIZE] at *
    omega
  rw [entry, entry, word]

theorem entry_store_self (small : v < 2 ^ 64) :
    entry (store 8 mem (n + 8 * d) v) n d = if v &&& PTE_V ≠ 0 then some v else none := by
  rw [entry, load_store_of_lt (by simpa using small)]

theorem entry_some (valid : entry mem b i = some pte) :
    load 8 mem (b + 8 * i) = pte ∧ pte &&& PTE_V ≠ 0 := by
  unfold entry at valid
  split at valid
  · next odd =>
      have same := Option.some.inj valid
      rw [same] at odd
      exact ⟨same, odd⟩
  · cases valid

theorem entry_none (invalid : entry mem b i = none) : load 8 mem (b + 8 * i) &&& PTE_V = 0 := by
  unfold entry at invalid
  split at invalid
  · cases invalid
  · next even => exact not_not.mp even

/-- A zeroed page is an empty table. -/
theorem entry_zeroed (zero : ∀ x, b ≤ x → x < b + PGSIZE → mem x = 0) : ∀ i < 512, entry mem b i = none := by
  intro i small
  have word : load 8 mem (b + 8 * i) = 0 := load_zero fun j hj => zero _ (by omega) (by simp only [PGSIZE]; omega)
  rw [entry, word]
  rfl

/-- The pages of a table are pages. -/
theorem tree_pages (fits : img.Fits s own) : ∀ n, 0 < own n → img.IsPage n := fun _ mine =>
  (fits.owned mine).2.2

/-! ## walk -/

/-- From `s` to `t` the table of level `l` at `b` got at most `n` more pages, and maps what it
mapped. -/
structure Grown (img : Image) (n : Nat) (s t : Pool UInt8) (l b : Nat) : Prop where
  keeps : img.Keeps s (nodes s.mem l b) t (nodes t.mem l b)
  plain : Plain s.mem l b → Plain t.mem l b
  values : ∀ k, value t.mem l b k = value s.mem l b k
  used : s.free.length ≤ t.free.length + n

theorem Grown.refl (n : Nat) (s : Pool UInt8) (l b : Nat) : Grown img n s s l b :=
  ⟨.refl _ _, fun h => h, fun _ => rfl, Nat.le_add_right _ _⟩

theorem Grown.trans {n' : Nat} (first : Grown img n s t l b) (second : Grown img n' t s' l b) :
    Grown img (n + n') s s' l b where
  keeps := first.keeps.trans second.keeps
  plain := fun h => second.plain (first.plain h)
  values := fun k => (second.values k).trans (first.values k)
  used := by
    have := first.used
    have := second.used
    omega

/-- A table that grew below one entry grew. -/
theorem Grown.child {x : Nat} (fits : img.Fits s (nodes s.mem (l + 1) b)) (small : d < 512)
    (valid : entry s.mem b d = some x) (grown : Grown img n s t l (PTE2PA x)) :
    Grown img n s t (l + 1) b ∧ entry t.mem b d = some x := by
  have split : ∀ q, nodes s.mem (l + 1) b q =
      nodes s.mem l (PTE2PA x) q + Radix.others PTE2PA 512 (entry s.mem) l b d q := fun q => by
    rw [nodes, Radix.count_split small, Radix.kid_some valid, Nat.add_comm]
  have fits' := fits.mono fun q => Nat.le_of_eq (split q).symm
  have same : ∀ n, 0 < Radix.others PTE2PA 512 (entry s.mem) l b d n → ∀ i < 512, entry t.mem n i = entry s.mem n i :=
    entries_same (fun n mine => (tree_pages fits' n (Nat.add_pos_right _ mine)).1) fun _ other =>
      grown.keeps.untouched fits' other
  have once : Radix.others PTE2PA 512 (entry s.mem) l b d b ≤ 1 := by
    have := fits'.once b
    omega
  refine ⟨⟨?_, ?_, ?_, grown.used⟩, (same b (Radix.others_self l b d) d small).trans valid⟩
  · exact grown.keeps.within _ split (Radix.count_child valid same small once)
  · exact Radix.inner_child valid same grown.plain
  · exact Radix.lookup_child valid same (by decide) grown.values

/-- The entry of an interior page. -/
theorem interior_pte {c : Nat} (page : img.IsPage c) : PA2PTE c ||| PTE_V < 2 ^ 62 ∧
    (PA2PTE c ||| PTE_V) &&& PTE_V ≠ 0 ∧ PTE2PA (PA2PTE c ||| PTE_V) = c ∧ PTE_FLAGS (PA2PTE c ||| PTE_V) = PTE_V := by
  have top : c < 2 ^ 64 := Nat.lt_trans page.2.2 (by decide)
  have perms : 0 < 1024 := by decide
  have lt := pte_lt perms top
  have valid := @pte_valid c 0 perms
  have pa := pte_pa perms top page.1
  have flags := @pte_flags c 0 perms
  rw [Nat.or_zero] at lt valid pa flags
  rw [Nat.zero_or] at flags
  exact ⟨lt, valid, pa, flags⟩

/-- Hanging a fresh, zeroed page below an invalid entry. -/
theorem Grown.link {c : Nat} (fits : img.Fits s (nodes s.mem (l + 1) b)) (small : d < 512)
    (invalid : entry s.mem b d = none) (page : img.IsPage c) (taken : s.free = c :: t.free)
    (keeps : img.Keeps s (fun _ => 0) t (one c)) :
    let m := store 8 (blit t.mem c PGSIZE fun _ => 0) (b + 8 * d) (PA2PTE c ||| PTE_V)
    Grown img 1 s { t with mem := m } (l + 1) b ∧ ∃ pte, entry m b d = some pte ∧ PTE2PA pte = c := by
  intro m
  have grew : img.Keeps s (nodes s.mem (l + 1) b) t (fun q => one c q + nodes s.mem (l + 1) b q) :=
    keeps.within _ (fun q => (Nat.zero_add _).symm) fun _ => rfl
  have fits₁ := fits.keeps grew
  have untouched : ∀ x, 0 < nodes s.mem (l + 1) b (PGROUNDDOWN x) → t.mem x = s.mem x := fun x mine =>
    keeps.untouched (fits.mono fun q => Nat.le_of_eq (Nat.zero_add _)) mine
  have pageB : img.IsPage b := tree_pages fits b (Radix.count_self (l + 1) b)
  have notOwn : ∀ n, 0 < nodes s.mem (l + 1) b n → n ≠ c := by
    rintro n mine rfl
    have := fits₁.once n
    simp only [one_self] at this
    omega
  have apart : b ≠ c := notOwn b (Radix.count_self (l + 1) b)
  -- outside `b` and `c` nothing was written
  have outside : ∀ x, PGROUNDDOWN x ≠ b → PGROUNDDOWN x ≠ c → m x = t.mem x := by
    intro x notB notC
    have slot : x < b + 8 * d ∨ b + 8 * d + 8 ≤ x := by
      rw [Ne, rounddown_eq pageB.1] at notB
      simp only [PGSIZE] at notB
      omega
    rw [show m x = store 8 _ _ _ x from rfl, store_out slot, blit_outside page.1 (Nat.le_refl _) notC]
  obtain ⟨pteSmall, pteValid, ptePa, pteFlags⟩ := interior_pte page
  have hung : entry m b d = some (PA2PTE c ||| PTE_V) := by
    rw [entry_store_self (Nat.lt_trans pteSmall (by decide)), if_pos pteValid]
  have empty : ∀ i < 512, entry m c i = none := by
    intro i hi
    rw [entry_store_ne pageB.1 page.1 small hi (.inl (Ne.symm apart))]
    exact entry_zeroed (fun x low high => by rw [blit_in low high]) i hi
  have here : ∀ i < 512, i ≠ d → entry m b i = entry s.mem b i := by
    intro i hi ne
    rw [entry_store_ne pageB.1 pageB.1 small hi (.inr ne)]
    refine entry_congr pageB.1 hi fun x inside => ?_
    rw [blit_outside page.1 (Nat.le_refl _) (by rw [inside]; exact apart)]
    exact untouched x (by rw [inside]; exact Radix.count_self (l + 1) b)
  have same : ∀ n, n ≠ b → 0 < nodes s.mem (l + 1) b n → ∀ i < 512, entry m n i = entry s.mem n i := by
    intro n ne mine i hi
    refine entry_congr (tree_pages fits n mine).1 hi fun x inside => ?_
    subst inside
    rw [outside x ne (notOwn _ mine)]
    exact untouched x mine
  have once : nodes s.mem (l + 1) b b ≤ 1 := by
    have := fits.once b
    omega
  rw [← ptePa] at empty
  refine ⟨⟨?_, ?_, ?_, ?_⟩, _, hung, ptePa⟩
  · refine (grew.trans (keeps_write fits₁ fun x none => outside x ?_ ?_)).congr (fun _ => rfl) fun q => ?_
    · intro eq
      have mine : 0 < nodes s.mem (l + 1) b (PGROUNDDOWN x) := by rw [eq]; exact Radix.count_self (l + 1) b
      exact absurd (Nat.add_eq_zero_iff.mp none).2 (Nat.ne_of_gt mine)
    · intro eq
      have fresh := (Nat.add_eq_zero_iff.mp none).1
      rw [eq, one_self] at fresh
      cases fresh
    · rw [nodes, Radix.count_hang small invalid hung empty here same once, ptePa, Nat.add_comm]
  · exact Radix.inner_hang small invalid hung empty here same once pteFlags
  · exact Radix.lookup_hang small invalid hung empty here same once (by decide)
  · rw [taken, List.length_cons]

/-- Where the entry of virtual page `k` lies, if its table exists. -/
def slot (mem : Mem) (l b k : Nat) : Option Nat :=
  (Radix.node PTE2PA 512 (entry mem) l b k).map fun n => n + 8 * Radix.digit 512 0 k

/-- `walk` without allocation only looks. -/
theorem walkFrom_lookup : ∀ {l b va : Nat} {Q : Option Nat → Pool UInt8 → Prop}, Q (slot s.mem l b (va / PGSIZE)) s →
    wp (walkFrom false l b va) s Q E
  | 0, b, va, Q, holds => by
      refine wp_pure ?_
      rw [px_eq]
      exact holds
  | l + 1, b, va, Q, holds => by
      refine wp_bind (wp_peek ?_)
      rw [px_eq]
      cases valid : entry s.mem b (Radix.digit 512 (l + 1) (va / PGSIZE)) with
      | none =>
        rw [if_neg (not_not.mpr (entry_none valid)), if_pos (by decide)]
        refine wp_pure ?_
        rwa [slot, Radix.node, valid] at holds
      | some pte =>
        obtain ⟨word, odd⟩ := entry_some valid
        rw [word, if_pos odd]
        refine walkFrom_lookup ?_
        rwa [slot, Radix.node, valid] at holds

/-- `walk` with allocation adds the missing pages, at most one for each level, or stops for lack
of pages. -/
theorem walkFrom_alloc : ∀ {l b va : Nat} {s : Pool UInt8}, img.Fits s (nodes s.mem l b) →
    wp (walkFrom true l b va) s (fun r s' => Grown img l s s' l b ∧
      ((r = none ∧ s.free.length < l) ∨ ∃ a, r = some a ∧ slot s'.mem l b (va / PGSIZE) = some a)) E
  | 0, b, va, s, _ => by
      refine wp_pure ⟨.refl 0 s 0 b, .inr ⟨_, rfl, ?_⟩⟩
      rw [px_eq]
      rfl
  | l + 1, b, va, s, fits => by
      have small := Radix.digit_lt (w := 512) (by decide) (l + 1) (va / PGSIZE)
      -- the rest of the walk, below the entry
      have onward : ∀ {t : Pool UInt8} {pte n : Nat}, Grown img n s t (l + 1) b →
          entry t.mem b (Radix.digit 512 (l + 1) (va / PGSIZE)) = some pte → n ≤ 1 →
          wp (walkFrom true l (PTE2PA pte) va) t (fun r s' => Grown img (l + 1) s s' (l + 1) b ∧
            ((r = none ∧ s.free.length < l + 1) ∨
              ∃ a, r = some a ∧ slot s'.mem (l + 1) b (va / PGSIZE) = some a)) E := by
        intro t pte n grown valid few
        have fits' := fits.keeps grown.keeps
        have below : img.Fits t (nodes t.mem l (PTE2PA pte)) := fits'.mono fun q => by
          have within : Radix.kid PTE2PA 512 (entry t.mem) l b _ q ≤ nodes t.mem (l + 1) b q := Radix.kid_le small l b q
          rwa [Radix.kid_some valid] at within
        refine wp_imp (walkFrom_alloc below) fun r s' ⟨deeper, found⟩ => ?_
        obtain ⟨wider, kept⟩ := Grown.child fits' small valid deeper
        obtain ⟨keeps, plain, values, used⟩ := grown.trans wider
        have used' := grown.used
        refine ⟨⟨keeps, plain, values, by omega⟩, found.imp (fun ⟨result, out⟩ => ⟨result, by omega⟩)
          fun ⟨a, result, place⟩ => ⟨a, result, ?_⟩⟩
        rw [slot, Radix.node, kept]
        exact place
      refine wp_bind (wp_peek ?_)
      rw [px_eq]
      cases valid : entry s.mem b (Radix.digit 512 (l + 1) (va / PGSIZE)) with
      | some pte =>
        obtain ⟨word, odd⟩ := entry_some valid
        rw [word, if_pos odd]
        exact onward (.refl 0 s (l + 1) b) valid (by omega)
      | none =>
        rw [if_neg (not_not.mpr (entry_none valid)), if_neg (by decide)]
        refine wp_bind (wp_imp (kalloc_spec fits) fun r t outcome => ?_)
        rcases outcome with ⟨rfl, out, rfl⟩ | ⟨c, rfl, taken, page, keeps⟩
        · exact wp_pure ⟨.refl (l + 1) t (l + 1) b, .inl ⟨rfl, by rw [out]; exact Nat.succ_pos l⟩⟩
        · obtain ⟨grown, pte, hung, target⟩ := Grown.link fits small valid page taken keeps
          refine wp_bind (wp_modify (wp_bind (wp_modify ?_)))
          have next := onward grown hung (Nat.le_refl 1)
          rw [target] at next
          exact next

/-- Where the tables exist, `walk` allocates nothing. -/
theorem walkFrom_found : ∀ {l b va a : Nat}, slot s.mem l b (va / PGSIZE) = some a →
    wp (walkFrom true l b va) s (fun r s' => r = some a ∧ s' = s) E
  | 0, b, va, a, place => by
      refine wp_pure ⟨?_, rfl⟩
      rw [px_eq]
      exact place
  | l + 1, b, va, a, place => by
      refine wp_bind (wp_peek ?_)
      rw [px_eq]
      rw [slot, Radix.node] at place
      cases valid : entry s.mem b (Radix.digit 512 (l + 1) (va / PGSIZE)) with
      | none =>
        rw [valid] at place
        cases place
      | some pte =>
        rw [valid] at place
        obtain ⟨word, odd⟩ := entry_some valid
        rw [word, if_pos odd]
        exact walkFrom_found place

/-! ## Writing a leaf entry -/

/-- The number of virtual pages a table covers. -/
abbrev VPAGES : Nat := 512 ^ 3

/-- Writing the entry of virtual page `k` keeps the table's pages and every other leaf. -/
theorem set_leaf (fits : img.Fits s (tables s.mem root)) (place : slot s.mem 2 root k = some a)
    (small : v < 2 ^ 64) (range : k < VPAGES) :
    let m := store 8 s.mem a v
    (∀ q, tables m root q = tables s.mem root q) ∧
    img.Keeps s (tables s.mem root) { s with mem := m } (tables m root) ∧
    (Plain s.mem 2 root → Plain m 2 root) ∧
    ∀ j < VPAGES, leaf m root j = if j = k then (if v &&& PTE_V ≠ 0 then some v else none) else leaf s.mem root j := by
  intro m
  obtain ⟨n, leads, rfl⟩ := Option.map_eq_some_iff.mp place
  have mine : 0 < tables s.mem root n := Radix.node_counted (by decide) leads
  have page := tree_pages fits n mine
  have last := Radix.digit_lt (w := 512) (by decide) 0 k
  have once : ∀ q, tables s.mem root q ≤ 1 := fun q => by
    have := fits.once q
    omega
  have same : ∀ n', 0 < nodes s.mem 2 root n' → ∀ i < 512, n' ≠ n ∨ i ≠ Radix.digit 512 0 k →
      entry m n' i = entry s.mem n' i := fun n' mine' i hi ne =>
    entry_store_ne page.1 (tree_pages fits n' mine').1 last hi ne
  have counts : ∀ q, tables m root q = tables s.mem root q := Radix.count_set (by decide) once leads same
  refine ⟨counts, ?_, Radix.inner_set (by decide) once leads same, fun j hj => ?_⟩
  · refine (keeps_write fits fun x none => store_out ?_).congr (fun _ => rfl) counts
    have other : PGROUNDDOWN x ≠ n := by
      rintro rfl
      omega
    rw [Ne, rounddown_eq page.1] at other
    simp only [PGSIZE] at other
    omega
  · rw [leaf, value, Radix.lookup_set (by decide) once leads same range hj, entry_store_self small]

/-- A table whose pages have not changed is the table it was. -/
theorem table_same {root : Nat} (aligned : ∀ n, 0 < tables mem root n → n % PGSIZE = 0)
    (same : ∀ x, 0 < tables mem root (PGROUNDDOWN x) → mem' x = mem x) :
    (∀ q, tables mem' root q = tables mem root q) ∧ (∀ k, leaf mem' root k = leaf mem root k) ∧
    (∀ k, slot mem' 2 root k = slot mem 2 root k) ∧ (Plain mem 2 root → Plain mem' 2 root) := by
  have entries := entries_same aligned same
  refine ⟨Radix.count_congr_all entries, Radix.lookup_congr (by decide) entries, fun k => ?_,
    Radix.inner_congr_all entries⟩
  rw [slot, slot, Radix.node_congr 1 root k (by decide) fun n mine =>
    entries n (Nat.lt_of_lt_of_le mine (Radix.count_le_succ 1 root n))]

/-- A program that does not own a table leaves it alone. -/
theorem table_frame {f f' : Nat → Nat} (fits : img.Fits s (fun q => f q + tables s.mem root q))
    (keeps : img.Keeps s f t f') :
    (∀ q, tables t.mem root q = tables s.mem root q) ∧ (∀ k, leaf t.mem root k = leaf s.mem root k) ∧
    (∀ k, slot t.mem 2 root k = slot s.mem 2 root k) ∧ (Plain s.mem 2 root → Plain t.mem 2 root) :=
  table_same (fun n mine => (tree_pages fits n (Nat.add_pos_right _ mine)).1) fun _ mine => keeps.untouched fits mine

/-- The value of an entry whose place is known. -/
theorem leaf_of_slot (place : slot mem 2 root k = some a) :
    leaf mem root k = if load 8 mem a &&& PTE_V ≠ 0 then some (load 8 mem a) else none := by
  obtain ⟨n, leads, rfl⟩ := Option.map_eq_some_iff.mp place
  rw [leaf, value, Radix.lookup, leads]
  rfl

theorem slot_of_leaf (mapped : leaf mem root k = some pte) : ∃ a, slot mem 2 root k = some a := by
  obtain ⟨n, leads, _⟩ := Option.bind_eq_some_iff.mp mapped
  exact ⟨_, Option.map_eq_some_iff.mpr ⟨n, leads, rfl⟩⟩

/-! ## mappages -/

/-- One page takes one turn of the loop of `mappages`. -/
theorem mappages_page (aligned : va % PGSIZE = 0) (range : va < MAXVA) :
    mappages root va PGSIZE pa perm = mappagesFrom root va perm (67108863 + 1) va pa := by
  have first : PGROUNDDOWN va = va := rounddown_of_aligned aligned
  have last : PGROUNDDOWN (u64 (va + PGSIZE - 1)) = va := by
    simp only [u64, PGROUNDDOWN, PGSIZE, MAXVA] at aligned range ⊢
    omega
  have turns : MAXVA / PGSIZE = 67108863 + 1 := by decide
  rw [mappages, if_neg (by decide), last, first, turns]

theorem page_lt (range : va < MAXVA) : va / PGSIZE < VPAGES := by
  simp only [PGSIZE, MAXVA, VPAGES] at range ⊢
  omega

/-- One turn of the loop of `mappages`, before what follows it. -/
def mapTurn (pagetable a v : Nat) (next : Kern Int) : Kern Int := do
  match ← walk pagetable a true with
  | none => pure (-1)
  | some slot => do
      let pte ← peek 8 slot
      if pte &&& PTE_V ≠ 0 then
        throw .mappagesRemap
      else do
        poke 8 slot v
        next

/-- **One turn**: pages were short and no leaf changed, or the leaf is set. -/
theorem mapTurn_spec {next : Kern Int} {Q : Int → Pool UInt8 → Prop} (fits : img.Fits s (tables s.mem root))
    (range : va < MAXVA) (absent : leaf s.mem root (va / PGSIZE) = none) (small : v < 2 ^ 64) (valid : v &&& PTE_V ≠ 0)
    (short : ∀ t, Grown img 2 s t 2 root → s.free.length < 2 → slot s.mem 2 root (va / PGSIZE) = none → Q (-1) t)
    (set : ∀ t, img.Keeps s (tables s.mem root) t (tables t.mem root) → (Plain s.mem 2 root → Plain t.mem 2 root) →
      s.free.length ≤ t.free.length + 2 → ((slot s.mem 2 root (va / PGSIZE)).isSome → t.free = s.free) →
      (∀ j < VPAGES, leaf t.mem root j = if j = va / PGSIZE then some v else leaf s.mem root j) → wp next t Q E) :
    wp (mapTurn root va v next) s Q E := by
  refine wp_bind (?_ : wp (walk root va true) s _ E)
  unfold walk
  rw [if_neg (Nat.not_le_of_lt range)]
  -- the walk: the table grew, and not at all where the entry's page exists
  have walked : wp (walkFrom true 2 root va) s (fun r t => Grown img 2 s t 2 root ∧
      ((slot s.mem 2 root (va / PGSIZE)).isSome → t.free = s.free ∧ r ≠ none) ∧
      ((r = none ∧ s.free.length < 2) ∨ ∃ a, r = some a ∧ slot t.mem 2 root (va / PGSIZE) = some a)) E := by
    cases place : slot s.mem 2 root (va / PGSIZE) with
    | none => exact wp_imp (walkFrom_alloc fits) fun r t ⟨grown, found⟩ => ⟨grown, fun no => by simp at no, found⟩
    | some a =>
      refine wp_imp (walkFrom_found place) fun r t ⟨result, same⟩ => ?_
      subst same
      exact ⟨.refl 2 t 2 root, fun _ => ⟨rfl, by simp [result]⟩, .inr ⟨a, result, place⟩⟩
  refine wp_imp walked fun r t ⟨grown, known, found⟩ => ?_
  rcases found with ⟨rfl, out⟩ | ⟨a, rfl, place⟩
  · refine wp_pure (short t grown out ?_)
    cases there : slot s.mem 2 root (va / PGSIZE) with
    | none => rfl
    | some a => exact absurd rfl (known (by rw [there]; rfl)).2
  · have empty : load 8 t.mem a &&& PTE_V = 0 := by
      have none := (grown.values (va / PGSIZE)).trans absent
      rw [show value t.mem 2 root _ = leaf t.mem root _ from rfl, leaf_of_slot place] at none
      by_contra odd
      rw [if_pos odd] at none
      cases none
    refine wp_bind (wp_peek ?_)
    rw [if_neg (not_not.mpr empty)]
    obtain ⟨_, written, plain, leaves⟩ := set_leaf (fits.keeps grown.keeps) place small (page_lt range)
    refine wp_bind (wp_modify (set _ (grown.keeps.trans written) (fun h => plain (grown.plain h)) grown.used
      (fun there => (known there).1) fun j hj => ?_))
    rw [leaves j hj, if_pos valid]
    split
    · rfl
    · exact grown.values j

/-- Mapping one page: either the leaf is set, or pages were short and no leaf changed. -/
theorem mappages_spec (fits : img.Fits s (tables s.mem root)) (aligned : va % PGSIZE = 0)
    (range : va < MAXVA) (absent : leaf s.mem root (va / PGSIZE) = none) (top : pa < 2 ^ 56) (perms : perm < 1024) :
    wp (mappages root va PGSIZE pa perm) s (fun r s' =>
      img.Keeps s (tables s.mem root) s' (tables s'.mem root) ∧ (Plain s.mem 2 root → Plain s'.mem 2 root) ∧
      s.free.length ≤ s'.free.length + 2 ∧ ((slot s.mem 2 root (va / PGSIZE)).isSome → s'.free = s.free ∧ r = 0) ∧
      ((r = -1 ∧ s.free.length < 2 ∧ ∀ j < VPAGES, leaf s'.mem root j = leaf s.mem root j) ∨
       (r = 0 ∧ ∀ j < VPAGES, leaf s'.mem root j =
        if j = va / PGSIZE then some (PA2PTE pa ||| perm ||| PTE_V) else leaf s.mem root j))) E := by
  rw [mappages_page aligned range]
  have small := pte_lt perms (Nat.lt_trans top (by decide))
  apply mapTurn_spec fits range absent (Nat.lt_trans small (by decide)) (pte_valid perms)
  · intro t grown out nowhere
    refine ⟨grown.keeps, grown.plain, grown.used, ?_, .inl ⟨rfl, out, fun j _ => grown.values j⟩⟩
    intro there
    rw [nowhere] at there
    cases there
  · intro t keeps plain used known leaves
    rw [if_pos rfl]
    exact wp_pure ⟨keeps, plain, used, fun there => ⟨known there, rfl⟩, .inr ⟨rfl, leaves⟩⟩

/-! ## The pages a table maps -/

/-- Owning the page an entry points to. -/
def target (pte : Option Nat) (q : Nat) : Nat := pte.elim 0 fun pte => one (PTE2PA pte) q

theorem target_some (pte q : Nat) : target (some pte) q = one (PTE2PA pte) q := rfl

/-- How often `q` is mapped at one of the first `hi` virtual pages. -/
def pagesOf (leaves : Nat → Option Nat) (hi q : Nat) : Nat := ∑ j ∈ Finset.range hi, target (leaves j) q

/-- The pages of a table and of the user memory below virtual page `hi`. -/
def space (mem : Mem) (root hi q : Nat) : Nat := tables mem root q + pagesOf (leaf mem root) hi q

theorem pagesOf_congr {L' : Nat → Option Nat} (same : ∀ j < hi, L' j = L j) (q : Nat) :
    pagesOf L' hi q = pagesOf L hi q :=
  Finset.sum_congr rfl fun j hj => by rw [same j (Finset.mem_range.mp hj)]

theorem target_le (inside : k < hi) (q : Nat) : target (L k) q ≤ pagesOf L hi q :=
  Finset.single_le_sum (f := fun j => target (L j) q) (fun _ _ => Nat.zero_le _) (Finset.mem_range.mpr inside)

theorem pagesOf_mono {lo : Nat} (le : lo ≤ hi) (q : Nat) : pagesOf L lo q ≤ pagesOf L hi q :=
  Finset.sum_le_sum_of_subset fun _ hj =>
    Finset.mem_range.mpr (Nat.lt_of_lt_of_le (Finset.mem_range.mp hj) le)

/-- Virtual pages without a leaf map nothing. -/
theorem pagesOf_drop {lo : Nat} (q : Nat) :
    ∀ {hi : Nat}, lo ≤ hi → (∀ j, lo ≤ j → j < hi → L j = none) → pagesOf L hi q = pagesOf L lo q := by
  intro hi le
  induction hi, le using Nat.le_induction with
  | base => exact fun _ => rfl
  | succ hi le ih =>
    intro absent
    have last : pagesOf L (hi + 1) q = pagesOf L hi q + target (L hi) q := Finset.sum_range_succ _ hi
    rw [last, absent hi le (Nat.lt_succ_self hi), ih fun j low high => absent j low (Nat.lt_succ_of_lt high)]
    rfl

/-! ## Looking up an entry -/

/-- How `walkaddr` and the loops of `uvmunmap` and `uvmcopy` start. -/
def withEntry {α : Type} (pagetable a : Nat) (absent invalid : Kern α) (found : Nat → Nat → Kern α) : Kern α := do
  match ← walk pagetable a false with
  | none => absent
  | some slot => do
      let pte ← peek 8 slot
      if pte &&& PTE_V = 0 then invalid else found slot pte

theorem wp_withEntry {α : Type} {absent invalid : Kern α} {f : Nat → Nat → Kern α} {Q : α → Pool UInt8 → Prop}
    (range : a < MAXVA) (unmapped : leaf s.mem root (a / PGSIZE) = none → wp absent s Q E ∧ wp invalid s Q E)
    (mapped : ∀ place pte, slot s.mem 2 root (a / PGSIZE) = some place → leaf s.mem root (a / PGSIZE) = some pte →
      wp (f place pte) s Q E) : wp (withEntry root a absent invalid f) s Q E := by
  refine wp_bind (?_ : wp (walk root a false) s _ E)
  unfold walk
  rw [if_neg (Nat.not_le_of_lt range)]
  apply walkFrom_lookup
  cases place : slot s.mem 2 root (a / PGSIZE) with
  | none =>
    refine (unmapped (Option.eq_none_iff_forall_ne_some.mpr fun pte value => ?_)).1
    obtain ⟨_, there⟩ := slot_of_leaf value
    rw [place] at there
    cases there
  | some slot =>
    have value := leaf_of_slot place
    refine wp_bind (wp_peek ?_)
    by_cases invalid : load 8 s.mem slot &&& PTE_V = 0
    · rw [if_neg (not_not.mpr invalid)] at value
      rw [if_pos invalid]
      exact (unmapped value).2
    · rw [if_pos invalid] at value
      rw [if_neg invalid]
      exact mapped slot _ place value

/-! ## uvmunmap -/

/-- What removing the leaves of virtual pages `[k, k + n)` leaves behind. -/
structure Unmapped (img : Image) (hi k n : Nat) (s t : Pool UInt8) (root : Nat) : Prop where
  keeps : img.Keeps s (space s.mem root hi) t (space t.mem root hi)
  plain : Plain s.mem 2 root → Plain t.mem 2 root
  leaves : ∀ j < VPAGES, leaf t.mem root j = if k ≤ j ∧ j < k + n then none else leaf s.mem root j

/-- From `s` to `t` the leaves of `n` virtual pages from `k` on were removed. -/
structure Removed (img : Image) (pt k n : Nat) (own : Nat → Nat) (s t : Pool UInt8) : Prop where
  keeps : img.Keeps s (fun q => own q + tables s.mem pt q) t (tables t.mem pt)
  plain : Plain s.mem 2 pt → Plain t.mem 2 pt
  leaves : ∀ j < VPAGES, leaf t.mem pt j = if k ≤ j ∧ j < k + n then Option.none else leaf s.mem pt j

section Clear

variable {root k a pte : Nat} (range : k < VPAGES) (place : slot s.mem 2 root k = some a)
include range place

/-- Writing 0 over a leaf entry. -/
theorem clear_leaf (fits : img.Fits s (tables s.mem root)) :
    Removed img root k 1 (fun _ => 0) s { s with mem := store 8 s.mem a 0 } := by
  obtain ⟨_, keeps, plain, leaves⟩ := set_leaf fits place (v := 0) (by decide) range
  refine ⟨keeps.congr (fun q => Nat.zero_add _) fun _ => rfl, plain, fun j hj => ?_⟩
  rw [leaves j hj]
  by_cases same : j = k
  · rw [if_pos same, if_neg (by decide), if_pos (by omega)]
  · rw [if_neg same, if_neg (by omega)]

/-- Writing 0 over a leaf entry after its page was freed. -/
theorem clear_freed (fits : img.Fits s (fun q => one (PTE2PA pte) q + tables s.mem root q))
    (freed : img.Keeps s (one (PTE2PA pte)) t (fun _ => 0)) :
    Removed img root k 1 (one (PTE2PA pte)) s { t with mem := store 8 t.mem a 0 } := by
  obtain ⟨sameTables, sameLeaves, sameSlots, samePlain⟩ := table_frame fits freed
  have moved : img.Keeps s (fun q => one (PTE2PA pte) q + tables s.mem root q) t (tables t.mem root) :=
    freed.within (tables s.mem root) (fun _ => rfl) fun q => by rw [sameTables, Nat.zero_add]
  obtain ⟨keeps, plain, leaves⟩ := clear_leaf range ((sameSlots k).trans place) (fits.keeps moved)
  exact ⟨moved.trans (keeps.congr (fun q => (Nat.zero_add _).symm) fun _ => rfl), fun h => plain (samePlain h),
    fun j hj => by rw [leaves j hj, sameLeaves]⟩

end Clear

/-- The pages mapped at `n` virtual pages from `k` on. -/
def pagesIn (leaves : Nat → Option Nat) (k n q : Nat) : Nat := ∑ j ∈ Finset.Ico k (k + n), target (leaves j) q

theorem pagesIn_succ (leaves : Nat → Option Nat) (k n q : Nat) :
    pagesIn leaves k (n + 1) q = target (leaves k) q + pagesIn leaves (k + 1) n q := by
  rw [pagesIn, Finset.sum_eq_sum_Ico_succ_bot (by omega), pagesIn, show k + (n + 1) = k + 1 + n by omega]

theorem pagesIn_congr {leaves leaves' : Nat → Option Nat} (same : ∀ j, k ≤ j → j < k + n → leaves' j = leaves j)
    (q : Nat) : pagesIn leaves' k n q = pagesIn leaves k n q := by
  apply Finset.sum_congr rfl
  intro j mem
  obtain ⟨low, high⟩ := Finset.mem_Ico.mp mem
  rw [same j low high]

/-- The pages below `hi` are those of a range that is removed and those that stay. -/
theorem pagesOf_remove {L' : Nat → Option Nat} (inside : k + n ≤ hi)
    (gone : ∀ j < hi, L' j = if k ≤ j ∧ j < k + n then none else L j) (q : Nat) :
    pagesOf L hi q = pagesIn L k n q + pagesOf L' hi q := by
  have part : pagesIn L k n q = ∑ j ∈ Finset.range hi, if k ≤ j ∧ j < k + n then target (L j) q else 0 := by
    rw [pagesIn, ← Finset.sum_filter]
    congr 1
    ext j
    simp only [Finset.mem_Ico, Finset.mem_filter, Finset.mem_range]
    omega
  rw [part, pagesOf, pagesOf, ← Finset.sum_add_distrib]
  refine Finset.sum_congr rfl fun j mem => ?_
  rw [gone j (Finset.mem_range.mp mem)]
  split
  · exact (Nat.add_zero _).symm
  · exact (Nat.zero_add _).symm

/-- What `uvmunmap` gives back: with `do_free` the pages of the range. -/
def freedBy (do_free : Bool) (leaves : Nat → Option Nat) (k n q : Nat) :
    Nat := if do_free then pagesIn leaves k n q else 0

theorem Removed.trans {pt : Nat} {own' : Nat → Nat} {s' : Pool UInt8} (first : Removed img pt k 1 own s t)
    (rest : Removed img pt (k + 1) n own' t s') : Removed img pt k (n + 1) (fun q => own q + own' q) s s' where
  keeps := (first.keeps.within own' (fun q => by omega) (fun q => Nat.add_comm ..)).trans rest.keeps
  plain before := rest.plain (first.plain before)
  leaves j range := by
    rw [rest.leaves j range, first.leaves j range]
    by_cases later : k + 1 ≤ j ∧ j < k + 1 + n
    · rw [if_pos later, if_pos (by omega)]
    · rw [if_neg later]
      by_cases now : k ≤ j ∧ j < k + 1
      · rw [if_pos now, if_pos (by omega)]
      · rw [if_neg now, if_neg (by omega)]

theorem uvmunmapFrom_succ (pagetable n a : Nat) (do_free : Bool) : uvmunmapFrom img pagetable do_free (n + 1) a =
    withEntry pagetable a (throw .uvmunmapWalk) (throw .uvmunmapNotMapped) fun slot pte =>
      if PTE_FLAGS pte = PTE_V then throw .uvmunmapNotALeaf
      else when (do_free = true) (kfree img (PTE2PA pte)) >>= fun _ => poke 8 slot 0 >>= fun _ =>
        uvmunmapFrom img pagetable do_free n (a + PGSIZE) := rfl

/-- `uvmunmap` removes the leaves of `n` virtual pages; it panics at a page that is not mapped. -/
theorem uvmunmapFrom_removes {pt : Nat} {do_free : Bool} : ∀ {n k : Nat} {s : Pool UInt8}, k + n ≤ MAXVA / PGSIZE →
    img.Fits s (fun q => freedBy do_free (leaf s.mem pt) k n q + tables s.mem pt q) →
    (∀ j, k ≤ j → j < k + n → (∃ pte, leaf s.mem pt j = some pte ∧ PTE_FLAGS pte ≠ PTE_V) ∨
      leaf s.mem pt j = none ∧ E .uvmunmapWalk ∧ E .uvmunmapNotMapped) →
    wp (uvmunmapFrom img pt do_free n (k * PGSIZE)) s
      (fun _ t => Removed img pt k n (freedBy do_free (leaf s.mem pt) k n) s t) E := by
  intro n
  induction n with
  | zero =>
    intro k s _ fits _
    refine wp_pure ⟨(Pool.Keeps.refl s _).congr (fun q => ?_) (fun _ => rfl), fun h => h, fun j _ =>
      by rw [if_neg (by omega)]⟩
    simp [freedBy, pagesIn]
  | succ n ih =>
    intro k s bound fits mapped
    have inTable : k < MAXVA / PGSIZE := by omega
    have range : k < VPAGES := Nat.lt_trans inTable (by decide)
    have below : k * PGSIZE < MAXVA := by simp only [PGSIZE, MAXVA] at inTable ⊢; omega
    have index : k * PGSIZE / PGSIZE = k := Nat.mul_div_cancel k (by decide)
    rw [uvmunmapFrom_succ]
    refine wp_withEntry below (fun absent => ?_) fun a pte place present => ?_
    all_goals rw [index] at *
    · rcases mapped k (Nat.le_refl k) (by omega) with ⟨pte, present, _⟩ | ⟨_, noTable, noPage⟩
      · rw [absent] at present
        cases present
      · exact ⟨wp_throw noTable, wp_throw noPage⟩
    · have flags : PTE_FLAGS pte ≠ PTE_V := by
        rcases mapped k (Nat.le_refl k) (by omega) with ⟨pte', present', flags⟩ | ⟨absent, _⟩
        · rw [present] at present'
          cases present'
          exact flags
        · rw [present] at absent
          cases absent
      -- this page is given back, then those of the rest
      have parts : ∀ q, freedBy do_free (leaf s.mem pt) k (n + 1) q =
          (if do_free then one (PTE2PA pte) q else 0) + freedBy do_free (leaf s.mem pt) (k + 1) n q := by
        intro q
        unfold freedBy
        cases do_free with
        | false => rfl
        | true => rw [if_pos rfl, if_pos rfl, if_pos rfl, pagesIn_succ, present, target_some]
      have onward : ∀ t, Removed img pt k 1 (fun q => if do_free then one (PTE2PA pte) q else 0) s t →
          wp (uvmunmapFrom img pt do_free n (k * PGSIZE + PGSIZE)) t
            (fun _ u => Removed img pt k (n + 1) (freedBy do_free (leaf s.mem pt) k (n + 1)) s u) E := by
        intro t first
        have unchanged : ∀ j, k + 1 ≤ j → j < k + 1 + n → leaf t.mem pt j = leaf s.mem pt j := by
          intro j low high
          rw [first.leaves j (by simp only [MAXVA, PGSIZE, VPAGES] at *; omega), if_neg (by omega)]
        have same : ∀ q, freedBy do_free (leaf t.mem pt) (k + 1) n q = freedBy do_free (leaf s.mem pt) (k + 1) n q := by
          intro q
          unfold freedBy
          rw [pagesIn_congr unchanged]
        have fits' : img.Fits t (fun q => freedBy do_free (leaf t.mem pt) (k + 1) n q + tables t.mem pt q) :=
          fits.keeps (first.keeps.within (freedBy do_free (leaf s.mem pt) (k + 1) n)
            (fun q => by rw [parts]; omega) fun q => by rw [same]; omega)
        rw [show k * PGSIZE + PGSIZE = (k + 1) * PGSIZE by rw [Nat.add_mul, Nat.one_mul]]
        refine wp_imp (ih (by omega) fits' fun j low high => ?_) fun _ u rest => ?_
        · rw [unchanged j low high]
          exact mapped j (by omega) (by omega)
        · rw [funext same] at rest
          rw [funext parts]
          exact first.trans rest
      rw [if_neg flags]
      refine wp_bind (wp_when (fun yes => ?_) fun no => wp_bind (wp_modify ?_))
      · subst yes
        have apart : img.Fits s (fun q => one (PTE2PA pte) q + tables s.mem pt q) := fits.mono fun q => by
          rw [parts, if_pos rfl]
          omega
        refine wp_imp (kfree_spec (apart.mono fun q => Nat.le_add_right _ _)) fun _ t freed => wp_bind (wp_modify ?_)
        exact onward _ (clear_freed range place apart freed.2)
      · refine onward _ ?_
        simp only [no]
        exact clear_leaf range place (fits.mono fun q => Nat.le_add_left _ _)

section Uvmunmap

variable {pt k n : Nat} {do_free : Bool} (bound : k + n ≤ MAXVA / PGSIZE)
  (mapped : ∀ j, k ≤ j → j < k + n → (∃ pte, leaf s.mem pt j = some pte ∧ PTE_FLAGS pte ≠ PTE_V) ∨
    leaf s.mem pt j = none ∧ E .uvmunmapWalk ∧ E .uvmunmapNotMapped)
include bound mapped

theorem uvmunmap_removes (fits : img.Fits s (fun q => freedBy do_free (leaf s.mem pt) k n q + tables s.mem pt q)) :
    wp (uvmunmap img pt (k * PGSIZE) n do_free) s
      (fun _ t => Removed img pt k n (freedBy do_free (leaf s.mem pt) k n) s t) E := by
  have turns : (u64 (k * PGSIZE + n * PGSIZE) - k * PGSIZE + (PGSIZE - 1)) / PGSIZE = n := by
    simp only [u64, PGSIZE, MAXVA] at *
    omega
  unfold uvmunmap
  rw [if_neg (not_not.mpr (Nat.mul_mod_left _ _)), turns]
  exact uvmunmapFrom_removes bound fits mapped

/-- With `do_free` the pages are user memory, without it they lie above it. -/
theorem uvmunmap_spec (range : hi ≤ VPAGES) (fits : img.Fits s (space s.mem pt hi))
    (mode : do_free = true ∧ k + n ≤ hi ∨ do_free = false ∧ hi ≤ k) :
    wp (uvmunmap img pt (k * PGSIZE) n do_free) s (fun _ s' => Unmapped img hi k n s s' pt) E := by
  have parts : ∀ {L : Nat → Option Nat}, (∀ j < VPAGES, L j = if k ≤ j ∧
    j < k + n then none else leaf s.mem pt j) → ∀ q,
      pagesOf (leaf s.mem pt) hi q = freedBy do_free (leaf s.mem pt) k n q + pagesOf L hi q := by
    intro L gone q
    rcases mode with ⟨rfl, inside⟩ | ⟨rfl, above⟩
    · exact pagesOf_remove inside (fun j below => gone j (by omega)) q
    · have same : ∀ j < hi, L j = leaf s.mem pt j := fun j below => by rw [gone j (by omega), if_neg (by omega)]
      rw [pagesOf_congr same]
      exact (Nat.zero_add _).symm
  refine wp_imp (uvmunmap_removes bound mapped (fits.mono fun q => ?_)) fun _ t removed =>
    ⟨removed.keeps.within (pagesOf (leaf t.mem pt) hi) (fun q => ?_) fun _ => rfl, removed.plain, removed.leaves⟩
  · have := parts (L := fun j => if k ≤ j ∧ j < k + n then none else leaf s.mem pt j) (fun _ _ => rfl) q
    rw [space]
    omega
  · rw [space, parts removed.leaves]
    omega

end Uvmunmap

/-! ## freewalk -/

/-- What `freewalk` still owns at turn `i`: the page itself and what lies below the entries to
come. -/
def remaining (mem : Mem) (l b i q : Nat) : Nat :=
  one b q + ∑ j ∈ Finset.Ico i 512, Radix.kid PTE2PA 512 (entry mem) l b j q

theorem remaining_zero (mem : Mem) (l b q : Nat) : remaining mem l b 0 q = nodes mem (l + 1) b q := by
  rw [remaining, ← Finset.range_eq_Ico]
  rfl

theorem remaining_succ {mem : Mem} (small : i < 512) (q : Nat) :
    remaining mem l b i q = Radix.kid PTE2PA 512 (entry mem) l b i q + remaining mem l b (i + 1) q := by
  rw [remaining, remaining, Finset.sum_eq_sum_Ico_succ_bot small]
  omega

theorem remaining_last (mem : Mem) (l b q : Nat) : remaining mem l b 512 q = one b q := by
  rw [remaining, Finset.Ico_self, Finset.sum_empty, Nat.add_zero]

theorem kid_le_remaining {mem : Mem} {j : Nat} (low : i ≤ j) (high : j < 512) (q : Nat) :
    Radix.kid PTE2PA 512 (entry mem) l b j q + one b q ≤ remaining mem l b i q := by
  have := Finset.single_le_sum (f := fun j => Radix.kid PTE2PA 512 (entry mem) l b j q) (fun _ _ => Nat.zero_le _)
    (Finset.mem_Ico.mpr ⟨low, high⟩)
  rw [remaining]
  omega

theorem remaining_self (mem : Mem) (l b i : Nat) : 0 < remaining mem l b i b := by
  rw [remaining, one_self]
  omega

/-- The state at turn `i` of `freewalk` on the table of level `l + 1` at `b`, which started in
`s`. -/
structure Freeing (img : Image) (s : Pool UInt8) (l b i : Nat) (t : Pool UInt8) : Prop where
  keeps : img.Keeps s (nodes s.mem (l + 1) b) t (remaining s.mem l b i)
  entries : ∀ j, i ≤ j → j < 512 → entry t.mem b j = entry s.mem b j
  below : ∀ j, i ≤ j → j < 512 → ∀ x, 0 < Radix.kid PTE2PA 512 (entry s.mem) l b j (PGROUNDDOWN x) → t.mem x = s.mem x

theorem Freeing.start : Freeing img s l b 0 s :=
  ⟨(Pool.Keeps.refl s _).congr (fun _ => rfl) (remaining_zero s.mem l b), fun _ _ _ => rfl, fun _ _ _ _ _ => rfl⟩

theorem interior_flags (flags : PTE_FLAGS pte = PTE_V) : pte &&& (PTE_R ||| PTE_W ||| PTE_X) = 0 := by
  have mask : PTE_R ||| PTE_W ||| PTE_X = 0x3FF &&& 14 := by decide
  rw [mask, ← Nat.and_assoc, show pte &&& 0x3FF = PTE_V from flags]
  decide

theorem leaf_flags (perms : pte &&& (PTE_R ||| PTE_W ||| PTE_X) ≠ 0) : PTE_FLAGS pte ≠ PTE_V :=
  fun flags => perms (interior_flags flags)

/-- A leaf that `mappages` writes carries its permissions. -/
theorem made_perm {mask : Nat} (perms : perm &&& mask ≠ 0) : (PA2PTE pa ||| perm ||| PTE_V) &&& mask ≠ 0 := by
  intro none
  rw [Nat.and_or_distrib_right, Nat.and_or_distrib_right, Nat.or_eq_zero_iff, Nat.or_eq_zero_iff] at none
  exact perms none.1.2

theorem freewalkTurn_spec {free : Nat → Kern Unit} (fits : img.Fits s (nodes s.mem (l + 1) b))
    (plain : Plain s.mem (l + 1) b) (bare : Radix.Bare PTE2PA 512 (entry s.mem) (l + 1) b) (hi : i < 512)
    (freeing : Freeing img s l b i t)
    (frees : ∀ c (u : Pool UInt8), img.Fits u (nodes u.mem l c) → Plain u.mem l c →
      Radix.Bare PTE2PA 512 (entry u.mem) l c →
      wp (free c) u (fun _ u' => img.Keeps u (nodes u.mem l c) u' (fun _ => 0)) E) :
    wp (freewalkTurn free b i) t (fun _ t' => Freeing img s l b (i + 1) t') E := by
  have same := freeing.entries i (Nat.le_refl i) hi
  refine wp_bind (wp_peek ?_)
  cases valid : entry t.mem b i with
  | none =>
    have even := entry_none valid
    rw [if_neg (fun h => h.1 even), if_neg (not_not.mpr even)]
    refine wp_pure ⟨freeing.keeps.congr (fun _ => rfl) fun q => ?_, fun j low => freeing.entries j (by omega),
      fun j low => freeing.below j (by omega)⟩
    rw [remaining_succ hi, Radix.kid_none (same.symm.trans valid), Nat.zero_add]
  | some pte =>
    have valid₀ := same.symm.trans valid
    obtain ⟨word, odd⟩ := entry_some valid
    obtain ⟨flags, inner⟩ := plain i hi pte valid₀
    rw [word, if_pos ⟨odd, interior_flags flags⟩]
    have kid : ∀ q, Radix.kid PTE2PA 512 (entry s.mem) l b i q = nodes s.mem l (PTE2PA pte) q := fun q =>
      Radix.kid_some valid₀
    have fits' := fits.keeps freeing.keeps
    -- the table below entry `i` is still the one `freewalk` started with
    have entries : ∀ n, 0 < nodes s.mem l (PTE2PA pte) n → ∀ j < 512, entry t.mem n j = entry s.mem n j :=
      entries_same (fun n mine => (tree_pages fits n (Nat.lt_of_lt_of_le mine (by
        rw [← kid]
        exact Radix.kid_le hi l b n))).1) fun x mine => freeing.below i (Nat.le_refl i) hi x (by rwa [kid])
    have counts : ∀ q, nodes t.mem l (PTE2PA pte) q = nodes s.mem l (PTE2PA pte) q := Radix.count_congr_all entries
    have whole : ∀ q, remaining s.mem l b i q = nodes t.mem l (PTE2PA pte) q + remaining s.mem l b (i + 1) q :=
      fun q => by rw [remaining_succ hi, kid, ← counts]
    have apart := fits'.mono fun q => Nat.le_of_eq (whole q).symm
    refine wp_bind (wp_imp (frees _ t (apart.mono fun q => Nat.le_add_right _ _)
      (Radix.inner_congr_all entries inner) (Radix.bare_congr entries (bare i hi pte valid₀))) fun _ u freed => ?_)
    have untouched : ∀ x, 0 < remaining s.mem l b (i + 1) (PGROUNDDOWN x) → u.mem x = t.mem x := fun x mine =>
      freed.untouched apart mine
    have shrunk : img.Keeps t (remaining s.mem l b i) u (remaining s.mem l b (i + 1)) :=
      freed.within _ whole fun q => (Nat.zero_add _).symm
    have fits'' := fits'.keeps shrunk
    have self := remaining_self s.mem l b (i + 1)
    have pageB := tree_pages fits'' b self
    -- the write to entry `i` of `b` stays inside `b`
    have inside : ∀ x, PGROUNDDOWN x ≠ b → x < b + 8 * i ∨ b + 8 * i + 8 ≤ x := fun x other => by
      rw [Ne, rounddown_eq pageB.1] at other
      simp only [PGSIZE] at other
      omega
    refine wp_modify ⟨(freeing.keeps.trans shrunk).trans (keeps_write fits'' fun x none => store_out (inside x ?_)),
      fun j low high => ?_, fun j low high x mine => ?_⟩
    · rintro rfl
      omega
    · show entry (store 8 _ _ _) b j = _
      rw [entry_store_ne pageB.1 pageB.1 hi high (.inr (by omega)), ← freeing.entries j (by omega) high]
      exact entry_congr pageB.1 high fun x inB => untouched x (by rw [inB]; exact self)
    · have counted : _ ≤ remaining s.mem l b (i + 1) (PGROUNDDOWN x) := kid_le_remaining low high (PGROUNDDOWN x)
      have other : PGROUNDDOWN x ≠ b := by
        intro eq
        have once := fits''.once b
        rw [eq, one_self] at counted
        rw [eq] at mine
        omega
      show store 8 _ _ _ x = _
      rw [store_out (inside x other), untouched x (by omega)]
      exact freeing.below j (by omega) high x mine

/-- On a page of level 0 without leaves the loop of `freewalk` does nothing. -/
theorem freewalk_idle {free : Nat → Kern Unit} (bare : ∀ i < 512, entry s.mem b i = none) :
    wp (turns (freewalkTurn free b) 512 0) s (fun _ t => t = s) E := by
  refine wp_turns (fun _ t => t = s) 512 0 rfl fun i t low high same => ?_
  subst same
  have even := entry_none (bare i (by omega))
  refine wp_bind (wp_peek ?_)
  rw [if_neg (fun h => h.1 even), if_neg (not_not.mpr even)]
  exact wp_pure rfl

/-- `freewalk` gives back every page of a table without leaves. -/
theorem freewalkFrom_spec {s : Pool UInt8} (fits : img.Fits s (nodes s.mem l b)) (plain : Plain s.mem l b)
    (bare : Radix.Bare PTE2PA 512 (entry s.mem) l b) :
    wp (freewalkFrom img (l + 1) b) s (fun _ s' => img.Keeps s (nodes s.mem l b) s' (fun _ => 0)) E := by
  induction l generalizing b s with
  | zero =>
    refine wp_bind (wp_imp (freewalk_idle bare) fun _ t same => ?_)
    rw [same]
    exact wp_imp (kfree_spec fits) fun _ s' freed => freed.2
  | succ l ih =>
    refine wp_bind (wp_imp (wp_turns (Freeing img s l b) 512 0 .start fun i t _ high freeing =>
      freewalkTurn_spec fits plain bare (by omega) freeing fun c u => ih) fun _ t done => ?_)
    have last : img.Keeps s (nodes s.mem (l + 1) b) t (one b) :=
      done.keeps.congr (fun _ => rfl) fun q => (remaining_last s.mem l b q).symm
    exact wp_imp (kfree_spec (fits.keeps last)) fun _ s' freed => last.trans freed.2

/-- Freeing a page table that maps nothing. -/
theorem freewalk_spec (fits : img.Fits s (tables s.mem root)) (plain : Plain s.mem 2 root)
    (bare : ∀ k < VPAGES, leaf s.mem root k = none) :
    wp (freewalk img root) s (fun _ s' => img.Keeps s (tables s.mem root) s' (fun _ => 0)) E :=
  freewalkFrom_spec fits plain (Radix.bare_of_lookup bare)

end Xv6.Kernel.Vm
