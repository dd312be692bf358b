/-
# Kernel.PageMap -- a page table is a finite map

`lookup s pt va` is the leaf entry that `walk(pt, va, 0)` finds.  For a well-formed table
`mappages` over any range of unmapped pages adds exactly the pages of the range, or a first
part of them when pages for the table itself run out; `uvmunmap` removes exactly the pages
it is given; and no two virtual pages have the same entry.
-/
import Xv6.Kernel.PageTable

namespace Xv6.Kernel.Vm

set_option autoImplicit false

open Xv6.Theory Xv6.Theory.Bytes Xv6.Theory.Prog

variable {img : Image} {s s' t : Pool UInt8} {E : Panic → Prop}

/-- The leaf entry `walk(pt, va, 0)` finds. -/
def lookup (s : Pool UInt8) (pt va : Nat) : Option Nat :=
  match walk pt va false s with
  | .ok (some slot, _) => if load 8 s.mem slot &&& PTE_V ≠ 0 then some (load 8 s.mem slot) else none
  | _ => none

variable {pt va n perm pa : Nat}

/-- `walk` without allocation finds the place of the entry and changes nothing. -/
theorem walk_run (range : va < MAXVA) (s : Pool UInt8) :
    walk pt va false s = .ok (slot s.mem 2 pt (va / PGSIZE), s) := by
  have run : Returns (walk pt va false) s fun r s' => r = slot s.mem 2 pt (va / PGSIZE) ∧ s' = s := by
    unfold walk
    rw [if_neg (Nat.not_le_of_lt range)]
    exact walkFrom_lookup ⟨rfl, rfl⟩
  obtain ⟨r, s', ran, rfl, rfl⟩ := run.run
  exact ran

theorem lookup_eq (range : va < MAXVA) (s : Pool UInt8) : lookup s pt va = leaf s.mem pt (va / PGSIZE) := by
  rw [lookup, walk_run range]
  cases place : slot s.mem 2 pt (va / PGSIZE) with
  | some a => rw [leaf_of_slot place]
  | none =>
    cases mapped : leaf s.mem pt (va / PGSIZE) with
    | none => rfl
    | some pte =>
      obtain ⟨a, there⟩ := slot_of_leaf mapped
      rw [place] at there
      cases there

/-- The pages of the table are distinct and in use, its interior entries carry no
permission, and its leaves at least one. -/
structure WellFormed (img : Image) (s : Pool UInt8) (pt : Nat) : Prop where
  fits : img.Fits s (tables s.mem pt)
  plain : Plain s.mem 2 pt
  leaves : ∀ k < VPAGES, ∀ pte, leaf s.mem pt k = some pte → pte &&& (PTE_R ||| PTE_W ||| PTE_X) ≠ 0

/-- From `s` to `t`, `n` pages from virtual page `k` on were mapped to `pa`, `pa + PGSIZE`, …. -/
structure Mapping (img : Image) (pt k n pa perm : Nat) (s t : Pool UInt8) : Prop where
  keeps : img.Keeps s (tables s.mem pt) t (tables t.mem pt)
  plain : Plain s.mem 2 pt → Plain t.mem 2 pt
  leaves : ∀ j < VPAGES, leaf t.mem pt j =
    if k ≤ j ∧ j < k + n then some (PA2PTE (u64 (pa + (j - k) * PGSIZE)) ||| perm ||| PTE_V) else leaf s.mem pt j

namespace Mapping

variable {pt k pa perm : Nat}

theorem none (grown : Grown img 2 s t 2 pt) : Mapping img pt k 0 pa perm s t where
  keeps := grown.keeps
  plain := grown.plain
  leaves j _ := by
    rw [if_neg (by omega)]
    exact grown.values j

/-- A page, and then the ones after it. -/
theorem cons (small : pa < 2 ^ 64) (keeps : img.Keeps s (tables s.mem pt) t (tables t.mem pt))
    (plain : Plain s.mem 2 pt → Plain t.mem 2 pt)
    (leaves : ∀ j < VPAGES, leaf t.mem pt j = if j = k then some (PA2PTE pa ||| perm ||| PTE_V) else leaf s.mem pt j)
    (rest : Mapping img pt (k + 1) n (u64 (pa + PGSIZE)) perm t s') : Mapping img pt k (n + 1) pa perm s s' where
  keeps := keeps.trans rest.keeps
  plain before := rest.plain (plain before)
  leaves j range := by
    rw [rest.leaves j range]
    by_cases later : k + 1 ≤ j ∧ j < k + 1 + n
    · have same : u64 (u64 (pa + PGSIZE) + (j - (k + 1)) * PGSIZE) = u64 (pa + (j - k) * PGSIZE) := by
        rw [show j - k = j - (k + 1) + 1 by omega]
        simp only [u64, PGSIZE]
        omega
      rw [if_pos later, if_pos (by omega), same]
    · rw [if_neg later, leaves j range]
      by_cases here : j = k
      · subst here
        rw [if_pos rfl, if_pos (by omega), Nat.sub_self, Nat.zero_mul, Nat.add_zero, u64, Nat.mod_eq_of_lt small]
      · rw [if_neg here, if_neg (by omega)]

theorem single (small : pa < 2 ^ 64) (keeps : img.Keeps s (tables s.mem pt) t (tables t.mem pt))
    (plain : Plain s.mem 2 pt → Plain t.mem 2 pt)
    (leaves : ∀ j < VPAGES, leaf t.mem pt j = if j = k then some (PA2PTE pa ||| perm ||| PTE_V) else leaf s.mem pt j) :
    Mapping img pt k 1 pa perm s t :=
  cons small keeps plain leaves (none (.refl 2 t 2 pt))

end Mapping

/-- The loop of `mappages` over `n + 1` pages that are not mapped. -/
theorem mappagesFrom_spec (perms : perm < 1024) : ∀ {n turns k pa : Nat} {s : Pool UInt8},
    n < turns → k + n < MAXVA / PGSIZE → pa < 2 ^ 64 → img.Fits s (tables s.mem pt) →
    (∀ j, k ≤ j → j ≤ k + n → leaf s.mem pt j = none) →
    wp (mappagesFrom pt ((k + n) * PGSIZE) perm turns (k * PGSIZE) pa) s (fun r t =>
      r = 0 ∧ Mapping img pt k (n + 1) pa perm s t ∨ r = -1 ∧ ∃ m ≤ n, Mapping img pt k m pa perm s t) E := by
  intro n turns
  induction turns generalizing n with
  | zero => exact fun enough => absurd enough (Nat.not_lt_zero n)
  | succ turns ih =>
    intro k pa s enough range small fits absent
    have index : k * PGSIZE / PGSIZE = k := Nat.mul_div_cancel k (by decide)
    have below : k * PGSIZE < MAXVA := by simp only [MAXVA, PGSIZE] at *; omega
    apply mapTurn_spec fits below (by rw [index]; exact absent k (by omega) (by omega))
      (Nat.lt_trans (pte_lt perms small) (by decide)) (pte_valid perms)
    · intro t grown _ _
      exact .inr ⟨rfl, 0, Nat.zero_le _, .none grown⟩
    · intro t keeps plain _ _ leaves
      rw [index] at leaves
      cases n with
      | zero =>
        rw [if_pos (by rw [Nat.add_zero])]
        exact wp_pure (.inl ⟨rfl, .single small keeps plain leaves⟩)
      | succ n =>
        have notLast : k * PGSIZE ≠ (k + (n + 1)) * PGSIZE := by simp only [PGSIZE]; omega
        have next : u64 (k * PGSIZE + PGSIZE) = (k + 1) * PGSIZE := by
          simp only [u64, MAXVA, PGSIZE] at *
          omega
        rw [if_neg notLast, next, show k + (n + 1) = k + 1 + n by omega]
        refine wp_imp (ih (by omega) (by omega) (Nat.mod_lt _ (by decide)) (fits.keeps keeps) fun j low high => ?_) ?_
        · rw [leaves j (by simp only [MAXVA, PGSIZE, VPAGES] at *; omega), if_neg (by omega)]
          exact absent j (by omega) (by omega)
        · rintro r u (⟨rfl, rest⟩ | ⟨rfl, m, le, rest⟩)
          · exact .inl ⟨rfl, .cons small keeps plain leaves rest⟩
          · exact .inr ⟨rfl, m + 1, by omega, .cons small keeps plain leaves rest⟩

/-! ## The map -/

/-- The entry that maps a page to `pa` with `perm`. -/
def MapsTo (entry : Option Nat) (pa perm : Nat) : Prop :=
  ∃ pte, entry = some pte ∧ PTE2PA pte = pa ∧ PTE_FLAGS pte = perm ||| PTE_V

/-- The first `n` pages of the range that starts at `va` are mapped to `pa`, `pa + PGSIZE`, …, and
nothing else has changed. -/
def MapsFirst (pt va n pa perm : Nat) (s t : Pool UInt8) : Prop :=
  ∀ a < MAXVA, if PGROUNDDOWN va ≤ a ∧ a < PGROUNDDOWN va + n * PGSIZE
    then MapsTo (lookup t pt a) (u64 (pa + (PGROUNDDOWN a - PGROUNDDOWN va))) perm else lookup t pt a = lookup s pt a

theorem Mapping.first (perms : perm < 1024) (aligned : pa % PGSIZE = 0)
    (mapping : Mapping img pt (va / PGSIZE) n pa perm s t) : MapsFirst pt va n pa perm s t := by
  intro a range
  have inside : (PGROUNDDOWN va ≤ a ∧ a < PGROUNDDOWN va + n * PGSIZE) ↔ va / PGSIZE ≤ a / PGSIZE ∧
    a / PGSIZE < va / PGSIZE + n := by
    simp only [PGROUNDDOWN, PGSIZE]
    omega
  rw [lookup_eq range, lookup_eq range, mapping.leaves _ (page_lt range)]
  split
  · next here =>
      have distance : (a / PGSIZE - va / PGSIZE) * PGSIZE = PGROUNDDOWN a - PGROUNDDOWN va := Nat.sub_mul ..
      have aligned' : u64 (pa + (PGROUNDDOWN a - PGROUNDDOWN va)) % PGSIZE = 0 := by
        simp only [u64, PGROUNDDOWN, PGSIZE] at *
        omega
      rw [if_pos (inside.mp here), distance]
      exact ⟨_, rfl, pte_pa perms (Nat.mod_lt _ (by decide)) aligned', pte_flags perms⟩
  · next outside => rw [if_neg fun h => outside (inside.mpr h)]

theorem Mapping.wellFormed {k : Nat} (wf : WellFormed img s pt) (some' : perm &&& (PTE_R ||| PTE_W ||| PTE_X) ≠ 0)
    (mapping : Mapping img pt k n pa perm s t) : WellFormed img t pt where
  fits := wf.fits.keeps mapping.keeps
  plain := mapping.plain wf.plain
  leaves j range pte is := by
    rw [mapping.leaves j range] at is
    split at is
    · cases is
      exact made_perm some'
    · exact wf.leaves j range pte is

/-- The entries of two virtual pages do not overlap. -/
theorem slots_apart {k k' a a' : Nat} (fits : img.Fits s (tables s.mem pt)) (place : slot s.mem 2 pt k = some a)
    (place' : slot s.mem 2 pt k' = some a') (range : k < VPAGES) (range' : k' < VPAGES) (ne : k ≠ k') :
    a + 8 ≤ a' ∨ a' + 8 ≤ a := by
  obtain ⟨n, leads, rfl⟩ := Option.map_eq_some_iff.mp place
  obtain ⟨n', leads', rfl⟩ := Option.map_eq_some_iff.mp place'
  have once : ∀ q, tables s.mem pt q ≤ 1 := fun q => by
    have := fits.once q
    omega
  have page := tree_pages fits n (Radix.node_counted (by decide) leads)
  have page' := tree_pages fits n' (Radix.node_counted (by decide) leads')
  have digit := Radix.digit_lt (w := 512) (by decide) 0 k
  have digit' := Radix.digit_lt (w := 512) (by decide) 0 k'
  have aligned : n % PGSIZE = 0 := page.1
  have aligned' : n' % PGSIZE = 0 := page'.1
  by_cases same : n = n'
  · subst same
    have other : Radix.digit 512 0 k ≠ Radix.digit 512 0 k' := fun eq =>
      ne (Radix.key_inj (by decide) once leads leads' eq range range')
    omega
  · simp only [PGSIZE] at aligned aligned'
    omega

/-- The number of pages that overlap `[va, va + size)`. -/
def overlap (va size : Nat) : Nat := (PGROUNDDOWN (va + size - 1) - PGROUNDDOWN va) / PGSIZE + 1

/-- **A page table is a finite map.**  On a well-formed table `mappages` over unmapped pages
maps them all, or a first part of them when it returns -1; `uvmunmap` of mapped pages (which
it owns, if it is to free them) removes exactly these; both keep the table well-formed; and the
entries of two virtual pages never overlap. -/
theorem page_table_map (img : Image) (s : Pool UInt8) (pt : Nat) (wf : WellFormed img s pt) :
    (∀ va size pa perm, 0 < size → va + size ≤ MAXVA →
      (∀ a, PGROUNDDOWN va ≤ a → a < va + size → lookup s pt a = none) →
      pa % PGSIZE = 0 → pa < 2 ^ 64 → perm < 1024 → perm &&& (PTE_R ||| PTE_W ||| PTE_X) ≠ 0 →
      Returns (mappages pt va size pa perm) s fun r t => WellFormed img t pt ∧
        ∃ n, MapsFirst pt va n pa perm s t ∧ (r = 0 ∧ n = overlap va size ∨ r = -1 ∧ n < overlap va size)) ∧
    (∀ va n do_free, va % PGSIZE = 0 → va + n * PGSIZE ≤ MAXVA →
      (∀ a, va ≤ a → a < va + n * PGSIZE → lookup s pt a ≠ none) →
      (do_free = true → img.Fits s fun q => pagesIn (leaf s.mem pt) (va / PGSIZE) n q + tables s.mem pt q) →
      Returns (uvmunmap img pt va n do_free) s fun _ t => WellFormed img t pt ∧
        ∀ a < MAXVA, lookup t pt a = if va ≤ a ∧ a < va + n * PGSIZE then none else lookup s pt a) ∧
    ∀ a b x y t u, a < MAXVA → b < MAXVA → a / PGSIZE ≠ b / PGSIZE → walk pt a false s = .ok (some x, t) →
      walk pt b false s = .ok (some y, u) → x + 8 ≤ y ∨ y + 8 ≤ x := by
  refine ⟨?_, ?_, ?_⟩
  · intro va size pa perm pos range absent aligned small perms some'
    have first : PGROUNDDOWN va = va / PGSIZE * PGSIZE := rfl
    have last : PGROUNDDOWN (u64 (va + size - 1)) = (va / PGSIZE + (overlap va size - 1)) * PGSIZE := by
      simp only [overlap, u64, PGROUNDDOWN, MAXVA, PGSIZE] at *
      omega
    unfold mappages
    rw [if_neg (Nat.ne_of_gt pos), last, first]
    refine wp_imp (mappagesFrom_spec perms ?_ ?_ small wf.fits ?_) ?_
    · simp only [overlap, PGROUNDDOWN, MAXVA, PGSIZE] at *
      omega
    · simp only [overlap, PGROUNDDOWN, MAXVA, PGSIZE] at *
      omega
    · intro j low high
      have there : j * PGSIZE < MAXVA := by
        simp only [overlap, PGROUNDDOWN, MAXVA, PGSIZE] at *
        omega
      have none' : ∀ a, a / PGSIZE = j → PGROUNDDOWN va ≤ a → a < va + size → leaf s.mem pt j = none := by
        intro a is low' high'
        rw [← is, ← lookup_eq (by omega)]
        exact absent a low' high'
      -- the last page of the range may start before the range does
      apply none' (max va (j * PGSIZE))
      · simp only [overlap, PGROUNDDOWN, PGSIZE] at *
        omega
      · simp only [PGROUNDDOWN, PGSIZE] at *
        omega
      · simp only [overlap, PGROUNDDOWN, PGSIZE] at *
        omega
    · rintro r t (⟨rfl, mapping⟩ | ⟨rfl, m, le, mapping⟩)
      · exact ⟨mapping.wellFormed wf some', _, mapping.first perms aligned, .inl ⟨rfl, rfl⟩⟩
      · exact ⟨mapping.wellFormed wf some', m, mapping.first perms aligned, .inr ⟨rfl, Nat.lt_succ_of_le le⟩⟩
  · intro va n do_free aligned range mapped owned
    obtain ⟨k, rfl⟩ : ∃ k, va = k * PGSIZE := ⟨va / PGSIZE, (Nat.div_mul_cancel (Nat.dvd_of_mod_eq_zero aligned)).symm⟩
    have index : k * PGSIZE / PGSIZE = k := Nat.mul_div_cancel k (by decide)
    have bound : k + n ≤ MAXVA / PGSIZE := by
      simp only [MAXVA, PGSIZE] at *
      omega
    have fits : img.Fits s (fun q => freedBy do_free (leaf s.mem pt) k n q + tables s.mem pt q) := by
      rw [index] at owned
      cases do_free with
      | true => exact owned rfl
      | false => exact wf.fits.mono fun q => Nat.le_of_eq (Nat.zero_add _)
    refine wp_imp (uvmunmap_removes bound ?_ fits) ?_
    · intro j low high
      left
      have below : j * PGSIZE < MAXVA := by
        simp only [MAXVA, PGSIZE] at *
        omega
      have there := mapped (j * PGSIZE) (Nat.mul_le_mul_right _ low)
        (by rw [← Nat.add_mul]; exact Nat.mul_lt_mul_of_pos_right high (by decide))
      rw [lookup_eq below, Nat.mul_div_cancel j (by decide)] at there
      obtain ⟨pte, is⟩ := Option.ne_none_iff_exists'.mp there
      exact ⟨pte, is, leaf_flags (wf.leaves j (Nat.lt_of_lt_of_le high (Nat.le_trans bound (by decide))) pte is)⟩
    · intro _ t removed
      refine ⟨⟨fits.keeps removed.keeps, removed.plain wf.plain, ?_⟩, ?_⟩
      · intro j range' pte is
        rw [removed.leaves j range'] at is
        split at is
        · cases is
        · exact wf.leaves j range' pte is
      · intro a range'
        have inside : (k * PGSIZE ≤ a ∧ a < k * PGSIZE + n * PGSIZE) ↔ k ≤ a / PGSIZE ∧ a / PGSIZE < k + n := by
          simp only [PGSIZE]
          omega
        rw [lookup_eq range', lookup_eq range', removed.leaves _ (page_lt range')]
        simp only [inside]
  · intro a b x y t u rangeA rangeB ne walkA walkB
    rw [walk_run rangeA] at walkA
    rw [walk_run rangeB] at walkB
    simp only [Except.ok.injEq, Prod.mk.injEq] at walkA walkB
    exact slots_apart wf.fits walkA.1 walkB.1 (page_lt rangeA) (page_lt rangeB) ne

/-! ## An empty table -/

/-- A kernel that leaves three pages. -/
def threePages : Image where
  kend := PHYSTOP - 3 * PGSIZE
  trampoline := KERNBASE
  aligned := kernbase_aligned
  base := Nat.le_refl KERNBASE
  inKernel := by decide
  fits := by decide

/-- Two pages are free and the last one is zero. -/
def twoFree : Pool UInt8 where
  mem := store 8 (fun _ => 0) (PHYSTOP - 2 * PGSIZE) (PHYSTOP - 3 * PGSIZE)
  free := [PHYSTOP - 2 * PGSIZE, PHYSTOP - 3 * PGSIZE]

theorem twoFree_empty : ∀ i < 512, entry twoFree.mem (PHYSTOP - PGSIZE) i = none := by
  apply entry_zeroed
  intro x low high
  apply store_out
  simp only [PHYSTOP, KERNBASE, PGSIZE] at *
  omega

theorem twoFree_wellFormed : WellFormed threePages twoFree (PHYSTOP - PGSIZE) := by
  have pages : ∀ q, tables twoFree.mem (PHYSTOP - PGSIZE) q = one (PHYSTOP - PGSIZE) q :=
    Radix.count_empty twoFree_empty
  refine ⟨⟨fun q => ?_, fun q pos => ?_, show Linked twoFree.mem twoFree.free by decide⟩,
    Radix.inner_empty twoFree_empty, fun k _ pte is => ?_⟩
  · rw [pages]
    simp only [twoFree, List.count_cons, List.count_nil, one, PHYSTOP, KERNBASE, PGSIZE, beq_iff_eq]
    split <;> split <;> split <;> omega
  · rw [pages] at pos
    simp only [twoFree, List.count_cons, List.count_nil, one, PHYSTOP, KERNBASE, PGSIZE, beq_iff_eq] at pos
    show q % PGSIZE = 0 ∧ PHYSTOP - 3 * PGSIZE ≤ q ∧ q < PHYSTOP
    simp only [PHYSTOP, KERNBASE, PGSIZE]
    split at pos <;> split at pos <;> split at pos <;> omega
  · have none' : leaf twoFree.mem (PHYSTOP - PGSIZE) k = none := Radix.lookup_empty (by decide) twoFree_empty k
    rw [none'] at is
    cases is

/-- A page is mapped into the empty table, and then the next one. -/
theorem page_table_map_sample : ∃ t u, mappages (PHYSTOP - PGSIZE) 5 1 KERNBASE PTE_R twoFree = .ok (0, t) ∧
    lookup t (PHYSTOP - PGSIZE) 5 ≠ none ∧ mappages (PHYSTOP - PGSIZE) 4096 1 KERNBASE PTE_R t = .ok (0, u) ∧
    WellFormed threePages u (PHYSTOP - PGSIZE) ∧ MapsFirst (PHYSTOP - PGSIZE) 4096 1 KERNBASE PTE_R t u := by
  obtain ⟨t, ran, here, next, u, ran'⟩ : ∃ t, mappages (PHYSTOP - PGSIZE) 5 1 KERNBASE PTE_R twoFree = .ok (0, t) ∧
      (lookup t (PHYSTOP - PGSIZE) 5).isSome ∧ (lookup t (PHYSTOP - PGSIZE) 4096).isNone ∧
      ∃ u, mappages (PHYSTOP - PGSIZE) 4096 1 KERNBASE PTE_R t = .ok (0, u) :=
    ⟨_, rfl, by decide +kernel, by decide +kernel, _, rfl⟩
  have wf : WellFormed threePages t (PHYSTOP - PGSIZE) := by
    refine (wp_ok ((page_table_map threePages twoFree _ twoFree_wellFormed).1 5 1 KERNBASE PTE_R (by decide)
      (by decide) (fun a _ high => ?_) (by decide) (by decide) (by decide) (by decide)) ran).1
    rw [lookup_eq (by simp only [MAXVA]; omega)]
    exact Radix.lookup_empty (by decide) twoFree_empty _
  obtain ⟨wf', n, maps, ⟨_, rfl⟩ | ⟨no, _⟩⟩ :=
    wp_ok ((page_table_map threePages t _ wf).1 4096 1 KERNBASE PTE_R (by decide) (by decide)
    (fun a low high => by obtain rfl : a = 4096 := (by simp only [PGROUNDDOWN, PGSIZE] at low; omega); simpa using next)
    (by decide) (by decide) (by decide) (by decide)) ran'
  · exact ⟨t, u, ran, by rw [Option.isSome_iff_ne_none] at here; exact here, ran', wf', maps⟩
  · cases no

end Xv6.Kernel.Vm
