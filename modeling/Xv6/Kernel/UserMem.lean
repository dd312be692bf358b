/-
# Kernel.UserMem -- user address spaces

The rest of `vm.c`: creating, growing, shrinking, copying and freeing a user address
space, and copying bytes in and out of it.  `Maps mem root D` says that the valid
leaves of the table at `root` are exactly those of the virtual pages in `D`; each
function gets one contract in terms of `Maps` and of the pages the address space
owns (`space`).

Under the contracts of `uvmalloc` and `uvmcopy` stands what they add page by page
(`Grew`): pages of zeros (`Zeroed`) or of the parent's bytes (`Copied`).  These own only
the pages of the table and those the call itself takes, so `Keeps.untouched` gives that
no byte of another page changes.

An address space may lack its first pages (`lo` in the contracts below): the first
process loses page 0 when `uvminit` finds no memory for the page table.  Everything
that would touch a missing page panics, which the contracts record in `E`.
-/
import Xv6.Kernel.PageTable

namespace Xv6.Kernel.Vm

set_option autoImplicit false

open Xv6.Theory Xv6.Theory.Bytes Xv6.Theory.Prog

/-! ## The code -/

/-- An `int` passed as `uint64`. -/
def sext32 (n : Nat) : Nat := if n % 2 ^ 32 < 2 ^ 31 then n % 2 ^ 32 else 2 ^ 64 - 2 ^ 32 + n % 2 ^ 32

def uvmcreate : Kern (Option Nat) := do
  match ← kalloc with
  | none => pure none
  | some pagetable => do
      memset pagetable 0 PGSIZE
      pure (some pagetable)

/-- `uvminit` drops the result of `mappages`; the model returns it, with the page,
for the record of the pages allocated at boot.  Without a page `memset` writes to
address 0, which the kernel does not map. -/
def uvminit (pagetable : Nat) (src : List UInt8) : Kern (Nat × Int) :=
  if PGSIZE ≤ src.length then throw .inituvm
  else do
    match ← kalloc with
    | none => throw .kerneltrap
    | some mem => do
        memset mem 0 PGSIZE
        let r ← mappages pagetable 0 PGSIZE mem (PTE_W ||| PTE_R ||| PTE_X ||| PTE_U)
        modify fun s => { s with mem := blit s.mem mem src.length fun j => src.getD j 0 }
        pure (mem, r)

def uvmdealloc (img : Image) (pagetable oldsz newsz : Nat) : Kern Nat :=
  if oldsz ≤ newsz then pure oldsz
  else if PGROUNDUP newsz < PGROUNDUP oldsz then do
    -- int npages
    let npages := sext32 ((PGROUNDUP oldsz - PGROUNDUP newsz) / PGSIZE)
    uvmunmap img pagetable (PGROUNDUP newsz) npages true
    pure newsz
  else pure newsz

/-- `n` turns of the loop of `uvmalloc`, from `a` on; `oldsz` is already rounded. -/
def uvmallocFrom (img : Image) (pagetable oldsz newsz : Nat) : Nat → Nat → Kern Nat
  | 0, _ => pure newsz
  | n + 1, a => do
      match ← kalloc with
      | none => do
          let _ ← uvmdealloc img pagetable a oldsz
          pure 0
      | some mem => do
          memset mem 0 PGSIZE
          let r ← mappages pagetable a PGSIZE mem (PTE_W ||| PTE_X ||| PTE_R ||| PTE_U)
          if r ≠ 0 then do
            kfree img mem
            let _ ← uvmdealloc img pagetable a oldsz
            pure 0
          else uvmallocFrom img pagetable oldsz newsz n (a + PGSIZE)

/-- The loop runs while `a < newsz`. -/
def uvmalloc (img : Image) (pagetable oldsz newsz : Nat) : Kern Nat :=
  if newsz < oldsz then pure oldsz
  else uvmallocFrom img pagetable (PGROUNDUP oldsz) newsz ((newsz - PGROUNDUP oldsz + (PGSIZE - 1)) / PGSIZE)
    (PGROUNDUP oldsz)

def uvmfree (img : Image) (pagetable sz : Nat) : Kern Unit := do
  when (0 < sz) (uvmunmap img pagetable 0 (PGROUNDUP sz / PGSIZE) true)
  freewalk img pagetable

/-- `n` turns of the loop of `uvmcopy`, from `i` on. -/
def uvmcopyFrom (img : Image) (old new : Nat) : Nat → Nat → Kern Int
  | 0, _ => pure 0
  | n + 1, i => do
      match ← walk old i false with
      | none => throw .uvmcopyPte
      | some slot => do
          let pte ← peek 8 slot
          if pte &&& PTE_V = 0 then
            throw .uvmcopyPage
          else
            match ← kalloc with
            | none => do
                uvmunmap img new 0 (i / PGSIZE) true
                pure (-1)
            | some mem => do
                memmove mem (PTE2PA pte) PGSIZE
                let r ← mappages new i PGSIZE mem (PTE_FLAGS pte)
                if r ≠ 0 then do
                  kfree img mem
                  uvmunmap img new 0 (i / PGSIZE) true
                  pure (-1)
                else uvmcopyFrom img old new n (i + PGSIZE)

/-- The loop runs while `i < sz`. -/
def uvmcopy (img : Image) (old new sz : Nat) : Kern Int :=
  uvmcopyFrom img old new ((sz + (PGSIZE - 1)) / PGSIZE) 0

/-- `*pte &= ~PTE_U` -/
def uvmclear (pagetable va : Nat) : Kern Unit := do
  match ← walk pagetable va false with
  | none => throw .uvmclear
  | some slot => do
      let pte ← peek 8 slot
      poke 8 slot (pte &&& (2 ^ 64 - 1 - PTE_U))

/-- The loop of `copyout`; every turn but the last ends at a page boundary. -/
def copyoutFrom (pagetable : Nat) : Nat → Nat → Mem → Nat → Kern Int
  | 0, _, _, _ => pure 0
  | turns + 1, dstva, src, len =>
    if len = 0 then pure 0
    else do
      let va0 := PGROUNDDOWN dstva
      match ← walkaddr pagetable va0 with
      | none => pure (-1)
      | some pa0 => do
          let n := min (PGSIZE - (dstva - va0)) len
          modify fun s => { s with mem := blit s.mem (pa0 + (dstva - va0)) n src }
          copyoutFrom pagetable turns (u64 (va0 + PGSIZE)) (fun j => src (n + j)) (len - n)

def copyout (pagetable dstva : Nat) (src : Mem) (len : Nat) : Kern Int := copyoutFrom pagetable len dstva src len

/-- The loop of `copyin`: the status and the bytes copied so far. -/
def copyinFrom (pagetable : Nat) : Nat → Nat → Nat → Kern (Int × List UInt8)
  | 0, _, _ => pure (0, [])
  | turns + 1, srcva, len =>
    if len = 0 then pure (0, [])
    else do
      let va0 := PGROUNDDOWN srcva
      match ← walkaddr pagetable va0 with
      | none => pure (-1, [])
      | some pa0 => do
          let n := min (PGSIZE - (srcva - va0)) len
          let mem := (← get).mem
          let bytes := (List.range n).map fun j => mem (pa0 + (srcva - va0) + j)
          let (status, rest) ← copyinFrom pagetable turns (u64 (va0 + PGSIZE)) (len - n)
          pure (status, bytes ++ rest)

def copyin (pagetable srcva len : Nat) : Kern (Int × List UInt8) := copyinFrom pagetable len srcva len

/-- The inner loop of `copyinstr`: the bytes before the first NUL, and whether there was one. -/
def scan (mem : Mem) : Nat → Nat → List UInt8 × Bool
  | 0, _ => ([], false)
  | n + 1, p =>
    if mem p = 0 then ([0], true)
    else
      let (bytes, got_null) := scan mem n (p + 1)
      (mem p :: bytes, got_null)

/-- The outer loop of `copyinstr`: the status and the bytes written to `dst`. -/
def copyinstrFrom (pagetable : Nat) : Nat → Nat → Nat → Kern (Int × List UInt8)
  | 0, _, _ => pure (-1, [])
  | turns + 1, srcva, max =>
    if max = 0 then pure (-1, [])
    else do
      let va0 := PGROUNDDOWN srcva
      match ← walkaddr pagetable va0 with
      | none => pure (-1, [])
      | some pa0 => do
          let n := min (PGSIZE - (srcva - va0)) max
          let (bytes, got_null) := scan (← get).mem n (pa0 + (srcva - va0))
          if got_null then pure (0, bytes)
          else do
            let (status, rest) ← copyinstrFrom pagetable turns (u64 (va0 + PGSIZE)) (max - n)
            pure (status, bytes ++ rest)

def copyinstr (pagetable srcva max : Nat) : Kern (Int × List UInt8) := copyinstrFrom pagetable max srcva max

/-! ## What an address space maps -/

/-- The number of pages that hold `sz` bytes. -/
def pages (sz : Nat) : Nat := (sz + (PGSIZE - 1)) / PGSIZE

/-- The virtual page of the trapframe; the trampoline is the next one. -/
abbrev TOP : Nat := TRAPFRAME / PGSIZE

/-- A leaf has a permission. -/
abbrev Leafy (pte : Nat) : Prop := pte &&& (PTE_R ||| PTE_W ||| PTE_X) ≠ 0

/-- A leaf has a permission, and user code cannot reach the two top pages. -/
def Good (j pte : Nat) : Prop := Leafy pte ∧ (TOP ≤ j → pte &&& PTE_U = 0)

/-- The leaves of the table at `root` are those of the virtual pages in `D`, and satisfy `G`. -/
structure Maps (G : Nat → Nat → Prop) (mem : Mem) (root : Nat) (D : Nat → Prop) : Prop where
  plain : Plain mem 2 root
  dom : ∀ j < VPAGES, (∃ pte, leaf mem root j = some pte) ↔ D j
  good : ∀ j < VPAGES, ∀ pte, leaf mem root j = some pte → G j pte

/-- User memory from `lo` to `hi`, and the kernel's pages `K`. -/
def Mapped (lo hi : Nat) (K : Nat → Prop) (j : Nat) : Prop := (lo ≤ j ∧ j < hi) ∨ K j

variable {img : Image} {s s' t : Pool UInt8} {mem mem' : Mem} {E : Panic → Prop} {root : Nat} {D D' : Nat → Prop}
  {G G' : Nat → Nat → Prop}

theorem leafy_flags (pte : Nat) : Leafy pte ↔ PTE_FLAGS pte &&& (PTE_R ||| PTE_W ||| PTE_X) ≠ 0 := by
  rw [PTE_FLAGS, Nat.and_assoc]
  exact Iff.rfl

variable {pte lo k j sz hi n c oldsz newsz : Nat} {K : Nat → Prop} {f : Nat → Nat}

/-- The page after user memory is free for the next one. -/
theorem mapped_next (kernel : ∀ j, K j → TOP ≤ j) (below : k < TOP) : ¬ Mapped lo k K k := by
  rintro (⟨_, high⟩ | special)
  · exact Nat.lt_irrefl k high
  · exact absurd (kernel k special) (Nat.not_le_of_lt below)

theorem below_maxva (below : k < TOP) : k * PGSIZE < MAXVA := by
  simp only [TOP, TRAPFRAME, TRAMPOLINE, MAXVA, PGSIZE] at below ⊢
  omega

theorem below_vpages (below : k ≤ TOP) : k < VPAGES := Nat.lt_of_le_of_lt below (by decide)

theorem roundup_pages (small : sz < 2 ^ 63) : PGROUNDUP sz = pages sz * PGSIZE :=
  roundup_eq (by simp only [PGSIZE]; omega)

theorem roundup_div (small : sz < 2 ^ 63) : PGROUNDUP sz / PGSIZE = pages sz := by
  rw [roundup_pages small, Nat.mul_div_cancel _ (by decide)]

theorem pages_mul (k : Nat) : pages (k * PGSIZE) = k := by
  simp only [pages, PGSIZE]
  omega

theorem pages_mono {a b : Nat} (le : a ≤ b) : pages a ≤ pages b :=
  Nat.div_le_div_right (Nat.add_le_add_right le _)

section

variable (maps : Maps G mem root D)
include maps

theorem Maps.none (range : j < VPAGES) (absent : ¬ D j) : leaf mem root j = none := by
  cases value : leaf mem root j with
  | none => rfl
  | some pte => exact absurd ((maps.dom j range).mp ⟨pte, value⟩) absent

theorem Maps.some (range : j < VPAGES) (present : D j) :
    ∃ pte, leaf mem root j = some pte ∧ G j pte := by
  obtain ⟨pte, value⟩ := (maps.dom j range).mpr present
  exact ⟨pte, value, maps.good j range pte value⟩

theorem Maps.congr (same : ∀ j < VPAGES, D j ↔ D' j) : Maps G mem root D' :=
  ⟨maps.plain, fun j hj => (maps.dom j hj).trans (same j hj), maps.good⟩

/-- The table is the one it was. -/
theorem Maps.same (plain : Plain mem 2 root → Plain mem' 2 root)
    (leaves : ∀ j < VPAGES, leaf mem' root j = leaf mem root j) : Maps G mem' root D where
  plain := plain maps.plain
  dom := fun j hj => by rw [leaves j hj]; exact maps.dom j hj
  good := fun j hj pte value => maps.good j hj pte ((leaves j hj).symm.trans value)

theorem Maps.add (plain : Plain mem 2 root → Plain mem' 2 root) (good : G k pte)
    (leaves : ∀ j < VPAGES, leaf mem' root j = if j = k then Option.some pte else leaf mem root j) :
    Maps G mem' root (fun j => D j ∨ j = k) where
  plain := plain maps.plain
  dom := fun j hj => by
    rw [leaves j hj]
    by_cases same : j = k
    · simp [same]
    · simp only [same, or_false]
      exact maps.dom j hj
  good := fun j hj pte' value => by
    rw [leaves j hj] at value
    by_cases same : j = k
    · rw [if_pos same] at value
      cases value
      rw [same]
      exact good
    · rw [if_neg same] at value
      exact maps.good j hj pte' value

theorem Maps.remove (plain : Plain mem 2 root → Plain mem' 2 root)
    (leaves : ∀ j < VPAGES, leaf mem' root j = if k ≤ j ∧ j < k + n then Option.none else leaf mem root j) :
    Maps G mem' root (fun j => D j ∧ ¬ (k ≤ j ∧ j < k + n)) where
  plain := plain maps.plain
  dom := fun j hj => by
    rw [leaves j hj]
    by_cases inside : k ≤ j ∧ j < k + n
    · simp [inside]
    · simp only [inside, not_false_iff, and_true]
      exact maps.dom j hj
  good := fun j hj pte value => by
    rw [leaves j hj] at value
    by_cases inside : k ≤ j ∧ j < k + n
    · rw [if_pos inside] at value
      cases value
    · rw [if_neg inside] at value
      exact maps.good j hj pte value

end

/-- User memory of `hi` pages without those from `k` on. -/
theorem mapped_drop (kernel : ∀ j, K j → TOP ≤ j) (range : hi ≤ TOP) (below : k ≤ hi) :
    Mapped lo hi K j ∧ ¬ (k ≤ j ∧ j < k + (hi - k)) ↔ Mapped lo k K j := by
  have := kernel j
  unfold Mapped
  constructor
  · rintro ⟨⟨low, high⟩ | special, outside⟩
    · exact .inl ⟨low, by omega⟩
    · exact .inr special
  · rintro (⟨low, high⟩ | special)
    · exact ⟨.inl ⟨low, by omega⟩, by omega⟩
    · exact ⟨.inr special, by have := this special; omega⟩

/-- A program that owns other pages leaves an address space alone. -/
theorem space_frame {f' : Nat → Nat} (fits : img.Fits s (fun q => f q + tables s.mem root q))
    (keeps : img.Keeps s f t f') :
    (∀ hi q, space t.mem root hi q = space s.mem root hi q) ∧ ∀ G D, Maps G s.mem root D → Maps G t.mem root D := by
  obtain ⟨sameTables, sameLeaves, _, samePlain⟩ := table_frame fits keeps
  refine ⟨fun hi q => ?_, fun G D maps => maps.same samePlain fun j _ => sameLeaves j⟩
  rw [space, space, sameTables, pagesOf_congr fun j _ => sameLeaves j]

/-! ## Room for user memory -/

theorem target_two {L : Nat → Option Nat} (hj : j < hi) (hk : k < hi) (ne : j ≠ k) (q : Nat) :
    target (L j) q + target (L k) q ≤ pagesOf L hi q := by
  have sum := Finset.sum_le_sum_of_subset (f := fun j => target (L j) q)
    (show ({j, k} : Finset Nat) ⊆ Finset.range hi from fun i member => by
      rcases Finset.mem_insert.mp member with rfl | rest
      · exact Finset.mem_range.mpr hj
      · rw [Finset.mem_singleton.mp rest]
        exact Finset.mem_range.mpr hk)
  rwa [Finset.sum_pair ne] at sum

/-- User memory is at most physical memory: below `PHYSTOP` there are 2^15 pages. -/
theorem Maps.room (maps : Maps G s.mem root (Mapped lo hi K)) (range : hi ≤ VPAGES)
    (fits : img.Fits s (space s.mem root hi)) : hi - lo ≤ 2 ^ 15 := by
  have mapped : ∀ j, lo ≤ j → j < hi → ∃ pte, leaf s.mem root j = Option.some pte := fun j low high =>
    (maps.dom j (by omega)).mpr (.inl ⟨low, high⟩)
  let number := fun j => (leaf s.mem root j).elim 0 PTE2PA
  have owned : ∀ j, lo ≤ j → j < hi → 0 < target (leaf s.mem root j) (number j) := by
    intro j low high
    obtain ⟨pte, value⟩ := mapped j low high
    simp [number, target, value]
  have pageOf : ∀ j, lo ≤ j → j < hi → img.IsPage (number j) := fun j low high =>
    tree_pages fits (number j) (Nat.lt_of_lt_of_le (owned j low high)
      (Nat.le_trans (target_le high _) (Nat.le_add_left _ _)))
  have into : ∀ j ∈ Finset.Ico lo hi, number j / PGSIZE - KERNBASE / PGSIZE ∈ Finset.range (2 ^ 15) := by
    intro j member
    obtain ⟨low, high⟩ := Finset.mem_Ico.mp member
    have top := (pageOf j low high).2.2
    simp only [Finset.mem_range, PHYSTOP, KERNBASE, PGSIZE] at top ⊢
    omega
  have injective : Set.InjOn (fun j => number j / PGSIZE - KERNBASE / PGSIZE) (Finset.Ico lo hi : Finset Nat) := by
    intro j hj k hk same
    obtain ⟨jlow, jhigh⟩ := Finset.mem_Ico.mp hj
    obtain ⟨klow, khigh⟩ := Finset.mem_Ico.mp hk
    by_contra ne
    have pj := pageOf j jlow jhigh
    have pk := pageOf k klow khigh
    have base := img.base
    have inKernel := img.inKernel
    have equal : number k = number j := by
      have := pj.1
      have := pk.1
      have := pj.2.1
      have := pk.2.1
      simp only [KERNBASE, PGSIZE] at *
      omega
    have once := fits.once (number j)
    have mine := owned j jlow jhigh
    have yours := owned k klow khigh
    have both := target_two (L := leaf s.mem root) jhigh khigh ne (number j)
    rw [equal] at yours
    rw [space] at once
    omega
  have := Finset.card_le_card_of_injOn _ into injective
  simpa using this

/-! ## Mapping a page -/

/-- The permissions of memory that `uvmalloc` maps. -/
abbrev USERPERM : Nat := PTE_W ||| PTE_X ||| PTE_R ||| PTE_U

/-- Take a page, fill it and map it; one turn of the loops of `uvmalloc` and `uvmcopy`. -/
def addPage {α : Type} (img : Image) (pagetable a perm : Nat) (fill : Nat → Kern Unit) (short next : Kern α) :
    Kern α := do
  match ← kalloc with
  | none => short
  | some mem => do
      fill mem
      let r ← mappages pagetable a PGSIZE mem perm
      if r ≠ 0 then do
        kfree img mem
        short
      else next

theorem uvmallocFrom_succ (pagetable oldsz newsz n a : Nat) : uvmallocFrom img pagetable oldsz newsz (n + 1) a =
    addPage img pagetable a USERPERM (fun mem => memset mem 0 PGSIZE)
    (do let _ ← uvmdealloc img pagetable a oldsz; pure 0)
      (uvmallocFrom img pagetable oldsz newsz n (a + PGSIZE)) := rfl

theorem uvmcopyFrom_succ (old new n i : Nat) : uvmcopyFrom img old new (n + 1) i =
    withEntry old i (throw .uvmcopyPte) (throw .uvmcopyPage) fun _ pte =>
      addPage img new i (PTE_FLAGS pte) (fun mem => memmove mem (PTE2PA pte) PGSIZE)
        (do uvmunmap img new 0 (i / PGSIZE) true; pure (-1)) (uvmcopyFrom img old new n (i + PGSIZE)) := rfl

/-- The table may have grown, and maps what it mapped. -/
structure Alike (img : Image) (root : Nat) (s t : Pool UInt8) : Prop where
  keeps : img.Keeps s (tables s.mem root) t (tables t.mem root)
  plain : Plain s.mem 2 root → Plain t.mem 2 root
  leaves : ∀ j < VPAGES, leaf t.mem root j = leaf s.mem root j

/-- The page `c`, which holds `data`, was mapped at virtual page `k`. -/
structure Added (img : Image) (root k c perm : Nat) (data : Nat → UInt8) (s t : Pool UInt8) : Prop where
  page : img.IsPage c
  keeps : img.Keeps s (tables s.mem root) t (fun q => one c q + tables t.mem root q)
  plain : Plain s.mem 2 root → Plain t.mem 2 root
  leaves : ∀ j < VPAGES, leaf t.mem root j = if j = k then some (PA2PTE c ||| perm ||| PTE_V) else leaf s.mem root j
  bytes : ∀ i < PGSIZE, t.mem (c + i) = data i

/-- A program that owns other pages, beside a page table. -/
theorem beside {f' : Nat → Nat} (fits : img.Fits s (fun q => f q + tables s.mem root q)) (keeps : img.Keeps s f t f') :
    img.Keeps s (fun q => f q + tables s.mem root q) t (fun q => f' q + tables t.mem root q) ∧
    (Plain s.mem 2 root → Plain t.mem 2 root) ∧ ∀ j, leaf t.mem root j = leaf s.mem root j := by
  obtain ⟨sameTables, sameLeaves, -, samePlain⟩ := table_frame fits keeps
  exact ⟨keeps.within (tables s.mem root) (fun _ => rfl) fun q => by rw [sameTables], samePlain, sameLeaves⟩

theorem keeps_fill (data : Nat → UInt8) (page : img.IsPage c) (small : n ≤ PGSIZE) (fits : img.Fits s (one c)) :
    img.Keeps s (one c) { s with mem := blit s.mem c n data } (one c) := by
  refine keeps_write fits fun x none => blit_outside page.1 small ?_
  rintro rfl
  rw [one_self] at none
  cases none

section AddPage

variable {k perm : Nat} (range : k * PGSIZE < MAXVA) (perms : perm < 1024)
include range perms

/-- Mapping a page that was taken and filled. -/
theorem map_filled (data : Nat → UInt8) (fits : img.Fits s (tables s.mem root)) (absent : leaf s.mem root k = none)
    (page : img.IsPage c) (took : img.Keeps s (fun _ => 0) t (one c)) :
    wp (mappages root (k * PGSIZE) PGSIZE c perm) { t with mem := blit t.mem c PGSIZE data } (fun r u =>
      r = 0 ∧ Added img root k c perm data s u ∨
      r = -1 ∧ t.free.length < 2 ∧ img.Keeps s (tables s.mem root) u (fun q => one c q + tables u.mem root q) ∧
        (Plain s.mem 2 root → Plain u.mem 2 root) ∧ ∀ j < VPAGES, leaf u.mem root j = leaf s.mem root j) E := by
  have index : k * PGSIZE / PGSIZE = k := Nat.mul_div_cancel k (by decide)
  have fits₀ : img.Fits s (fun q => 0 + tables s.mem root q) := by simpa only [Nat.zero_add] using fits
  obtain ⟨keeps₁, plain₁, leaves₁⟩ := beside fits₀
    (took.trans (keeps_fill data page (Nat.le_refl _) ((fits.mono fun _ => Nat.zero_le _).keeps took)))
  have own := fits₀.keeps keeps₁
  refine wp_imp (mappages_spec (own.mono fun q => Nat.le_add_left _ _) (Nat.mul_mod_left _ _) range
    (by rw [index, leaves₁, absent]) (Nat.lt_trans page.2.2 (by decide)) perms)
    fun r u ⟨keeps, plain, _, _, outcome⟩ => ?_
  have whole : img.Keeps s (tables s.mem root) u (fun q => one c q + tables u.mem root q) :=
    (keeps₁.congr (fun q => (Nat.zero_add _).symm) fun _ => rfl).trans
      (keeps.within (one c) (fun q => Nat.add_comm ..) fun q => Nat.add_comm ..)
  rw [index] at outcome
  rcases outcome with ⟨rfl, few, leaves⟩ | ⟨rfl, leaves⟩
  · exact .inr ⟨rfl, few, whole, fun h => plain (plain₁ h), fun j small => (leaves j small).trans (leaves₁ j)⟩
  · refine .inl ⟨rfl, page, whole, fun h => plain (plain₁ h), fun j small => by rw [leaves j small, leaves₁],
      fun i small => ?_⟩
    have untouched := keeps.untouched (g := one c) (own.mono fun q => Nat.le_of_eq (Nat.add_comm ..)) (x := c + i) (by
      show 0 < one c (PGROUNDDOWN (c + i))
      rw [rounddown_add page.1 small, one_self]
      exact Nat.one_pos)
    refine untouched.trans ((blit_in (Nat.le_add_right c i) (by omega)).trans ?_)
    rw [Nat.add_sub_cancel_left]

theorem wp_addPage {α : Type} {fill : Nat → Kern Unit} {short next : Kern α} {Q : α → Pool UInt8 → Prop}
    (P : (Nat → UInt8) → Prop) (fits : img.Fits s (tables s.mem root)) (absent : leaf s.mem root k = none)
    (fills : ∀ c t, img.IsPage c → img.Keeps s (fun _ => 0) t (one c) →
      wp (fill c) t (fun _ u => ∃ data, P data ∧ u = { t with mem := blit t.mem c PGSIZE data }) E)
    (stop : ∀ t, Alike img root s t → wp short t Q E)
    (go : ∀ c t data, P data → Added img root k c perm data s t → wp next t Q E) :
    wp (addPage img root (k * PGSIZE) perm fill short next) s Q E := by
  refine wp_bind (wp_imp (kalloc_spec fits) fun r t outcome => ?_)
  rcases outcome with ⟨rfl, -, rfl⟩ | ⟨c, rfl, -, page, took⟩
  · exact stop _ ⟨.refl _ _, fun h => h, fun _ _ => rfl⟩
  · refine wp_bind (wp_imp (fills c t page took) ?_)
    rintro _ v ⟨data, fine, rfl⟩
    refine wp_bind (wp_imp (map_filled range perms data fits absent page took) ?_)
    rintro r w (⟨rfl, added⟩ | ⟨rfl, -, keeps, plain, leaves⟩)
    · rw [if_neg (by simp)]
      exact go c w data fine added
    · rw [if_pos (by simp)]
      have own := fits.keeps keeps
      refine wp_bind (wp_imp (kfree_spec (own.mono fun q => Nat.le_add_right _ _)) fun _ x freed => stop x ?_)
      obtain ⟨keeps', plain', leaves'⟩ := beside own freed.2
      exact ⟨keeps.trans (keeps'.congr (fun _ => rfl) fun q => (Nat.zero_add _).symm), fun h => plain' (plain h),
        fun j small => (leaves' j).trans (leaves j small)⟩

end AddPage

theorem good_user {perm : Nat} (below : k < TOP) (leafy : Leafy perm) : Good k (PA2PTE c ||| perm ||| PTE_V) :=
  ⟨made_perm leafy, fun above => absurd below (Nat.not_lt_of_le above)⟩

theorem good_fresh (k : Nat) (below : k < TOP) (c : Nat) : Good k (PA2PTE c ||| USERPERM ||| PTE_V) :=
  good_user below (by decide)

/-! ## Many pages more -/

theorem pagesIn_snoc (leaves : Nat → Option Nat) (k n q : Nat) :
    pagesIn leaves k (n + 1) q = pagesIn leaves k n q + target (leaves (k + n)) q := by
  rw [pagesIn, ← Nat.add_assoc, Finset.sum_Ico_succ_top (Nat.le_add_right k n)]
  rfl

theorem pagesOf_eq (L : Nat → Option Nat) (hi q : Nat) : pagesOf L hi q = pagesIn L 0 hi q := by
  rw [pagesOf, pagesIn, Nat.zero_add, Nat.Ico_zero_eq_range]

theorem pagesOf_add (L : Nat → Option Nat) (k n q : Nat) : pagesOf L (k + n) q = pagesOf L k q + pagesIn L k n q := by
  rw [pagesOf_eq, pagesOf_eq, pagesIn, pagesIn, pagesIn, Nat.zero_add, Nat.zero_add,
    Finset.sum_Ico_consecutive _ (Nat.zero_le k) (Nat.le_add_right k n)]

theorem target_le_pagesIn {L : Nat → Option Nat} (low : k ≤ j) (high : j < k + n) (q : Nat) :
    target (L j) q ≤ pagesIn L k n q :=
  Finset.single_le_sum (f := fun j => target (L j) q) (fun _ _ => Nat.zero_le _) (Finset.mem_Ico.mpr ⟨low, high⟩)

/-- `n` pages were added from virtual page `start` on: page `j` with `perm j`, holding `data j`. -/
structure Grew (img : Image) (root start n : Nat) (perm : Nat → Nat) (data : Nat → Nat → UInt8)
    (s t : Pool UInt8) : Prop where
  keeps : img.Keeps s (tables s.mem root) t (fun q => pagesIn (leaf t.mem root) start n q + tables t.mem root q)
  plain : Plain s.mem 2 root → Plain t.mem 2 root
  leaves : ∀ j < VPAGES, ¬ (start ≤ j ∧ j < start + n) → leaf t.mem root j = leaf s.mem root j
  pages : ∀ j, start ≤ j → j < start + n → ∃ c, img.IsPage c ∧
    leaf t.mem root j = some (PA2PTE c ||| perm j ||| PTE_V) ∧
    ∀ i < PGSIZE, t.mem (c + i) = data j i

namespace Grew

variable {u : Pool UInt8} {start : Nat} {perm : Nat → Nat} {data : Nat → Nat → UInt8}

theorem refl (s : Pool UInt8) : Grew img root start 0 perm data s s where
  keeps := (Pool.Keeps.refl s _).congr (fun _ => rfl) fun q => by simp [pagesIn]
  plain h := h
  leaves _ _ _ := rfl
  pages j low high := by omega

theorem fits (grew : Grew img root start n perm data s t) (fits : img.Fits s (tables s.mem root)) :
    img.Fits t (fun q => pagesIn (leaf t.mem root) start n q + tables t.mem root q) := fits.keeps grew.keeps

/-- A page that was added is owned. -/
theorem mine (perms : ∀ j, perm j < 1024) (low : start ≤ j) (high : j < start + n) (page : img.IsPage c)
    (mapped : leaf t.mem root j = some (PA2PTE c ||| perm j ||| PTE_V)) : 0 < pagesIn (leaf t.mem root) start n c := by
  have owned := target_le_pagesIn (L := leaf t.mem root) low high c
  rw [mapped, target_some, pte_pa (perms j) (Nat.lt_trans page.2.2 (by decide)) page.1, one_self] at owned
  exact owned

/-- What owns the table does not change the pages that were added. -/
theorem untouched {i : Nat} (perms : ∀ j, perm j < 1024) (own : img.Fits s (tables s.mem root))
    (grew : Grew img root start n perm data s t) (low : start ≤ j) (high : j < start + n) (page : img.IsPage c)
    (mapped : leaf t.mem root j = some (PA2PTE c ||| perm j ||| PTE_V)) (keeps : img.Keeps t (tables t.mem root) u f)
    (small : i < PGSIZE) :
    u.mem (c + i) = t.mem (c + i) := by
  refine Pool.Keeps.untouched (g := pagesIn (leaf t.mem root) start n) keeps
    ((grew.fits own).mono fun q => Nat.le_of_eq (Nat.add_comm ..)) ?_
  show 0 < pagesIn _ _ _ (PGROUNDDOWN (c + i))
  rw [rounddown_add page.1 small]
  exact mine perms low high page mapped

/-- One page more. -/
theorem snoc (perms : ∀ j, perm j < 1024) (own : img.Fits s (tables s.mem root)) (range : start + n < VPAGES)
    (grew : Grew img root start n perm data s t)
    (added : Added img root (start + n) c (perm (start + n)) (data (start + n)) t u) :
    Grew img root start (n + 1) perm data s u := by
  have same : ∀ j, start ≤ j → j < start + n → leaf u.mem root j = leaf t.mem root j := by
    intro j _ high
    rw [added.leaves j (by omega), if_neg (by omega)]
  have last := added.leaves (start + n) range
  rw [if_pos rfl] at last
  refine ⟨?_, fun h => added.plain (grew.plain h), ?_, ?_⟩
  · refine grew.keeps.trans (added.keeps.within (pagesIn (leaf t.mem root) start n) (fun q => Nat.add_comm ..)
      fun q => ?_)
    rw [pagesIn_snoc, pagesIn_congr same, last, target_some,
      pte_pa (perms _) (Nat.lt_trans added.page.2.2 (by decide)) added.page.1]
    omega
  · intro j small outside
    rw [added.leaves j small, if_neg (by omega)]
    exact grew.leaves j small (by omega)
  · intro j low high
    by_cases here : j = start + n
    · subst here
      exact ⟨c, added.page, last, added.bytes⟩
    · obtain ⟨d, page, mapped, bytes⟩ := grew.pages j low (by omega)
      refine ⟨d, page, by rw [same j low (by omega), mapped], fun i small => ?_⟩
      rw [← bytes i small]
      exact grew.untouched perms own low (by omega) page mapped added.keeps small

/-- The pages that were added are removed again. -/
theorem undo (absent : ∀ j, start ≤ j → j < start + n → leaf s.mem root j = none)
    (grew : Grew img root start n perm data s t)
    (removed : Removed img root start n (pagesIn (leaf t.mem root) start n) t u) : Alike img root s u where
  keeps := grew.keeps.trans removed.keeps
  plain h := removed.plain (grew.plain h)
  leaves j small := by
    rw [removed.leaves j small]
    split
    · next here => rw [absent j here.1 here.2]
    · next outside => exact grew.leaves j small outside

theorem mapped (leafy : ∀ j, start ≤ j → j < start + n → Leafy (perm j)) (grew : Grew img root start n perm data s t) :
    ∀ j, start ≤ j → j < start + n → ∃ pte, leaf t.mem root j = some pte ∧ PTE_FLAGS pte ≠ PTE_V := by
  intro j low high
  obtain ⟨c, _, mapped, _⟩ := grew.pages j low high
  exact ⟨_, mapped, leaf_flags (made_perm (leafy j low high))⟩

/-- A turn that failed has changed nothing that was added. -/
theorem alike (perms : ∀ j, perm j < 1024) (own : img.Fits s (tables s.mem root)) (inTable : start + n ≤ MAXVA / PGSIZE)
    (grew : Grew img root start n perm data s t) (alike : Alike img root t u) :
    Grew img root start n perm data s u := by
  have range : MAXVA / PGSIZE ≤ VPAGES := by decide
  have same : ∀ j, start ≤ j → j < start + n → leaf u.mem root j = leaf t.mem root j := fun j _ high =>
    alike.leaves j (by omega)
  refine ⟨grew.keeps.trans (alike.keeps.within (pagesIn (leaf t.mem root) start n) (fun q => Nat.add_comm ..)
    fun q => ?_),
    fun h => alike.plain (grew.plain h), fun j small outside =>
    (alike.leaves j small).trans (grew.leaves j small outside), ?_⟩
  · rw [pagesIn_congr same, Nat.add_comm]
  · intro j low high
    obtain ⟨c, page, mapped, bytes⟩ := grew.pages j low high
    refine ⟨c, page, by rw [same j low high, mapped], fun i small => ?_⟩
    rw [← bytes i small]
    exact grew.untouched perms own low high page mapped alike.keeps small

/-- User memory of `start` pages has `n` more. -/
theorem maps (grew : Grew img root start n perm data s t) (old : Maps G s.mem root (Mapped lo start K))
    (above : lo ≤ start) (good : ∀ j c, start ≤ j → j < start + n → G j (PA2PTE c ||| perm j ||| PTE_V)) :
    Maps G t.mem root (Mapped lo (start + n) K) where
  plain := grew.plain old.plain
  dom j small := by
    by_cases new : start ≤ j ∧ j < start + n
    · obtain ⟨c, _, mapped, _⟩ := grew.pages j new.1 new.2
      exact iff_of_true ⟨_, mapped⟩ (.inl ⟨by omega, new.2⟩)
    · rw [grew.leaves j small new, old.dom j small]
      exact or_congr_left ⟨fun h => ⟨h.1, by omega⟩, fun h => ⟨h.1, by omega⟩⟩
  good j small pte mapped := by
    by_cases new : start ≤ j ∧ j < start + n
    · obtain ⟨c, _, is, _⟩ := grew.pages j new.1 new.2
      rw [is] at mapped
      cases mapped
      exact good j c new.1 new.2
    · rw [grew.leaves j small new] at mapped
      exact old.good j small pte mapped

theorem space (grew : Grew img root start n perm data s t) (range : start ≤ VPAGES) :
    img.Keeps s (space s.mem root start) t (Vm.space t.mem root (start + n)) := by
  refine grew.keeps.within (pagesOf (leaf s.mem root) start) (fun _ => rfl) fun q => ?_
  rw [Vm.space, pagesOf_add, pagesOf_congr fun j less => grew.leaves j (by omega) (by omega)]
  omega

end Grew

theorem Alike.space (alike : Alike img root s t) (range : hi ≤ VPAGES) :
    img.Keeps s (space s.mem root hi) t (space t.mem root hi) := by
  refine alike.keeps.within (pagesOf (leaf s.mem root) hi) (fun _ => rfl) fun q => ?_
  rw [Vm.space, pagesOf_congr fun j less => alike.leaves j (by omega)]

/-! ## Contracts -/

/-- An empty table. -/
theorem uvmcreate_spec (fits : img.Fits s f) : wp uvmcreate s (fun r s' =>
    (r = none ∧ s.free = [] ∧ s' = s) ∨
    ∃ root, r = some root ∧ 0 < root ∧ s.free.length = s'.free.length + 1 ∧ Maps G s'.mem root (fun _ => False) ∧
      img.Keeps s (fun _ => 0) s' (tables s'.mem root)) E := by
  refine wp_bind (wp_imp (kalloc_spec fits) fun r t outcome => ?_)
  rcases outcome with ⟨rfl, out, rfl⟩ | ⟨root, rfl, taken, page, keeps⟩
  · exact wp_pure (.inl ⟨rfl, out, rfl⟩)
  · have empty : ∀ i < 512, entry (blit t.mem root PGSIZE fun _ => 0) root i = none :=
      entry_zeroed fun x low high => by rw [blit_in low high]
    refine wp_bind (wp_modify (wp_pure (.inr ⟨root, rfl, page.pos, by rw [taken, List.length_cons],
      ⟨Radix.inner_empty empty, fun j _ => ?_, fun j _ pte mapped => ?_⟩, ?_⟩)))
    · rw [leaf, value, Radix.lookup_empty (by decide) empty]
      simp
    · rw [leaf, value, Radix.lookup_empty (by decide) empty] at mapped
      cases mapped
    · have fits' : img.Fits t (one root) := (fits.mono fun _ => Nat.zero_le _).keeps keeps
      refine (keeps.trans (keeps_write fits' fun x none => blit_outside page.1 (Nat.le_refl _) ?_)).congr (fun _ => rfl)
        fun q => Radix.count_empty empty q
      rintro rfl
      rw [one_self] at none
      cases none

/-- `uvmdealloc` unmaps the pages past the new size, when there are any. -/
theorem wp_uvmdealloc {Q : Nat → Pool UInt8 → Prop} (range : pages oldsz ≤ TOP)
    (stay : pages oldsz ≤ pages newsz → pages (min oldsz newsz) = pages oldsz → Q (min oldsz newsz) s)
    (drop : newsz < oldsz → pages newsz < pages oldsz →
      wp (uvmunmap img root (pages newsz * PGSIZE) (pages oldsz - pages newsz) true) s (fun _ t => Q newsz t) E) :
    wp (uvmdealloc img root oldsz newsz) s Q E := by
  have small : oldsz < 2 ^ 63 := by
    simp only [pages, TOP, TRAPFRAME, TRAMPOLINE, MAXVA, PGSIZE] at range
    omega
  unfold uvmdealloc
  by_cases grows : oldsz ≤ newsz
  · have least := Nat.min_eq_left grows
    rw [if_pos grows, ← least]
    exact wp_pure (stay (pages_mono grows) (by rw [least]))
  · have least : min oldsz newsz = newsz := Nat.min_eq_right (by omega)
    have down : pages newsz ≤ pages oldsz := pages_mono (by omega)
    rw [if_neg grows, roundup_pages small, roundup_pages (by omega)]
    by_cases fewer : pages newsz * PGSIZE < pages oldsz * PGSIZE
    · have count : sext32 ((pages oldsz * PGSIZE - pages newsz * PGSIZE) / PGSIZE) = pages oldsz - pages newsz := by
        rw [← Nat.sub_mul, Nat.mul_div_cancel _ (by decide), sext32]
        simp only [TOP, TRAPFRAME, TRAMPOLINE, MAXVA, PGSIZE] at range
        rw [if_pos (by omega)]
        omega
      rw [if_pos fewer, count]
      exact wp_bind (wp_imp (drop (by omega) (Nat.lt_of_mul_lt_mul_right fewer)) fun _ _ done => wp_pure done)
    · have same : pages newsz = pages oldsz := by
        simp only [PGSIZE] at fewer
        omega
      rw [if_neg fewer]
      rw [least] at stay
      exact wp_pure (stay (Nat.le_of_eq same.symm) same)

section User

variable {K : Nat → Prop} {lo : Nat} (kernel : ∀ j, K j → TOP ≤ j) (leafy : ∀ j pte, G j pte → Leafy pte)

include kernel leafy

/-- Dropping the pages `[k, hi)` of user memory. -/
theorem unmap_user (maps : Maps G s.mem root (Mapped lo hi K)) (fits : img.Fits s (space s.mem root hi))
    (below : k ≤ hi) (range : hi ≤ TOP) (holes : k < lo → E .uvmunmapWalk ∧ E .uvmunmapNotMapped) :
    wp (uvmunmap img root (k * PGSIZE) (hi - k) true) s (fun _ s' =>
      Maps G s'.mem root (Mapped lo k K) ∧ img.Keeps s (space s.mem root hi) s' (space s'.mem root k)) E := by
  have top : TOP + 2 ≤ MAXVA / PGSIZE ∧ MAXVA / PGSIZE < VPAGES := by decide
  have mapped : ∀ j, k ≤ j → j < k + (hi - k) → (∃ pte, leaf s.mem root j = some pte ∧ PTE_FLAGS pte ≠ PTE_V) ∨
      leaf s.mem root j = none ∧ E .uvmunmapWalk ∧ E .uvmunmapNotMapped := by
    intro j low high
    have inTable : j < VPAGES := by omega
    by_cases hole : j < lo
    · refine .inr ⟨maps.none inTable ?_, holes (by omega)⟩
      rintro (⟨above, _⟩ | special)
      · omega
      · have := kernel j special
        omega
    · obtain ⟨pte, present, good⟩ := maps.some inTable (.inl ⟨by omega, by omega⟩)
      exact .inl ⟨pte, present, leaf_flags (leafy j pte good)⟩
  refine wp_imp (uvmunmap_spec (by omega) mapped (by omega) fits (.inl ⟨rfl, by omega⟩)) fun _ s' gone => ?_
  refine ⟨(maps.remove gone.plain gone.leaves).congr fun j _ => mapped_drop kernel range below,
    gone.keeps.congr (fun _ => rfl) fun q => ?_⟩
  rw [space, space, pagesOf_drop q below]
  intro j low high
  rw [gone.leaves j (by omega), if_pos (by omega)]

/-- Shrinking user memory; a hole below the new size is never touched. -/
theorem uvmdealloc_spec (maps : Maps G s.mem root (Mapped lo (pages oldsz) K))
    (fits : img.Fits s (space s.mem root (pages oldsz))) (range : pages oldsz ≤ TOP)
    (holes : newsz < oldsz → pages newsz < lo → E .uvmunmapWalk ∧ E .uvmunmapNotMapped) :
    wp (uvmdealloc img root oldsz newsz) s (fun r s' => r = min oldsz newsz ∧
      Maps G s'.mem root (Mapped lo (pages r) K) ∧
      img.Keeps s (space s.mem root (pages oldsz)) s' (space s'.mem root (pages r))) E := by
  refine wp_uvmdealloc range (fun grows same => ⟨rfl, ?_, ?_⟩) fun shrinks less => wp_imp
    (unmap_user kernel leafy maps fits (Nat.le_of_lt less) range (holes shrinks)) fun _ s' ⟨fewer, keeps⟩ =>
      ⟨(Nat.min_eq_right (Nat.le_of_lt shrinks)).symm, fewer, keeps⟩
  all_goals rw [same]
  · exact maps
  · exact .refl _ _

end User

/-- The pages that `uvmdealloc` takes away. -/
theorem uvmdealloc_removes (range : pages oldsz ≤ TOP)
    (fits : img.Fits s (fun q =>
      pagesIn (leaf s.mem root) (pages newsz) (pages oldsz - pages newsz) q + tables s.mem root q))
    (mapped : ∀ j, pages newsz ≤ j → j < pages oldsz → ∃ pte, leaf s.mem root j = some pte ∧ PTE_FLAGS pte ≠ PTE_V) :
    wp (uvmdealloc img root oldsz newsz) s (fun r t => r = min oldsz newsz ∧
      Removed img root (pages newsz) (pages oldsz - pages newsz)
        (pagesIn (leaf s.mem root) (pages newsz) (pages oldsz - pages newsz)) s t) E := by
  refine wp_uvmdealloc range (fun more _ => ⟨rfl, ?_⟩) fun shrinks less => wp_imp
    (uvmunmap_removes ?_ (fun j low high => .inl (mapped j low (by omega))) fits) fun _ t removed =>
      ⟨(Nat.min_eq_right (Nat.le_of_lt shrinks)).symm, removed⟩
  · rw [Nat.sub_eq_zero_of_le more]
    refine ⟨(Pool.Keeps.refl s _).congr (fun q => ?_) (fun _ => rfl), fun h => h, fun j _ => by rw [if_neg (by omega)]⟩
    simp [pagesIn]
  · simp only [TOP, TRAPFRAME, TRAMPOLINE, MAXVA, PGSIZE] at range ⊢
    omega

/-- User memory as `uvmalloc` adds it. -/
abbrev Zeroed (img : Image) (root start n : Nat) (s t : Pool UInt8) : Prop :=
  Grew img root start n (fun _ => USERPERM) (fun _ _ => 0) s t

/-- The loop of `uvmalloc`, when `k` of the `total` pages are there. -/
theorem uvmallocFrom_grows {start total : Nat} (own : img.Fits s (tables s.mem root))
    (room : ∀ k < total, ∀ t, start + k ≤ TOP → Zeroed img root start k s t → start + k < TOP)
    (absent : ∀ j, start ≤ j → j < TOP → leaf s.mem root j = none) : ∀ {n k : Nat} {t : Pool UInt8},
    k + n = total → start + k ≤ TOP → Zeroed img root start k s t →
    wp (uvmallocFrom img root (start * PGSIZE) newsz n ((start + k) * PGSIZE)) t (fun r u =>
      r = newsz ∧ start + total ≤ TOP ∧ Zeroed img root start total s u ∨ r = 0 ∧ Alike img root s u) E := by
  have perms : USERPERM < 1024 := by decide
  have leafy : Leafy USERPERM := by decide
  have top : TOP ≤ MAXVA / PGSIZE := by decide
  have wide : MAXVA / PGSIZE ≤ VPAGES := by decide
  intro n
  induction n with
  | zero =>
    rintro k t rfl range grew
    exact wp_pure (.inl ⟨rfl, range, grew⟩)
  | succ n ih =>
    intro k t turns range grew
    have below := room k (by omega) t range grew
    rw [uvmallocFrom_succ]
    refine wp_addPage (below_maxva below) perms (· = fun _ => 0) ((grew.fits own).mono fun q => Nat.le_add_left _ _) ?_
      (fun c v _ _ => wp_modify ⟨_, rfl, rfl⟩) ?_ ?_
    · rw [grew.leaves _ (by omega) (by omega)]
      exact absent _ (by omega) below
    · intro v alike
      have kept := grew.alike (fun _ => perms) own (by omega) alike
      -- the pages of the earlier turns are given back
      have none' : ∀ j, start ≤ j → j < start + k → leaf s.mem root j = none :=
        fun j low high => absent j low (by omega)
      have removes := @uvmdealloc_removes img v E root ((start + k) * PGSIZE) (start * PGSIZE)
      rw [pages_mul, pages_mul, Nat.add_sub_cancel_left] at removes
      refine wp_bind (wp_imp (removes (by omega) (kept.fits own) (kept.mapped fun _ _ _ => leafy)) fun _ w done => ?_)
      exact wp_pure (.inr ⟨rfl, kept.undo none' done.2⟩)
    · rintro c v _ rfl added
      have next : (start + k) * PGSIZE + PGSIZE = (start + (k + 1)) * PGSIZE := by
        rw [← Nat.add_assoc, Nat.add_mul (start + k), Nat.one_mul]
      rw [next]
      exact ih (by omega) (by omega) (grew.snoc (fun _ => perms) own (by omega) added)

/-- **uvmalloc** adds zeroed pages, or it returns 0 and has added nothing. -/
theorem uvmalloc_grows (own : img.Fits s (tables s.mem root)) (le : oldsz ≤ newsz) (range : pages oldsz ≤ TOP)
    (room : ∀ k < pages newsz - pages oldsz, ∀ t, pages oldsz + k ≤ TOP → Zeroed img root (pages oldsz) k s t →
      pages oldsz + k < TOP)
    (absent : ∀ j, pages oldsz ≤ j → j < TOP → leaf s.mem root j = none) :
    wp (uvmalloc img root oldsz newsz) s (fun r t =>
      r = newsz ∧ pages newsz ≤ TOP ∧ Zeroed img root (pages oldsz) (pages newsz - pages oldsz) s t ∨ r = 0 ∧
      Alike img root s t) E := by
  have more : pages oldsz ≤ pages newsz := pages_mono le
  have small : oldsz < 2 ^ 63 := by
    simp only [pages, TOP, TRAPFRAME, TRAMPOLINE, MAXVA, PGSIZE] at range
    omega
  have turns : (newsz - pages oldsz * PGSIZE + (PGSIZE - 1)) / PGSIZE = pages newsz - pages oldsz := by
    simp only [pages, PGSIZE]
    omega
  unfold uvmalloc
  rw [if_neg (Nat.not_lt_of_le le), roundup_pages small, turns]
  have run := @uvmallocFrom_grows img s E root newsz _ _ own room absent _ _ s (Nat.zero_add _) range (.refl s)
  rwa [Nat.add_zero, Nat.add_sub_cancel' more] at run

/-- Growing user memory: on failure nothing is left behind. -/
theorem uvmalloc_spec (kernel : ∀ j, K j → TOP ≤ j) (few : lo ≤ 1) (above : lo ≤ pages oldsz)
    (range : pages oldsz ≤ TOP)
    (maps : Maps Good s.mem root (Mapped lo (pages oldsz) K)) (fits : img.Fits s (space s.mem root (pages oldsz))) :
    wp (uvmalloc img root oldsz newsz) s (fun r s' =>
      (r = 0 ∧ Maps Good s'.mem root (Mapped lo (pages oldsz) K) ∧
        img.Keeps s (space s.mem root (pages oldsz)) s' (space s'.mem root (pages oldsz))) ∨
      (r = max oldsz newsz ∧ pages r ≤ TOP ∧ Maps Good s'.mem root (Mapped lo (pages r) K) ∧
        img.Keeps s (space s.mem root (pages oldsz)) s' (space s'.mem root (pages r)))) E := by
  by_cases shrinks : newsz < oldsz
  · unfold uvmalloc
    rw [if_pos shrinks]
    exact wp_pure (.inr ⟨(Nat.max_eq_left (Nat.le_of_lt shrinks)).symm, range, maps, .refl _ _⟩)
  have le : oldsz ≤ newsz := Nat.le_of_not_lt shrinks
  have old : pages oldsz ≤ VPAGES := Nat.le_of_lt (below_vpages range)
  have grown : ∀ {k : Nat} {t : Pool UInt8}, pages oldsz + k ≤ TOP → Zeroed img root (pages oldsz) k s t →
      Maps Good t.mem root (Mapped lo (pages oldsz + k) K) := fun below zeroed =>
    zeroed.maps maps above fun j c _ high => good_fresh j (by omega) c
  refine wp_imp (uvmalloc_grows (fits.mono fun q => Nat.le_add_right _ _) le range ?_ fun j low high =>
    maps.none (below_vpages (by omega)) ?_) ?_
  · intro k _ t below zeroed
    have room := (grown below zeroed).room (Nat.le_of_lt (below_vpages below)) (fits.keeps (zeroed.space old))
    simp only [TOP, TRAPFRAME, TRAMPOLINE, MAXVA, PGSIZE] at below ⊢
    omega
  · rintro (⟨_, less⟩ | special)
    · omega
    · exact absurd (kernel j special) (Nat.not_le_of_lt high)
  · rintro r t (⟨rfl, top, zeroed⟩ | ⟨rfl, alike⟩)
    · have sum : pages oldsz + (pages r - pages oldsz) = pages r := Nat.add_sub_cancel' (pages_mono le)
      have maps' := grown (by rw [sum]; exact top) zeroed
      have keeps := zeroed.space old
      rw [sum] at maps' keeps
      exact .inr ⟨(Nat.max_eq_right le).symm, top, maps', keeps⟩
    · exact .inl ⟨rfl, maps.same alike.plain alike.leaves, alike.space old⟩

/-- Freeing an address space: its user memory, then its page table. -/
theorem uvmfree_spec (leafy : ∀ j pte, G j pte → Leafy pte) (range : pages sz ≤ TOP)
    (maps : Maps G s.mem root (Mapped lo (pages sz) fun _ => False)) (fits : img.Fits s (space s.mem root (pages sz)))
    (holes : 0 < sz → 0 < lo → E .uvmunmapWalk ∧ E .uvmunmapNotMapped) :
    wp (uvmfree img root sz) s (fun _ s' => img.Keeps s (space s.mem root (pages sz)) s' (fun _ => 0)) E := by
  have small : sz < 2 ^ 63 := by
    simp only [pages, TOP, TRAPFRAME, TRAMPOLINE, MAXVA, PGSIZE] at range
    omega
  -- what is left is a table without leaves
  have finish : ∀ {t : Pool UInt8}, Maps G t.mem root (Mapped lo 0 fun _ => False) →
      img.Keeps s (space s.mem root (pages sz)) t (space t.mem root 0) →
      wp (freewalk img root) t (fun _ s' => img.Keeps s (space s.mem root (pages sz)) s' (fun _ => 0)) E := by
    intro t empty keeps
    have keeps' : img.Keeps s (space s.mem root (pages sz)) t (tables t.mem root) :=
      keeps.congr (fun _ => rfl) fun q => (Nat.add_zero _).symm
    refine wp_imp (freewalk_spec (fits.keeps keeps') empty.plain fun k hk => empty.none hk ?_) fun _ s' freed =>
      keeps'.trans freed
    rintro (⟨_, high⟩ | no)
    · exact absurd high (Nat.not_lt_zero k)
    · exact no
  refine wp_bind (wp_when (fun some => ?_) fun none => ?_)
  · rw [roundup_div small]
    have unmap := unmap_user (k := 0) (E := E) (fun _ no => no.elim) leafy maps fits (Nat.zero_le _) range (holes some)
    rw [Nat.zero_mul, Nat.sub_zero] at unmap
    exact wp_imp unmap fun _ t ⟨empty, keeps⟩ => finish empty keeps
  · have zero : pages sz = 0 := by
      simp only [pages, PGSIZE]
      omega
    rw [zero] at maps
    refine finish maps ?_
    rw [zero]
    exact .refl _ _

/-! ## Copying an address space -/

/-- The word of a leaf, in its table. -/
theorem leaf_word (mapped : leaf mem root k = some pte) :
    ∃ a, slot mem 2 root k = some a ∧ load 8 mem a = pte ∧ pte &&& PTE_V ≠ 0 := by
  obtain ⟨a, place⟩ := slot_of_leaf mapped
  rw [leaf_of_slot place] at mapped
  split at mapped
  · next odd =>
      obtain rfl := Option.some.inj mapped
      exact ⟨a, place, rfl, odd⟩
  · cases mapped

/-- The bytes of a mapped page that the program does not own stay what they are. -/
theorem bytes_untouched {f' : Nat → Nat} {i : Nat} (fits : img.Fits s (fun q => f q + pagesIn (leaf s.mem root) k n q))
    (keeps : img.Keeps s f t f') (low : k ≤ j) (high : j < k + n) (mapped : leaf s.mem root j = some pte)
    (small : i < PGSIZE) :
    t.mem (PTE2PA pte + i) = s.mem (PTE2PA pte + i) := by
  have mine : 0 < pagesIn (leaf s.mem root) k n (PTE2PA pte) := by
    have least := target_le_pagesIn (L := leaf s.mem root) low high (PTE2PA pte)
    rw [mapped, target_some, one_self] at least
    exact least
  have page := tree_pages fits _ (Nat.lt_of_lt_of_le mine (Nat.le_add_left _ _))
  refine keeps.untouched fits ?_
  show 0 < pagesIn _ _ _ (PGROUNDDOWN (PTE2PA pte + i))
  rw [rounddown_add page.1 small]
  exact mine

/-- The flags of virtual page `j`. -/
def flagsOf (mem : Mem) (root j : Nat) : Nat := PTE_FLAGS ((leaf mem root j).getD 0)

/-- The bytes of virtual page `j`. -/
def bytesOf (mem : Mem) (root j i : Nat) : UInt8 := mem (PTE2PA ((leaf mem root j).getD 0) + i)

theorem flagsOf_lt (mem : Mem) (root j : Nat) : flagsOf mem root j < 1024 := by
  rw [flagsOf, pte_flags_eq]
  omega

/-- The first `n` pages of `old` have been copied. -/
abbrev Copied (img : Image) (old new n : Nat) (s t : Pool UInt8) : Prop :=
  Grew img new 0 n (flagsOf s.mem old) (bytesOf s.mem old) s t

section Copy

variable {old new : Nat} (fits : img.Fits s (fun q => tables s.mem new q + space s.mem old hi q)) (range : hi ≤ TOP)
  (present : ∀ j < hi, ∃ pte, leaf s.mem old j = some pte ∧ Leafy pte) (absent : ∀ j < hi, leaf s.mem new j = none)

include fits range present absent

theorem uvmcopyFrom_copies : ∀ {n k : Nat} {t : Pool UInt8}, k + n = hi → Copied img old new k s t →
    wp (uvmcopyFrom img old new n (k * PGSIZE)) t (fun r u =>
      r = 0 ∧ Copied img old new hi s u ∨ r = -1 ∧ Alike img new s u) E := by
  have top : TOP ≤ MAXVA / PGSIZE := by decide
  have wide : MAXVA / PGSIZE ≤ VPAGES := by decide
  have own : img.Fits s (tables s.mem new) := fits.mono fun q => Nat.le_add_right _ _
  have leafy : ∀ j < hi, Leafy (flagsOf s.mem old j) := by
    intro j below
    obtain ⟨pte, mapped, leafy⟩ := present j below
    rw [flagsOf, mapped, Option.getD_some]
    exact (leafy_flags pte).mp leafy
  intro n
  induction n with
  | zero =>
    intro k t turns copied
    obtain rfl : k = hi := by omega
    exact wp_pure (.inl ⟨rfl, copied⟩)
  | succ n ih =>
    intro k t turns copied
    obtain ⟨pte, mapped, _⟩ := present k (by omega)
    -- the table and the pages of `old` are not the program's
    obtain ⟨sameTables, sameLeaves, -, -⟩ :=
      table_frame (fits.mono fun q => Nat.add_le_add_left (Nat.le_add_right _ _) _) copied.keeps
    rw [uvmcopyFrom_succ]
    refine wp_withEntry (below_maxva (by omega)) (fun none => ?_) fun _ pte' _ found => ?_
    all_goals rw [Nat.mul_div_cancel k (by decide)] at *
    · rw [sameLeaves, mapped] at none
      cases none
    rw [sameLeaves, mapped] at found
    cases found
    have flags : PTE_FLAGS pte = flagsOf s.mem old k := by rw [flagsOf, mapped, Option.getD_some]
    rw [flags]
    refine wp_addPage (below_maxva (by omega)) (flagsOf_lt ..) (· = bytesOf s.mem old k)
      ((copied.fits own).mono fun q => Nat.le_add_left _ _) ?_ ?_ ?_ ?_
    · rw [copied.leaves k (by omega) (by omega)]
      exact absent k (by omega)
    · intro c v page taken
      have whole : img.Keeps s (tables s.mem new) v _ :=
        copied.keeps.trans (taken.within _ (fun q => (Nat.zero_add _).symm) fun _ => rfl)
      refine wp_modify ⟨_, rfl, congrArg (fun m => ({ v with mem := m } : Pool UInt8)) (blit_congr fun i small => ?_)⟩
      rw [bytesOf, mapped, Option.getD_some]
      refine bytes_untouched (k := 0) (n := hi) (fits.mono fun q => ?_) whole (Nat.zero_le k) (by omega) mapped small
      rw [space, pagesOf_eq]
      omega
    · intro v alike
      have kept := copied.alike (flagsOf_lt _ _) own (by omega) alike
      have mapped := kept.mapped fun j _ high => leafy j (by omega)
      have removes := @uvmunmap_removes img v E new 0 k true (by omega) (fun j low high => .inl (mapped j low high))
        (kept.fits own)
      rw [Nat.zero_mul] at removes
      refine wp_bind (wp_imp removes fun _ w removed => wp_pure (.inr ⟨rfl, ?_⟩))
      exact kept.undo (fun j _ high => absent j (by omega)) removed
    · rintro c v _ rfl added
      rw [show k * PGSIZE + PGSIZE = (k + 1) * PGSIZE by rw [Nat.add_mul, Nat.one_mul]]
      refine ih (by omega) ?_
      have range' : 0 + k < VPAGES := by omega
      have added' : Added img new (0 + k) c (flagsOf s.mem old (0 + k)) (bytesOf s.mem old (0 + k)) t v := by
        rw [Nat.zero_add]
        exact added
      exact copied.snoc (flagsOf_lt _ _) own range' added'

/-- **uvmcopy** copies every page with its flags, or it returns -1 and has added nothing. -/
theorem uvmcopy_copies (size : pages sz = hi) :
    wp (uvmcopy img old new sz) s (fun r t => r = 0 ∧ Copied img old new hi s t ∨ r = -1 ∧ Alike img new s t) E := by
  have run := uvmcopyFrom_copies (E := E) fits range present absent (n := hi) (k := 0) (Nat.zero_add hi) (.refl s)
  rw [Nat.zero_mul, ← size] at run
  rw [← size]
  exact run

end Copy

/-- A copied leaf is as good as the one it was copied from. -/
theorem good_copy (below : j < TOP) (present : ∃ pte, leaf mem root j = some pte ∧ Leafy pte) :
    Good j (PA2PTE c ||| flagsOf mem root j ||| PTE_V) := by
  obtain ⟨pte, mapped, leafy⟩ := present
  refine good_user below ?_
  rw [flagsOf, mapped, Option.getD_some]
  exact (leafy_flags pte).mp leafy

/-- Copying user memory into an empty address space: all of it, or nothing. -/
theorem uvmcopy_spec {old new : Nat} (kernel : ∀ j, K j → TOP ≤ j) (leafy : ∀ j pte, G j pte → Leafy pte)
    (range : pages sz ≤ TOP)
    (holes : 0 < lo → E .uvmcopyPte ∧ E .uvmcopyPage) (mapsOld : Maps G s.mem old (Mapped lo (pages sz) K))
    (maps : Maps Good s.mem new (Mapped 0 0 K))
    (fits : img.Fits s (fun q => tables s.mem new q + space s.mem old (pages sz) q)) :
    wp (uvmcopy img old new sz) s (fun r s' =>
      (r = -1 ∧ Maps Good s'.mem new (Mapped 0 0 K) ∧ img.Keeps s (space s.mem new 0) s' (space s'.mem new 0)) ∨
      (r = 0 ∧ Maps Good s'.mem new (Mapped 0 (pages sz) K) ∧
        img.Keeps s (space s.mem new 0) s' (space s'.mem new (pages sz)))) E := by
  have top : 0 < TOP := by decide
  by_cases hole : 0 < lo ∧ 0 < pages sz
  · -- the first page is missing already
    obtain ⟨n, is⟩ := Nat.exists_eq_succ_of_ne_zero (Nat.ne_of_gt hole.2)
    have absent : leaf s.mem old 0 = none := mapsOld.none (by decide) (by
      rintro (⟨low, _⟩ | special)
      · omega
      · exact absurd (kernel 0 special) (Nat.not_le_of_lt top))
    show wp (uvmcopyFrom img old new (pages sz) 0) s _ E
    rw [is, uvmcopyFrom_succ]
    refine wp_withEntry (by decide) (fun _ => ⟨wp_throw (holes hole.1).1, wp_throw (holes hole.1).2⟩)
      fun _ pte _ present => ?_
    rw [Nat.zero_div, absent] at present
    cases present
  have present : ∀ j < pages sz, ∃ pte, leaf s.mem old j = some pte ∧ Leafy pte := fun j less => by
    obtain ⟨pte, mapped, good⟩ := mapsOld.some (below_vpages (by omega)) (j := j) (.inl ⟨by omega, less⟩)
    exact ⟨pte, mapped, leafy j pte good⟩
  refine wp_imp (uvmcopy_copies fits range present (fun j less => maps.none (below_vpages (by omega)) ?_) rfl) ?_
  · rintro (⟨_, no⟩ | special)
    · omega
    · have := kernel j special
      omega
  · rintro r t (⟨rfl, copied⟩ | ⟨rfl, alike⟩)
    · have maps' := copied.maps maps (Nat.le_refl 0) fun j c _ high => good_copy (by omega) (present j (by omega))
      have keeps := copied.space (Nat.zero_le _)
      rw [Nat.zero_add] at maps' keeps
      exact .inr ⟨rfl, maps', keeps⟩
    · exact .inl ⟨rfl, maps.same alike.plain alike.leaves, alike.space (Nat.zero_le _)⟩

/-! ## Reading and writing user memory -/

/-- Writing into user memory. -/
theorem write_users {m : Mem} (fits : img.Fits s (space s.mem root hi))
    (outside : ∀ x, pagesOf (leaf s.mem root) hi (PGROUNDDOWN x) = 0 → m x = s.mem x) :
    img.Keeps s (space s.mem root hi) { s with mem := m } (space m root hi) ∧ ∀ G D, Maps G s.mem root D →
    Maps G m root D := by
  obtain ⟨sameTables, sameLeaves, _, samePlain⟩ := @table_same s.mem m root
    (fun n mine => (tree_pages fits n (Nat.lt_of_lt_of_le mine (Nat.le_add_right _ _))).1) fun x inTable =>
      outside x (by
      have := fits.once (PGROUNDDOWN x)
      rw [space] at this
      omega)
  refine ⟨(keeps_write fits fun x none => outside x (Nat.add_eq_zero_iff.mp none).2).congr (fun _ => rfl) fun q => ?_,
    fun G D maps =>
    maps.same samePlain fun j _ => sameLeaves j⟩
  rw [space, space, sameTables, pagesOf_congr fun j _ => sameLeaves j]

/-- Writing into a page of user memory. -/
theorem write_user {m : Mem} (fits : img.Fits s (space s.mem root hi))
    (mine : 0 < pagesOf (leaf s.mem root) hi c) (outside : ∀ x, PGROUNDDOWN x ≠ c → m x = s.mem x) :
    img.Keeps s (space s.mem root hi) { s with mem := m } (space m root hi) ∧ ∀ G D, Maps G s.mem root D →
    Maps G m root D :=
  write_users fits fun x none => outside x (by
    rintro rfl
    omega)

/-- The pages user code may touch are those of its memory. -/
theorem user_page (kernel : ∀ j, K j → TOP ≤ j)
    (maps : Maps Good s.mem root (Mapped lo hi K)) (range : j < VPAGES) (mapped : leaf s.mem root j = some pte)
    (user : pte &&& PTE_U ≠ 0) : 0 < pagesOf (leaf s.mem root) hi (PTE2PA pte) := by
  have below : j < hi := by
    rcases (maps.dom j range).mp ⟨pte, mapped⟩ with ⟨_, high⟩ | special
    · exact high
    · exact absurd ((maps.good j range pte mapped).2 (kernel j special)) user
  refine Nat.lt_of_lt_of_le ?_ (target_le below (PTE2PA pte))
  rw [mapped, target_some, one_self]
  exact Nat.one_pos

/-! ## The guard page -/

/-- Clearing the user bit keeps the page and the permissions. -/
theorem clear_user (small : pte < 2 ^ 64) : let cleared := pte &&& (2 ^ 64 - 1 - PTE_U)
    PTE2PA cleared = PTE2PA pte ∧ (cleared &&& PTE_V ≠ 0 ↔ pte &&& PTE_V ≠ 0) ∧ (Leafy cleared ↔ Leafy pte) ∧
    cleared &&& PTE_U = 0 ∧ cleared < 2 ^ 64 := by
  intro cleared
  have masked : ∀ m, cleared &&& m = pte &&& ((2 ^ 64 - 1 - PTE_U) &&& m) := fun m => Nat.and_assoc _ _ _
  have number : cleared >>> 10 = pte >>> 10 := by
    have top : pte >>> 10 < 2 ^ 54 := by
      rw [Nat.shiftRight_eq_div_pow]
      omega
    rw [Nat.shiftRight_and_distrib, show (2 ^ 64 - 1 - PTE_U) >>> 10 = 2 ^ 54 - 1 by decide,
      Nat.and_two_pow_sub_one_eq_mod,
      Nat.mod_eq_of_lt top]
  refine ⟨by rw [PTE2PA, PTE2PA, number], ?_, ?_, ?_, ?_⟩
  · rw [masked]
    exact Iff.rfl
  · rw [Leafy, masked]
    exact Iff.rfl
  · rw [masked]
    exact Nat.and_zero pte
  · exact Nat.lt_of_le_of_lt Nat.and_le_left small

/-- `uvmclear` changes one entry. -/
theorem uvmclear_clears (own : img.Fits s (tables s.mem root)) (mapped : leaf s.mem root k = some pte)
    (below : k < TOP) :
    wp (uvmclear root (k * PGSIZE)) s (fun _ t => img.Keeps s (tables s.mem root) t (tables t.mem root) ∧
      (Plain s.mem 2 root → Plain t.mem 2 root) ∧
      ∀ j < VPAGES, leaf t.mem root j = if j = k then some (pte &&& (2 ^ 64 - 1 - PTE_U))
      else leaf s.mem root j) E := by
  obtain ⟨a, place, word, odd⟩ := leaf_word mapped
  obtain ⟨_, valid, _, _, small⟩ := clear_user (word ▸ load_lt s.mem 8 a)
  refine wp_bind (?_ : wp (walk root (k * PGSIZE) false) s _ E)
  unfold walk
  rw [if_neg (Nat.not_le_of_lt (below_maxva below))]
  refine walkFrom_lookup ?_
  rw [Nat.mul_div_cancel k (by decide), place]
  refine wp_bind (wp_peek (wp_modify ?_))
  rw [word]
  obtain ⟨_, keeps, plain, leaves⟩ := set_leaf own place small (below_vpages (Nat.le_of_lt below))
  rw [if_pos (valid.mpr odd)] at leaves
  exact ⟨keeps, plain, leaves⟩

theorem uvmclear_spec (fits : img.Fits s (space s.mem root hi)) (maps : Maps Good s.mem root D) (present : D k)
    (below : k < TOP) (range : hi ≤ VPAGES) :
    wp (uvmclear root (k * PGSIZE)) s (fun _ s' => Maps Good s'.mem root D ∧
      img.Keeps s (space s.mem root hi) s' (space s'.mem root hi)) E := by
  have inTable := below_vpages (Nat.le_of_lt below)
  obtain ⟨pte, mapped, fine⟩ := maps.some inTable present
  obtain ⟨a, _, word, _⟩ := leaf_word mapped
  obtain ⟨samePage, _, leafy, _, _⟩ := clear_user (word ▸ load_lt s.mem 8 a)
  refine wp_imp (uvmclear_clears (fits.mono fun q => Nat.le_add_right _ _) mapped below)
    fun _ t ⟨keeps, plain, leaves⟩ => ?_
  refine ⟨⟨plain maps.plain, fun j hj => ?_, fun j hj pte' mapped' => ?_⟩, keeps.within _ (fun _ => rfl) fun q => ?_⟩
  · rw [leaves j hj, ← maps.dom j hj]
    by_cases same : j = k
    · simp [same, mapped]
    · simp [same]
  · rw [leaves j hj] at mapped'
    by_cases same : j = k
    · rw [if_pos same] at mapped'
      cases mapped'
      exact ⟨leafy.mpr fine.1, fun top => absurd below (Nat.not_lt_of_le (same ▸ top))⟩
    · rw [if_neg same] at mapped'
      exact maps.good j hj pte' mapped'
  · have same : pagesOf (leaf t.mem root) hi q = pagesOf (leaf s.mem root) hi q := by
      refine Finset.sum_congr rfl fun j hj => ?_
      rw [leaves j (Nat.lt_of_lt_of_le (Finset.mem_range.mp hj) range)]
      by_cases same : j = k
      · rw [if_pos same, same, mapped, target_some, target_some, samePage]
      · rw [if_neg same]
    rw [space, same]

/-! ## The first process -/

/-- The first page of user memory: mapped, or lost for want of page-table pages. -/
theorem uvminit_spec {src : List UInt8} (kernel : ∀ j, K j → TOP ≤ j) (short : src.length < PGSIZE)
    (maps : Maps Good s.mem root (Mapped 0 0 K)) (fits : img.Fits s (space s.mem root 0))
    (trap : s.free = [] → E .kerneltrap) :
    wp (uvminit root src) s (fun r s' =>
      (r.2 ≠ 0 ∧ s.free.length < 3 ∧ 0 < s.free.length ∧ Maps Good s'.mem root (Mapped 0 0 K) ∧
        img.Keeps s (space s.mem root 0) s' (fun q => space s'.mem root 0 q + one r.1 q)) ∨
      (r.2 = 0 ∧ Maps Good s'.mem root (Mapped 0 1 K) ∧
        img.Keeps s (space s.mem root 0) s' (space s'.mem root 1))) E := by
  have room : 0 < TOP := by decide
  unfold uvminit
  rw [if_neg (Nat.not_le_of_lt short)]
  refine wp_bind (wp_imp (kalloc_spec fits) fun r t outcome => ?_)
  rcases outcome with ⟨rfl, out, rfl⟩ | ⟨c, rfl, taken, page, keeps⟩
  · exact wp_throw (trap out)
  · have own : img.Fits s (tables s.mem root) := fits.mono fun q => Nat.le_add_right _ _
    have map := map_filled (E := E) (k := 0) (below_maxva room)
      (show PTE_W ||| PTE_R ||| PTE_X ||| PTE_U < 1024 by decide)
      (fun _ => 0) own (maps.none (by decide) (mapped_next kernel room)) page keeps
    rw [Nat.zero_mul] at map
    refine wp_bind (wp_modify (wp_bind (wp_imp map fun r u outcome => wp_bind (wp_modify (wp_pure ?_)))))
    rcases outcome with ⟨rfl, added⟩ | ⟨rfl, few, keeps', plain, leaves⟩
    · have one' : Zeroed img root 0 1 s u := (Grew.refl s).snoc (fun _ => by decide) own (by decide) added
      have grew := one'.space (Nat.zero_le _)
      have mine : one c c ≤ pagesOf (leaf u.mem root) 1 c := by
        have first := target_le (L := leaf u.mem root) Nat.one_pos c
        rwa [added.leaves 0 (by decide), if_pos rfl, target_some,
          pte_pa (by decide) (Nat.lt_trans page.2.2 (by decide)) page.1] at first
      obtain ⟨wrote, same⟩ := write_user (m := blit u.mem c src.length fun j => src.getD j 0) (fits.keeps grew)
        (by rwa [one_self] at mine) fun x other => blit_outside page.1 (Nat.le_of_lt short) other
      exact .inr ⟨rfl, same _ _ (one'.maps maps (Nat.le_refl 0) fun j c _ less => good_fresh j (by omega) c),
        grew.trans wrote⟩
    · have own' := own.keeps keeps'
      obtain ⟨wrote, plain', leaves'⟩ := beside own' (keeps_fill (fun j => src.getD j 0) page (Nat.le_of_lt short)
        (own'.mono fun q => Nat.le_add_right _ _))
      have whole := keeps'.trans wrote
      have few' : t.free.length < 2 := few
      have size : s.free.length = t.free.length + 1 := by rw [taken, List.length_cons]
      refine .inl ⟨(by decide : (-1 : Int) ≠ 0), by omega, by omega,
        maps.same (fun h => plain' (plain h)) fun j small =>
        (leaves' j).trans (leaves j small), whole.congr (fun q => ?_) fun q => ?_⟩
      · exact Nat.add_zero _
      · simp only [space, pagesOf, Finset.range_zero, Finset.sum_empty]
        omega

end Xv6.Kernel.Vm
