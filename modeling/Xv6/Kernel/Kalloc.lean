/-
# Kernel.Kalloc -- the physical page allocator

`kalloc.c`, over byte memory.  The free list is threaded through the free pages:
`kfree` writes the old head into the page it frees, `kalloc` follows it.  The model
keeps the list itself beside the memory; `Linked` says that it is the list the
links in memory spell, and every contract below keeps that.

`Image` holds what the linker fixes: where the kernel ends and where the
trampoline page lies.  Contracts are those of `Theory.Pool`, for the pages of
`[end, PHYSTOP)`.
-/
import Xv6.Theory.Bytes
import Xv6.Theory.Pool
import Xv6.Theory.Prog

namespace Xv6.Kernel.Vm

set_option autoImplicit false

open Xv6.Theory Xv6.Theory.Bytes Xv6.Theory.Prog

/-! ## Layout of physical and virtual memory -/

abbrev PGSIZE : Nat := 4096
abbrev KERNBASE : Nat := 0x80000000
abbrev PHYSTOP : Nat := KERNBASE + 128 * 1024 * 1024
abbrev MAXVA : Nat := 2 ^ (9 + 9 + 9 + 12 - 1)
abbrev TRAMPOLINE : Nat := MAXVA - PGSIZE
abbrev TRAPFRAME : Nat := TRAMPOLINE - PGSIZE

/-- `uint64` arithmetic. -/
def u64 (n : Nat) : Nat := n % 2 ^ 64

def PGROUNDUP (sz : Nat) : Nat := u64 (sz + (PGSIZE - 1)) / PGSIZE * PGSIZE
def PGROUNDDOWN (a : Nat) : Nat := a / PGSIZE * PGSIZE

/-- What the linker fixes. -/
structure Image where
  /-- `end`, the first address after the kernel. -/
  kend : Nat
  /-- The physical address of the trampoline page. -/
  trampoline : Nat
  aligned : trampoline % PGSIZE = 0
  base : KERNBASE ≤ trampoline
  inKernel : trampoline + PGSIZE ≤ kend
  fits : kend ≤ PHYSTOP

theorem kernbase_aligned : KERNBASE % PGSIZE = 0 := by decide

/-- The pages `kfree` accepts. -/
def Image.IsPage (img : Image) (q : Nat) : Prop :=
  q % PGSIZE = 0 ∧ img.kend ≤ q ∧ q < PHYSTOP

instance (img : Image) (q : Nat) : Decidable (img.IsPage q) :=
  inferInstanceAs (Decidable (_ ∧ _ ∧ _))

/-- The ways this part of the kernel stops. -/
inductive Panic where
  | kfree
  | walk
  | mappagesSize
  | mappagesRemap
  | uvmunmapNotAligned
  | uvmunmapWalk
  | uvmunmapNotMapped
  | uvmunmapNotALeaf
  | inituvm
  | freewalkLeaf
  | uvmcopyPte
  | uvmcopyPage
  | uvmclear
  | loadseg
  | filedup
  | fileclose
  | initExiting
  | kerneltrap
  /-- Not a call of `panic`: a store outside an array. -/
  | outOfBounds
deriving DecidableEq, Repr

/-- Programs over physical memory. -/
abbrev Kern := Prog Panic (Pool UInt8)

/-- Read a `k`-byte word of memory. -/
def peek (k a : Nat) : Kern Nat := fun s => .ok (load k s.mem a, s)

/-- Write a `k`-byte word of memory. -/
def poke (k a v : Nat) : Kern Unit := modify fun s => { s with mem := store k s.mem a v }

def memset (dst : Nat) (c : UInt8) (n : Nat) : Kern Unit :=
  modify fun s => { s with mem := blit s.mem dst n fun _ => c }

/-- Copy between two places of memory. -/
def memmove (dst src n : Nat) : Kern Unit :=
  modify fun s => { s with mem := blit s.mem dst n fun j => s.mem (src + j) }

/-! ## The allocator -/

def kfree (img : Image) (pa : Nat) : Kern Unit := do
  if pa % PGSIZE ≠ 0 ∨ pa < img.kend ∨ PHYSTOP ≤ pa then throw .kfree
  memset pa 1 PGSIZE
  -- r->next = kmem.freelist; kmem.freelist = r
  modify fun s => ⟨store 8 s.mem pa (s.free.headD 0), pa :: s.free⟩

/-- The page handed out is filled with junk. -/
def kalloc : Kern (Option Nat) := fun s =>
  match s.free with
  | [] => .ok (none, s)
  | r :: rest => .ok (some r, ⟨blit s.mem r PGSIZE fun _ => 5, rest⟩)

/-- `n` turns of the loop of `freerange`, from `p` on. -/
def freerangeFrom (img : Image) : Nat → Nat → Kern Unit
  | 0, _ => pure ()
  | n + 1, p => do
      kfree img p
      freerangeFrom img n (p + PGSIZE)

def freerange (img : Image) (pa_start pa_end : Nat) : Kern Unit :=
  freerangeFrom img ((pa_end - PGROUNDUP pa_start) / PGSIZE) (PGROUNDUP pa_start)

def kinit (img : Image) : Kern Unit := freerange img img.kend PHYSTOP

/-! ## Pages -/

theorem rounddown_add {q j : Nat} (aligned : q % PGSIZE = 0) (small : j < PGSIZE) : PGROUNDDOWN (q + j) = q := by
  simp only [PGROUNDDOWN, PGSIZE] at *
  omega

theorem rounddown_of_aligned {q : Nat} (aligned : q % PGSIZE = 0) : PGROUNDDOWN q = q :=
  rounddown_add (j := 0) aligned (by decide)

/-- The bytes of page `q`. -/
theorem rounddown_eq {q x : Nat} (aligned : q % PGSIZE = 0) : PGROUNDDOWN x = q ↔ q ≤ x ∧ x < q + PGSIZE := by
  simp only [PGROUNDDOWN, PGSIZE] at *
  omega

theorem roundup_eq {sz : Nat} (small : sz + (PGSIZE - 1) < 2 ^ 64) :
    PGROUNDUP sz = (sz + (PGSIZE - 1)) / PGSIZE * PGSIZE := by
  rw [PGROUNDUP, u64, Nat.mod_eq_of_lt small]

/-- The links in the free pages spell the free list. -/
def Linked (mem : Mem) : List Nat → Prop
  | [] => True
  | r :: rest => load 8 mem r = rest.headD 0 ∧ Linked mem rest

instance (mem : Mem) : ∀ free : List Nat, Decidable (Linked mem free)
  | [] => isTrue trivial
  | _ :: rest =>
    have := instDecidableLinked mem rest
    inferInstanceAs (Decidable (_ ∧ _))

theorem Linked.congr {mem mem' : Mem} : ∀ {free : List Nat}, (∀ r ∈ free, ∀ j < 8, mem' (r + j) = mem (r + j)) →
    Linked mem free → Linked mem' free
  | [], _, _ => trivial
  | r :: rest, same, linked => by
      refine ⟨?_, Linked.congr (fun q member => same q (List.mem_cons_of_mem r member)) linked.2⟩
      rw [load_congr 8 r (same r List.mem_cons_self)]
      exact linked.1

/-- Pages of `[end, PHYSTOP)`, with the free list threaded through the free ones. -/
def Image.rules (img : Image) : Pool.Rules UInt8 where
  page := PGROUNDDOWN
  valid := img.IsPage
  linked := Linked

/-- Owned and free pages are distinct pages of `[end, PHYSTOP)`. -/
abbrev Image.Fits (img : Image) (s : Pool UInt8) (f : Nat → Nat) : Prop := Pool.Fits img.rules s f

/-- The contract of a program that owned `f` before and owns `f'` after. -/
abbrev Image.Keeps (img : Image) (s : Pool UInt8) (f : Nat → Nat) (s' : Pool UInt8) (f' : Nat → Nat) : Prop :=
  Pool.Keeps img.rules s f s' f'

variable {img : Image} {s : Pool UInt8} {f g : Nat → Nat} {E : Panic → Prop}

/-- Every page lies above 0. -/
theorem Image.IsPage.pos {q : Nat} (page : img.IsPage q) : 0 < q := by
  have base := img.base
  have inKernel := img.inKernel
  have low := page.2.1
  simp only [KERNBASE, PGSIZE] at *
  omega

theorem free_pages (fits : img.Fits s f) : ∀ r ∈ s.free, img.IsPage r := fun r member =>
  fits.valid r (Nat.add_pos_left (List.count_pos_iff.mpr member) _)

/-- Memory that differs in non-free pages only holds the same links. -/
theorem linked_of_outside {mem mem' : Mem} {free : List Nat} (pages : ∀ r ∈ free, img.IsPage r)
    (outside : ∀ x, PGROUNDDOWN x ∈ free → mem' x = mem x) (linked : Linked mem free) : Linked mem' free := by
  refine linked.congr fun r member j small => outside _ ?_
  rw [rounddown_add (pages r member).1 (by simp only [PGSIZE]; omega)]
  exact member

/-- Writing into owned pages meets the contract. -/
theorem keeps_write {m : Mem} (fits : img.Fits s f) (inside : ∀ x, f (PGROUNDDOWN x) = 0 → m x = s.mem x) :
    img.Keeps s f { s with mem := m } f := by
  refine .write inside (linked_of_outside (free_pages fits) fun x free => inside x ?_)
  have once := fits.once (PGROUNDDOWN x)
  have := List.count_pos_iff.mpr free
  omega

theorem blit_outside {m src : Mem} {q n x : Nat} (aligned : q % PGSIZE = 0) (small : n ≤ PGSIZE)
    (other : PGROUNDDOWN x ≠ q) : blit m q n src x = m x := by
  refine blit_out ?_
  rw [Ne, rounddown_eq aligned] at other
  omega

theorem wp_peek {k a : Nat} {Q : Nat → Pool UInt8 → Prop} (holds : Q (load k s.mem a) s) : wp (peek k a) s Q E := by
  unfold wp
  exact holds

/-! ## Contracts of the allocator -/

/-- `kalloc` fails when no page is free, and else hands out one that was. -/
theorem kalloc_spec (fits : img.Fits s f) : wp kalloc s (fun r s' =>
    (r = none ∧ s.free = [] ∧ s' = s) ∨
    ∃ q, r = some q ∧ s.free = q :: s'.free ∧ img.IsPage q ∧ img.Keeps s (fun _ => 0) s' (one q)) E := by
  unfold wp kalloc
  cases free : s.free with
  | nil => exact .inl ⟨rfl, rfl, rfl⟩
  | cons q rest =>
    have page : img.IsPage q := free_pages fits q (by rw [free]; exact List.mem_cons_self)
    refine .inr ⟨q, rfl, rfl, page, .take free (fun x other => blit_outside page.1 (Nat.le_refl _) other) ?_⟩
    -- the links of the remaining pages are not in the page handed out
    intro linked
    rw [free] at linked
    refine @linked_of_outside img _ _ _ (fun r member => free_pages fits r ?_) (fun x member => ?_) linked.2
    · rw [free]
      exact List.mem_cons_of_mem q member
    · refine blit_outside page.1 (Nat.le_refl _) ?_
      intro same
      have once := fits.once q
      have twice := List.count_pos_iff.mpr member
      rw [free, List.count_cons_self] at once
      rw [same] at twice
      omega

/-- `kfree` takes back an owned page. -/
theorem kfree_spec {q : Nat} (fits : img.Fits s (one q)) :
    wp (kfree img q) s (fun _ s' => s'.free = q :: s.free ∧ img.Keeps s (one q) s' (fun _ => 0)) E := by
  have page : img.IsPage q := (fits.owned (q := q) (by simp)).2.2
  have fresh : q ∉ s.free := (fits.owned (q := q) (by simp)).1
  have accepted : ¬ (q % PGSIZE ≠ 0 ∨ q < img.kend ∨ PHYSTOP ≤ q) := by
    rintro (bad | bad | bad)
    · exact bad page.1
    · exact absurd page.2.1 (Nat.not_le_of_lt bad)
    · exact absurd page.2.2 (Nat.not_lt_of_le bad)
  have outside : ∀ x, PGROUNDDOWN x ≠ q →
      store 8 (blit s.mem q PGSIZE fun _ => 1) q (s.free.headD 0) x = s.mem x := fun x other => by
    rw [store, blit_outside page.1 (by decide) other, blit_outside page.1 (Nat.le_refl _) other]
  unfold kfree
  rw [if_neg accepted]
  refine wp_bind (wp_modify (wp_modify ⟨rfl, .give outside fun linked => ?_⟩))
  have head : s.free.headD 0 < 2 ^ 64 := by
    cases free : s.free with
    | nil => simp
    | cons r rest =>
      have top := (free_pages fits r (by rw [free]; exact List.mem_cons_self)).2.2
      simp only [PHYSTOP, KERNBASE] at top
      simp only [List.headD_cons]
      omega
  refine ⟨load_store_of_lt (by simpa using head), ?_⟩
  refine linked_of_outside (free_pages fits) (fun x member => outside x ?_) linked
  rintro rfl
  exact fresh member

/-! ## The first free list -/

/-- Owning the `n` pages from `p` on. -/
def span : Nat → Nat → Nat → Nat
  | 0, _, _ => 0
  | n + 1, p, q => span n (p + PGSIZE) q + one p q

theorem span_eq {p q : Nat} (aligned : p % PGSIZE = 0) :
    ∀ n : Nat, span n p q = if q % PGSIZE = 0 ∧ p ≤ q ∧ q < p + n * PGSIZE then 1 else 0 := by
  intro n
  induction n generalizing p with
  | zero => simp [span]
  | succ n ih =>
    rw [span, ih (by simp only [PGSIZE] at *; omega)]
    by_cases same : q = p
    · subst same
      simp only [one_self, PGSIZE] at *
      rw [if_neg (by omega), if_pos (by omega)]
    · rw [one_of_ne same]
      simp only [PGSIZE, Nat.add_zero] at *
      congr 1
      exact propext ⟨fun h => by omega, fun h => by omega⟩

theorem freerangeFrom_spec : ∀ {n p : Nat} {s : Pool UInt8}, img.Fits s (span n p) →
    wp (freerangeFrom img n p) s (fun _ s' => img.Keeps s (span n p) s' (fun _ => 0)) E
  | 0, _, s, _ => wp_pure (.refl s _)
  | n + 1, p, s, fits => by
      refine wp_bind (wp_imp (kfree_spec (fits.mono fun q => Nat.le_add_left _ _)) fun _ s₁ freed => ?_)
      have first : img.Keeps s (span (n + 1) p) s₁ (span n (p + PGSIZE)) :=
        freed.2.within (span n (p + PGSIZE)) (fun q => Nat.add_comm _ _) fun q => (Nat.zero_add _).symm
      exact wp_imp (freerangeFrom_spec (fits.keeps first)) fun _ s₂ rest => first.trans rest

/-- After `kinit` the free list holds every page of `[PGROUNDUP(end), PHYSTOP)` once. -/
theorem kinit_spec (mem : Mem) : wp (kinit img) ⟨mem, []⟩ (fun _ s' =>
    img.Fits s' (fun _ => 0) ∧ ∀ q, s'.free.count q = if img.IsPage q then 1 else 0) E := by
  have fits := img.fits
  have up : PGROUNDUP img.kend = (img.kend + (PGSIZE - 1)) / PGSIZE * PGSIZE := roundup_eq (by
    simp only [PHYSTOP, KERNBASE, PGSIZE] at *
    omega)
  have aligned : PGROUNDUP img.kend % PGSIZE = 0 := Nat.mul_mod_left _ _
  have all : ∀ q, span ((PHYSTOP - PGROUNDUP img.kend) / PGSIZE) (PGROUNDUP img.kend) q =
      if img.IsPage q then 1 else 0 := by
    intro q
    rw [span_eq aligned]
    congr 1
    unfold Image.IsPage
    rw [up]
    simp only [PHYSTOP, KERNBASE, PGSIZE] at *
    exact propext ⟨fun h => by omega, fun h => by omega⟩
  have start : img.Fits ⟨mem, []⟩ (span ((PHYSTOP - PGROUNDUP img.kend) / PGSIZE) (PGROUNDUP img.kend)) := by
    refine ⟨fun q => ?_, fun q some => ?_, trivial⟩
    · simp only [all, List.count_nil]
      split <;> omega
    · simp only [all, List.count_nil] at some
      by_contra no
      simp only [if_neg (show ¬ img.IsPage q from no)] at some
      omega
  refine wp_imp (freerangeFrom_spec start) fun _ s' keeps => ⟨start.keeps keeps, fun q => ?_⟩
  have sum := keeps.sum q
  simp only [all, List.count_nil] at sum
  omega

end Xv6.Kernel.Vm
