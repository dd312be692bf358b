/-
# Kernel.Proc -- the memory of one process

The parts of `proc.c` that build, change and free the memory of a process: its
trapframe page, its page table and its user pages.  They are programs over physical
memory that take the process structure and return it changed.

`owns mem p` counts the pages of a process and `ProcOk holes mem p` is the shape of
its address space.  A contract here says that a program turns the pages of `p` into
the pages of the process it returns and keeps the shape.  `holes` admits a first
process without page 0; without it no contract allows a panic.
-/
import Xv6.Kernel.UserMem

namespace Xv6.Kernel.Vm

set_option autoImplicit false

open Xv6.Theory Xv6.Theory.Bytes Xv6.Theory.Prog

/-! ## The code -/

abbrev NPROC : Nat := 64
abbrev NOFILE : Nat := 16
abbrev NFILE : Nat := 100

instance : NeZero NPROC := ⟨by decide⟩

inductive ProcState where
  | unused | used | sleeping | runnable | running | zombie
deriving DecidableEq, Repr

/-- A 32-bit `int`. -/
def wrap (n : Int) : Int := n.bmod (2 ^ 32)

/-- `struct proc`; a null pointer is 0 or `none`. -/
structure Proc where
  state : ProcState := .unused
  killed : Bool := false
  xstate : Int := 0
  pid : Int := 0
  parent : Option (Fin NPROC) := none
  sz : Nat := 0
  pagetable : Nat := 0
  trapframe : Nat := 0
  ofile : Fin NOFILE → Option (Fin NFILE) := fun _ => none
  name : List UInt8 := List.replicate 16 0

/-- `safestrcpy` of the string `t` over the `n` bytes `s`; after a string that fits, it stores
one more NUL. -/
def safestrcpy (s t : List UInt8) (n : Nat) : List UInt8 :=
  let chars := t.takeWhile (· ≠ 0)
  if chars.length < n - 1 then chars ++ [0, 0] ++ s.drop (chars.length + 2) else chars.take (n - 1) ++ [0] ++ s.drop n

def procPagetable (img : Image) (trapframe : Nat) : Kern (Option Nat) := do
  match ← uvmcreate with
  | none => pure none
  | some pagetable => do
      let r ← mappages pagetable TRAMPOLINE PGSIZE img.trampoline (PTE_R ||| PTE_X)
      if r < 0 then do
        uvmfree img pagetable 0
        pure none
      else do
        let r ← mappages pagetable TRAPFRAME PGSIZE trapframe (PTE_R ||| PTE_W)
        if r < 0 then do
          uvmunmap img pagetable TRAMPOLINE 1 false
          uvmfree img pagetable 0
          pure none
        else
          pure (some pagetable)

def procFreepagetable (img : Image) (pagetable sz : Nat) : Kern Unit := do
  uvmunmap img pagetable TRAMPOLINE 1 false
  uvmunmap img pagetable TRAPFRAME 1 false
  uvmfree img pagetable sz

def freeproc (img : Image) (p : Proc) : Kern Proc := do
  when (p.trapframe ≠ 0) (kfree img p.trapframe)
  when (p.pagetable ≠ 0) (procFreepagetable img p.pagetable p.sz)
  pure { p with
    trapframe := 0, pagetable := 0, sz := 0, pid := 0, parent := none, name := p.name.set 0 0,
    killed := false, xstate := 0,
    state := .unused }

/-- `allocproc`, once it has found the slot. -/
def allocprocAt (img : Image) (pid : Int) (p : Proc) : Kern (Bool × Proc) := do
  let p := { p with pid := pid, state := .used }
  match ← kalloc with
  | none => do
      let p ← freeproc img p
      pure (false, p)
  | some trapframe => do
      let p := { p with trapframe := trapframe }
      match ← procPagetable img trapframe with
      | none => do
          let p ← freeproc img p
          pure (false, p)
      | some pagetable => pure (true, { p with pagetable := pagetable })

/-- Offsets in `struct trapframe`. -/
abbrev TF_EPC : Nat := 24
abbrev TF_SP : Nat := 48
abbrev TF_A0 : Nat := 112
abbrev TF_A1 : Nat := 120
abbrev TF_SIZE : Nat := 288

def initcode : List UInt8 :=
  [0x17, 0x05, 0x00, 0x00, 0x13, 0x05, 0x45, 0x02,
   0x97, 0x05, 0x00, 0x00, 0x93, 0x85, 0x35, 0x02,
   0x93, 0x08, 0x70, 0x00, 0x73, 0x00, 0x00, 0x00,
   0x93, 0x08, 0x20, 0x00, 0x73, 0x00, 0x00, 0x00,
   0xef, 0xf0, 0x9f, 0xff, 0x2f, 0x69, 0x6e, 0x69,
   0x74, 0x00, 0x00, 0x24, 0x00, 0x00, 0x00, 0x00,
   0x00, 0x00, 0x00, 0x00]

/-- `safestrcpy(p->name, "initcode", sizeof(p->name))` -/
def initName (p : Proc) : List UInt8 := safestrcpy p.name [105, 110, 105, 116, 99, 111, 100, 101] 16

/-- `userinit`, once it has its process.  The page that `uvminit` allocated but could
not map is returned. -/
def userinitAt (p : Proc) : Kern (Option Nat × Proc) := do
  let (mem, r) ← uvminit p.pagetable initcode
  poke 8 (p.trapframe + TF_EPC) 0
  poke 8 (p.trapframe + TF_SP) PGSIZE
  pure (if r = 0 then none else some mem, { p with sz := PGSIZE, name := initName p, state := .runnable })

/-- `uint` arithmetic. -/
def u32 (n : Int) : Nat := (n % 2 ^ 32).toNat

def growproc (img : Image) (n : Int) (p : Proc) : Kern (Int × Proc) := do
  -- uint sz
  let sz := u32 p.sz
  if 0 < n then do
    let sz := u32 (← uvmalloc img p.pagetable sz (u32 (sz + n)))
    if sz = 0 then pure (-1, p) else pure (0, { p with sz := sz })
  else if n < 0 then do
    let sz := u32 (← uvmdealloc img p.pagetable sz (u32 (sz + n)))
    pure (0, { p with sz := sz })
  else
    pure (0, { p with sz := sz })

/-- The part of `fork` that fills in the child `np`. -/
def forkAt (img : Image) (p np : Proc) : Kern (Bool × Proc) := do
  let r ← uvmcopy img p.pagetable np.pagetable p.sz
  if r < 0 then do
    let np ← freeproc img np
    pure (false, np)
  else do
    memmove np.trapframe p.trapframe TF_SIZE
    poke 8 (np.trapframe + TF_A0) 0
    pure (true, { np with sz := p.sz })

/-! ## The pages of a process -/

/-- The virtual pages of the trapframe and of the trampoline. -/
def kernelPages (j : Nat) : Prop := j = TOP ∨ j = TOP + 1

theorem kernelPages_top (j : Nat) (special : kernelPages j) : TOP ≤ j := by
  rcases special with rfl | rfl
  · exact Nat.le_refl _
  · exact Nat.le_succ _

/-- The trapframe page. -/
def frameOf (p : Proc) (q : Nat) : Nat := if p.trapframe = 0 then 0 else one p.trapframe q

/-- The pages of the page table and of user memory. -/
def spaceOf (mem : Mem) (p : Proc) (q : Nat) : Nat :=
  if p.pagetable = 0 then 0 else space mem p.pagetable (pages p.sz) q

/-- The pages of a process. -/
def owns (mem : Mem) (p : Proc) (q : Nat) : Nat := frameOf p q + spaceOf mem p q

/-- The panics a missing page 0 leads to. -/
def HolePanic (e : Panic) : Prop := e ∈ [Panic.uvmunmapWalk, .uvmunmapNotMapped, .uvmcopyPte, .uvmcopyPage]

instance (e : Panic) : Decidable (HolePanic e) := inferInstanceAs (Decidable (e ∈ _))

/-- The shape of a process's memory. -/
structure ProcOk (holes : Prop) (mem : Mem) (p : Proc) : Prop where
  shape : p.pagetable ≠ 0 → ∃ lo, (lo = 0 ∨ holes ∧ lo = 1 ∧ 0 < p.sz) ∧ pages p.sz ≤ TOP ∧
    Maps Good mem p.pagetable (Mapped lo (pages p.sz) kernelPages)
  bare : p.pagetable = 0 → p.sz = 0
  unused : p.state = .unused → p.trapframe = 0 ∧ p.pagetable = 0
  live : p.state ≠ .unused → p.state ≠ .used → p.trapframe ≠ 0 ∧ p.pagetable ≠ 0

variable {img : Image} {s t : Pool UInt8} {mem mem' : Mem} {E : Panic → Prop} {holes : Prop} {p np : Proc}

/-- Where holes are allowed, a process with one is well-formed. -/
theorem ProcOk.allow (ok : ProcOk True mem p) (allowed : holes) : ProcOk holes mem p :=
  ⟨fun table => by
    obtain ⟨lo, low, rest⟩ := ok.shape table
    exact ⟨lo, low.imp_right fun ⟨_, h⟩ => ⟨allowed, h⟩, rest⟩, ok.bare, ok.unused, ok.live⟩

/-! ## Page tables of processes -/

theorem trampoline_page : TRAMPOLINE = (TOP + 1) * PGSIZE ∧ TRAPFRAME = TOP * PGSIZE := by decide

theorem Image.trampoline_lt (img : Image) : img.trampoline < 2 ^ 56 := by
  have inKernel := img.inKernel
  have fits := img.fits
  simp only [PHYSTOP, KERNBASE, PGSIZE] at inKernel fits
  omega

theorem user_bit {pa perm : Nat} (perms : perm < 1024) :
    (PA2PTE pa ||| perm ||| PTE_V) &&& PTE_U = (perm ||| PTE_V) &&& PTE_U := by
  rw [show PTE_U = 0x3FF &&& PTE_U by decide, ← Nat.and_assoc]
  rw [show (PA2PTE pa ||| perm ||| PTE_V) &&& 0x3FF = perm ||| PTE_V from pte_flags perms]
  rw [show 0x3FF &&& PTE_U = PTE_U by decide]

theorem good_kernel {k pa perm : Nat} (perms : perm < 1024) (some : Leafy (perm ||| PTE_V))
    (hidden : (perm ||| PTE_V) &&& PTE_U = 0) :
    Good k (PA2PTE pa ||| perm ||| PTE_V) :=
  ⟨by rw [leafy_flags, pte_flags perms]; exact some, fun _ => (user_bit perms).trans hidden⟩

/-- A new table with trampoline and trapframe takes three pages; without them nothing is kept. -/
theorem procPagetable_spec {f : Nat → Nat} {tf : Nat} (fits : img.Fits s f) (page : tf < 2 ^ 56) :
    wp (procPagetable img tf) s (fun r s' =>
      (r = none ∧ s.free.length < 3 ∧ img.Keeps s (fun _ => 0) s' (fun _ => 0)) ∨
      ∃ root, r = some root ∧ root ≠ 0 ∧ s.free.length = s'.free.length + 3 ∧
        Maps Good s'.mem root (Mapped 0 0 kernelPages) ∧ img.Keeps s (fun _ => 0) s' (space s'.mem root 0)) E := by
  have nothing : img.Fits s (fun _ => 0) := fits.mono fun _ => Nat.zero_le _
  have indices : TRAMPOLINE / PGSIZE = TOP + 1 ∧ TRAPFRAME / PGSIZE = TOP := by decide
  refine wp_bind (wp_imp (uvmcreate_spec (G := Good) fits) fun r t outcome => ?_)
  rcases outcome with ⟨rfl, out, rfl⟩ | ⟨root, rfl, positive, taken, empty, made⟩
  · exact wp_pure (.inl ⟨rfl, by rw [out]; decide, .refl _ _⟩)
  · have fits₁ := nothing.keeps made
    refine wp_bind (wp_imp (mappages_spec fits₁ (by decide) (by decide) ?_ img.trampoline_lt (by decide))
      fun r u post => ?_)
    · rw [indices.1]
      exact empty.none (by decide) id
    obtain ⟨keeps, plain, used, _, outcome⟩ := post
    rw [indices.1] at outcome
    have fits₂ := fits₁.keeps keeps
    rcases outcome with ⟨rfl, short, leaves⟩ | ⟨rfl, leaves⟩
    · rw [if_pos (by decide)]
      have still : Maps Good u.mem root (Mapped 0 (pages 0) fun _ => False) :=
        (empty.same plain leaves).congr fun j _ => by
        simp [Mapped, show pages 0 = 0 from rfl]
      have own : ∀ q, space u.mem root (pages 0) q = tables u.mem root q := fun q => Nat.add_zero _
      refine wp_bind (wp_imp (uvmfree_spec (fun _ _ good => good.1) (by decide) still
        (fits₂.mono fun q => Nat.le_of_eq (own q)) (fun no => absurd no (Nat.lt_irrefl 0))) fun _ v freed => ?_)
      exact wp_pure (.inl ⟨rfl, by omega, (made.trans keeps).trans (freed.congr (fun q => (own q).symm) fun _ => rfl)⟩)
    · rw [if_neg (by decide)]
      have one := empty.add plain (good_kernel (by decide) (by decide) (by decide)) leaves
      -- the trapframe's entry lies beside the trampoline's
      have beside : (slot u.mem 2 root (TRAPFRAME / PGSIZE)).isSome := by
        obtain ⟨a, place⟩ := slot_of_leaf (k := TOP + 1) (by rw [leaves _ (by decide), if_pos rfl])
        rw [indices.2, slot, Radix.node_upper (show TOP / 512 = (TOP + 1) / 512 by decide)]
        rw [slot] at place
        cases leads : Radix.node PTE2PA 512 (entry u.mem) 2 root (TOP + 1) with
        | none => rw [leads] at place; cases place
        | some n => rfl
      refine wp_bind (wp_imp (mappages_spec fits₂ (by decide) (by decide) ?_ page (by decide))
        fun r v post => ?_)
      · rw [indices.2]
        refine one.none (by decide) ?_
        rintro (no | same)
        · exact no
        · omega
      obtain ⟨keeps', plain', _, known, outcome⟩ := post
      obtain ⟨sameFree, rfl⟩ := known beside
      rw [indices.2] at outcome
      rw [if_neg (by decide)]
      rcases outcome with ⟨bad, _⟩ | ⟨_, leaves'⟩
      · cases bad
      · have both := one.add plain' (good_kernel (by decide) (by decide) (by decide)) leaves'
        have whole := ((made.trans keeps).trans keeps').congr (fun _ => rfl) fun q =>
          (Nat.add_zero (tables v.mem root q))
        refine wp_pure (.inr ⟨root, rfl, Nat.ne_of_gt positive, ?_, both.congr fun j _ => ?_, whole⟩)
        -- no less than three pages: the tables on the way to the trapframe
        · obtain ⟨_, mapped, _⟩ := both.some (j := TOP) (by decide) (.inr rfl)
          obtain ⟨n, leads, _⟩ := Option.bind_eq_some_iff.mp mapped
          have tree := nothing.keeps ((made.trans keeps).trans keeps')
          obtain ⟨path, length, nodup, mine⟩ :=
            Radix.node_path (by decide) (fun q => Nat.le_trans (Nat.le_add_left _ _) (tree.once q)) leads
          have spent := ((made.trans keeps).trans keeps').spent nodup mine
          rw [length] at spent
          rw [sameFree] at spent ⊢
          omega
        · simp [Mapped, kernelPages, or_comm]

/-- Freeing a process's table and memory. -/
theorem procFreepagetable_spec {root lo sz : Nat} (range : pages sz ≤ TOP)
    (maps : Maps Good s.mem root (Mapped lo (pages sz) kernelPages)) (fits : img.Fits s (space s.mem root (pages sz)))
    (gaps : 0 < lo → E .uvmunmapWalk ∧ E .uvmunmapNotMapped) :
    wp (procFreepagetable img root sz) s (fun _ s' => img.Keeps s (space s.mem root (pages sz)) s' (fun _ => 0)) E := by
  have top : TOP + 2 ≤ MAXVA / PGSIZE ∧ MAXVA / PGSIZE < VPAGES := by decide
  have drop : ∀ {k : Nat} {D : Nat → Prop} {t : Pool UInt8}, kernelPages k → D k → Maps Good t.mem root D →
      img.Fits t (space t.mem root (pages sz)) →
      wp (uvmunmap img root (k * PGSIZE) 1 false) t (fun _ u =>
        Maps Good u.mem root (fun j => D j ∧ ¬ (k ≤ j ∧ j < k + 1)) ∧
        img.Keeps t (space t.mem root (pages sz)) u (space u.mem root (pages sz))) E := by
    intro k D t special here maps fits
    have above := kernelPages_top k special
    have below : k < TOP + 2 := by rcases special with rfl | rfl <;> omega
    refine wp_imp (uvmunmap_spec (by omega) (fun j low high => ?_) (by omega) fits (.inr ⟨rfl, by omega⟩))
      fun _ u gone => ⟨maps.remove gone.plain gone.leaves, gone.keeps⟩
    have same : j = k := by omega
    obtain ⟨pte, mapped, good⟩ := maps.some (by omega) (same ▸ here)
    exact .inl ⟨pte, mapped, leaf_flags good.1⟩
  unfold procFreepagetable
  rw [trampoline_page.1, trampoline_page.2]
  refine wp_bind (wp_imp (drop (.inr rfl) (.inr (.inr rfl)) maps fits) fun _ t ⟨maps₁, keeps₁⟩ => ?_)
  refine wp_bind (wp_imp (drop (.inl rfl) ⟨.inr (.inl rfl), by omega⟩ maps₁ (fits.keeps keeps₁))
    fun _ u ⟨maps₂, keeps₂⟩ => ?_)
  have fits₂ := (fits.keeps keeps₁).keeps keeps₂
  have user : Maps Good u.mem root (Mapped lo (pages sz) fun _ => False) := maps₂.congr fun j _ => by
    unfold Mapped kernelPages
    constructor
    · rintro ⟨⟨⟨low, high⟩ | rfl | rfl, _⟩, _⟩
      · exact .inl ⟨low, high⟩
      · omega
      · omega
    · rintro (⟨low, high⟩ | no)
      · exact ⟨⟨.inl ⟨low, high⟩, by omega⟩, by omega⟩
      · exact no.elim
  exact wp_imp (uvmfree_spec (fun _ _ good => good.1) range user fits₂ fun _ => gaps) fun _ v freed =>
    (keeps₁.trans keeps₂).trans freed

/-! ## Building and freeing processes -/

theorem owns_none (tf : p.trapframe = 0) (pt : p.pagetable = 0) (q : Nat) : owns mem p q = 0 := by
  simp [owns, frameOf, spaceOf, tf, pt]

theorem owns_some (tf : p.trapframe ≠ 0) (pt : p.pagetable ≠ 0) (q : Nat) :
    owns mem p q = one p.trapframe q + space mem p.pagetable (pages p.sz) q := by
  simp [owns, frameOf, spaceOf, tf, pt]

/-- An address space whose own pages have not changed is as it was. -/
theorem spaceOf_same (isPage : ∀ q, 0 < spaceOf s.mem p q → img.IsPage q)
    (same : ∀ x, 0 < spaceOf s.mem p (PGROUNDDOWN x) → mem x = s.mem x) :
    (∀ q, spaceOf mem p q = spaceOf s.mem p q) ∧ (ProcOk holes s.mem p → ProcOk holes mem p) := by
  by_cases none : p.pagetable = 0
  · exact ⟨fun q => by simp [spaceOf, none], fun ok => ⟨fun some => absurd none some, ok.bare, ok.unused, ok.live⟩⟩
  · have own : ∀ m q, spaceOf m p q = tables m p.pagetable q + pagesOf (leaf m p.pagetable) (pages p.sz) q :=
      fun m q => if_neg none
    have within : ∀ q, tables s.mem p.pagetable q ≤ spaceOf s.mem p q := fun q => by
      rw [own]
      omega
    obtain ⟨sameTables, sameLeaves, _, samePlain⟩ := @table_same s.mem mem p.pagetable
      (fun n mine => (isPage n (Nat.lt_of_lt_of_le mine (within n))).1)
      fun x mine => same x (Nat.lt_of_lt_of_le mine (within _))
    refine ⟨fun q => ?_, fun ok => ⟨fun some => ?_, ok.bare, ok.unused, ok.live⟩⟩
    · rw [own, own, sameTables, pagesOf_congr fun j _ => sameLeaves j]
    · obtain ⟨lo, low, range, maps⟩ := ok.shape some
      exact ⟨lo, low, range, maps.same samePlain fun j _ => sameLeaves j⟩

/-- A program that owns other pages leaves a process's address space alone. -/
theorem spaceOf_frame {f f' : Nat → Nat} (fits : img.Fits s (fun q => f q + spaceOf s.mem p q))
    (keeps : img.Keeps s f t f') :
    (∀ q, spaceOf t.mem p q = spaceOf s.mem p q) ∧ (ProcOk holes s.mem p → ProcOk holes t.mem p) :=
  spaceOf_same (fun q mine => tree_pages fits q (Nat.add_pos_right _ mine)) fun _ mine => keeps.untouched fits mine

/-- The structure `freeproc` leaves behind. -/
def Proc.freed (p : Proc) : Proc :=
  { p with
    trapframe := 0, pagetable := 0, sz := 0, pid := 0, parent := none, name := p.name.set 0 0,
    killed := false, xstate := 0,
    state := .unused }

theorem freed_ok (mem : Mem) (p : Proc) : ProcOk holes mem p.freed :=
  ⟨fun some => absurd rfl some, fun _ => rfl, fun _ => ⟨rfl, rfl⟩, fun live => absurd rfl live⟩

/-- Freeing the address space of a process. -/
theorem freeSpace_spec (lenient : holes → ∀ e, HolePanic e → E e) (ok : ProcOk holes s.mem p) (table : p.pagetable ≠ 0)
    (fits : img.Fits s (spaceOf s.mem p)) :
    wp (procFreepagetable img p.pagetable p.sz) s (fun _ s' => img.Keeps s (spaceOf s.mem p) s' (fun _ => 0)) E := by
  obtain ⟨lo, low, range, maps⟩ := ok.shape table
  have own : ∀ q, spaceOf s.mem p q = space s.mem p.pagetable (pages p.sz) q := fun q => if_neg table
  refine wp_imp (procFreepagetable_spec range maps (fits.mono fun q => Nat.le_of_eq (own q).symm) fun hole => ?_)
    fun _ u keeps => keeps.congr own fun _ => rfl
  rcases low with zero | ⟨allowed, _⟩
  · omega
  · exact ⟨lenient allowed _ (by decide), lenient allowed _ (by decide)⟩

/-- `freeproc` gives back all pages of a process. -/
theorem freeproc_spec (lenient : holes → ∀ e, HolePanic e → E e) (ok : ProcOk holes s.mem p)
    (fits : img.Fits s (owns s.mem p)) :
    wp (freeproc img p) s (fun p' s' => p' = p.freed ∧ img.Keeps s (owns s.mem p) s' (fun _ => 0)) E := by
  have finish : ∀ {t : Pool UInt8}, ProcOk holes t.mem p → img.Keeps s (owns s.mem p) t (spaceOf t.mem p) →
      wp (when (p.pagetable ≠ 0) (procFreepagetable img p.pagetable p.sz) >>= fun _ => pure p.freed) t
        (fun p' s' => p' = p.freed ∧ img.Keeps s (owns s.mem p) s' (fun _ => 0)) E := by
    intro t ok keeps
    refine wp_bind (wp_when (fun some => ?_) fun none => ?_)
    · exact wp_imp (freeSpace_spec lenient ok some (fits.keeps keeps)) fun _ u freed => wp_pure ⟨rfl, keeps.trans freed⟩
    · exact wp_pure ⟨rfl, keeps.congr (fun _ => rfl) fun q => by simp [spaceOf, not_not.mp none]⟩
  refine wp_bind (wp_when (fun some => ?_) fun none => ?_)
  · have own : ∀ q, owns s.mem p q = one p.trapframe q + spaceOf s.mem p q := fun q => by simp [owns, frameOf, some]
    have apart := fits.mono fun q => Nat.le_of_eq (own q).symm
    refine wp_imp (kfree_spec (apart.mono fun q => Nat.le_add_right _ _)) fun _ t ⟨_, freed⟩ => ?_
    obtain ⟨same, kept⟩ := spaceOf_frame apart freed
    exact finish (kept ok) (freed.within _ own fun q => by rw [same, Nat.zero_add])
  · have own : ∀ q, owns s.mem p q = spaceOf s.mem p q := fun q => by simp [owns, frameOf, not_not.mp none]
    exact finish ok ((Pool.Keeps.refl s _).congr own fun _ => rfl)

/-- A process that is being set up, with an address space that is still empty. -/
structure Fresh (mem : Mem) (p : Proc) : Prop where
  state : p.state = .used
  sz : p.sz = 0
  frame : p.trapframe ≠ 0
  table : p.pagetable ≠ 0
  maps : Maps Good mem p.pagetable (Mapped 0 0 kernelPages)

theorem Fresh.owns (fresh : Fresh mem p) (m : Mem) (q : Nat) :
    owns m p q = space m p.pagetable 0 q + one p.trapframe q := by
  rw [owns_some fresh.frame fresh.table, fresh.sz, Nat.add_comm]
  rfl

theorem Fresh.ok (fresh : Fresh mem p) : ProcOk holes mem p where
  shape := fun _ => ⟨0, .inl rfl, by rw [fresh.sz]; decide, by rw [fresh.sz]; exact fresh.maps⟩
  bare := fun _ => fresh.sz
  unused := fun unused => by rw [fresh.state] at unused; cases unused
  live := fun _ live => absurd fresh.state live

/-- `allocproc` in a free slot: exactly four pages, or none. -/
theorem allocprocAt_spec {f : Nat → Nat} {pid : Int} (lenient : holes → ∀ e, HolePanic e → E e)
    (ok : ProcOk holes s.mem p) (free : p.state = .unused) (fits : img.Fits s f) :
    wp (allocprocAt img pid p) s (fun r s' =>
      (r = (false, p.freed) ∧ s.free.length < 4 ∧ img.Keeps s (fun _ => 0) s' (fun _ => 0)) ∨
      (∃ tf pt, r = (true, { p with pid := pid, state := .used, trapframe := tf, pagetable := pt }) ∧
        s.free.length = s'.free.length + 4 ∧ Fresh s'.mem r.2 ∧ img.Keeps s (fun _ => 0) s' (owns s'.mem r.2))) E := by
  obtain ⟨noFrame, noTable⟩ := ok.unused free
  have noSize := ok.bare noTable
  have nothing : img.Fits s (fun _ => 0) := fits.mono fun _ => Nat.zero_le _
  -- a process without page table, on the way out
  have bare : ∀ {m : Mem} {tf : Nat}, ProcOk holes m { p with pid := pid, state := .used, trapframe := tf } :=
    ⟨fun some => absurd noTable some, fun _ => noSize, fun no => (nomatch no), fun _ no => absurd rfl no⟩
  refine wp_bind (wp_imp (kalloc_spec fits) fun r t outcome => ?_)
  rcases outcome with ⟨rfl, out, rfl⟩ | ⟨tf, rfl, taken, page, keeps⟩
  · have own : ∀ q, owns t.mem { p with pid := pid, state := .used } q = 0 := owns_none noFrame noTable
    refine wp_bind (wp_imp (freeproc_spec lenient bare (nothing.mono fun q => Nat.le_of_eq (own q)))
      fun p' u ⟨same, freed⟩ =>
      wp_pure (.inl ⟨?_, by rw [out]; decide, freed.congr (fun q => (own q).symm) fun _ => rfl⟩))
    rw [same]
    rfl
  · have fits₁ := nothing.keeps keeps
    refine wp_bind (wp_imp (procPagetable_spec fits₁ (Nat.lt_trans page.2.2 (by decide))) fun r u outcome => ?_)
    rcases outcome with ⟨rfl, short, keeps'⟩ | ⟨pt, rfl, table, used, maps, keeps'⟩
    · have own : ∀ q, owns u.mem { p with pid := pid, state := .used, trapframe := tf } q = one tf q := fun q => by
        simp [owns, frameOf, spaceOf, noTable, Nat.ne_of_gt page.pos]
      have both : img.Keeps s (fun _ => 0) u (one tf) :=
        keeps.trans (keeps'.within (one tf) (fun q => (Nat.zero_add _).symm) fun q => (Nat.zero_add _).symm)
      refine wp_bind (wp_imp (freeproc_spec lenient bare ((nothing.keeps both).mono fun q => Nat.le_of_eq (own q)))
        fun p' v ⟨same, freed⟩ =>
        wp_pure (.inl ⟨?_, ?_, both.trans (freed.congr (fun q => (own q).symm) fun _ => rfl)⟩))
      · rw [same]
        rfl
      · rw [taken, List.length_cons]
        omega
    · have fresh : Fresh u.mem { p with pid := pid, state := .used, trapframe := tf, pagetable := pt } :=
        ⟨rfl, noSize, Nat.ne_of_gt page.pos, table, maps⟩
      refine wp_pure (.inr ⟨tf, pt, rfl, ?_, fresh,
        keeps.trans (keeps'.within (one tf) (fun q => (Nat.zero_add _).symm) ?_)⟩)
      · rw [taken, List.length_cons]
        omega
      · exact fresh.owns u.mem

/-- Writing into the trapframe page. -/
theorem write_frame {a n : Nat} (src : Mem) (ok : ProcOk holes s.mem p) (fits : img.Fits s (owns s.mem p))
    (frame : p.trapframe ≠ 0) (inside : a + n ≤ PGSIZE) :
    ProcOk holes (blit s.mem (p.trapframe + a) n src) p ∧
    img.Keeps s (owns s.mem p) { s with mem := blit s.mem (p.trapframe + a) n src }
      (owns (blit s.mem (p.trapframe + a) n src) p) := by
  have own : ∀ m q, owns m p q = spaceOf m p q + one p.trapframe q := fun m q => by
    simp [owns, frameOf, frame, Nat.add_comm]
  have page : img.IsPage p.trapframe := tree_pages fits _ (by rw [own, one_self]; omega)
  have outside : ∀ x, PGROUNDDOWN x ≠ p.trapframe → blit s.mem (p.trapframe + a) n src x = s.mem x := fun x other =>
    blit_out (by rw [Ne, rounddown_eq page.1] at other; omega)
  obtain ⟨same, kept⟩ := @spaceOf_same img s (blit s.mem (p.trapframe + a) n src) holes p
    (fun q mine => tree_pages fits q (by rw [own]; omega)) fun x mine => outside x (by
      rintro here
      have := fits.once (PGROUNDDOWN x)
      rw [own, here, one_self] at this
      rw [here] at mine
      omega)
  refine ⟨kept ok, (keeps_write fits fun x none => outside x ?_).congr (fun _ => rfl) fun q => ?_⟩
  · rintro here
    rw [own, here, one_self] at none
    omega
  · rw [own, own, same]

/-- Storing a register in the trapframe. -/
theorem poke_spec {a v : Nat} (ok : ProcOk holes s.mem p) (fits : img.Fits s (owns s.mem p)) (frame : p.trapframe ≠ 0)
    (inside : a + 8 ≤ PGSIZE) :
    wp (poke 8 (p.trapframe + a) v) s (fun _ s' => s'.free = s.free ∧ ProcOk holes s'.mem p ∧
      img.Keeps s (owns s.mem p) s' (owns s'.mem p)) E :=
  wp_modify ⟨rfl, write_frame (leByte v) ok fits frame inside⟩

/-- `userinit` on its new process: 3 pages are enough for page 0 of user memory. -/
theorem userinitAt_spec (fresh : Fresh s.mem p) (fits : img.Fits s (owns s.mem p))
    (trap : s.free = [] → E .kerneltrap) :
    wp (userinitAt p) s (fun r s' => r.2 = { p with sz := PGSIZE, name := initName p, state := .runnable } ∧
      ((∃ mem, r.1 = some mem ∧ s.free.length < 3 ∧ 0 < s.free.length ∧ ProcOk True s'.mem r.2 ∧
        img.Keeps s (owns s.mem p) s' (fun q => owns s'.mem r.2 q + one mem q)) ∨
       (r.1 = none ∧ (∀ holes, ProcOk holes s'.mem r.2) ∧ img.Keeps s (owns s.mem p) s' (owns s'.mem r.2)))) E := by
  have fits' : img.Fits s (fun q => space s.mem p.pagetable 0 q + one p.trapframe q) :=
    fits.mono fun q => Nat.le_of_eq (fresh.owns s.mem q).symm
  have onePage : pages PGSIZE = 1 := by decide
  have sized : ∀ m q, owns m { p with sz := PGSIZE, name := initName p, state := .runnable } q =
    space m p.pagetable 1 q + one p.trapframe q :=
    fun m q => by
      rw [@owns_some m { p with sz := PGSIZE, name := initName p, state := .runnable } fresh.frame fresh.table q,
        onePage, Nat.add_comm]
  refine wp_bind (wp_imp (uvminit_spec kernelPages_top (by decide) fresh.maps (fits'.mono fun q =>
    Nat.le_add_right _ _) trap)
    fun r t outcome => wp_bind (wp_modify (wp_bind (wp_modify (wp_pure ?_)))))
  obtain ⟨mem, r⟩ := r
  have shape : ∀ {holes : Prop} {lo : Nat}, (lo = 0 ∨ holes ∧ lo = 1 ∧ 0 < PGSIZE) →
      Maps Good t.mem p.pagetable (Mapped lo 1 kernelPages) →
        ProcOk holes t.mem { p with sz := PGSIZE, name := initName p, state := .runnable } :=
    fun {_ lo} low maps => ⟨fun _ => ⟨lo, low, by rw [onePage]; decide, by rw [onePage]; exact maps⟩,
      fun none => absurd none fresh.table,
      fun no => (nomatch no), fun _ _ => ⟨fresh.frame, fresh.table⟩⟩
  -- the two writes to the trapframe
  have frame : ∀ {holes : Prop} {g : Nat → Nat},
      ProcOk holes t.mem { p with sz := PGSIZE, name := initName p, state := .runnable } →
      img.Keeps s (owns s.mem p) t
        (fun q => owns t.mem { p with sz := PGSIZE, name := initName p, state := .runnable } q + g q) →
      let m := store 8 (store 8 t.mem (p.trapframe + TF_EPC) 0) (p.trapframe + TF_SP) PGSIZE
      ProcOk holes m { p with sz := PGSIZE, name := initName p, state := .runnable } ∧
      img.Keeps s (owns s.mem p) { t with mem := m }
        (fun q => owns m { p with sz := PGSIZE, name := initName p, state := .runnable } q + g q) := by
    intro holes g ok keeps
    have fits₁ := (fits.keeps keeps).mono fun q => Nat.le_add_right _ _
    obtain ⟨ok₁, keeps₁⟩ := write_frame (leByte 0) ok fits₁ fresh.frame (show TF_EPC + 8 ≤ PGSIZE by decide)
    obtain ⟨ok₂, keeps₂⟩ :=
      write_frame (leByte PGSIZE) ok₁ (fits₁.keeps keeps₁) fresh.frame (show TF_SP + 8 ≤ PGSIZE by decide)
    exact ⟨ok₂, keeps.trans ((keeps₁.trans keeps₂).frame g)⟩
  rcases outcome with ⟨failed, short, some, maps, keeps⟩ | ⟨done, maps, keeps⟩
  -- page 0 is counted in the size but not mapped
  · have hole : ∀ j < VPAGES, Mapped 0 0 kernelPages j ↔ Mapped 1 1 kernelPages j := fun j _ =>
      or_congr (by omega) Iff.rfl
    have absent := maps.none (j := 0) (by decide) (mapped_next kernelPages_top (by decide))
    have kept : img.Keeps s (owns s.mem p) t
        (fun q => owns t.mem { p with sz := PGSIZE, name := initName p, state := .runnable } q + one mem q) :=
      keeps.within (one p.trapframe) (fresh.owns s.mem) fun q => by
        rw [sized, space, pagesOf_drop q (Nat.zero_le 1) fun j _ high => by rw [Nat.lt_one_iff.mp high]; exact absent]
        exact Nat.add_right_comm _ _ _
    obtain ⟨ok', kept'⟩ := frame (shape (.inr ⟨trivial, rfl, by decide⟩) (maps.congr hole)) kept
    exact ⟨rfl, .inl ⟨mem, if_neg failed, short, some, ok', kept'⟩⟩
  · have kept : img.Keeps s (owns s.mem p) t
        (fun q => owns t.mem { p with sz := PGSIZE, name := initName p, state := .runnable } q + 0) :=
      keeps.within (one p.trapframe) (fresh.owns s.mem) (sized t.mem)
    exact ⟨rfl, .inr ⟨if_pos done, fun holes => (frame (shape (.inl rfl) maps) kept).1,
      (frame (@shape True 0 (.inl rfl) maps) kept).2⟩⟩

/-! ## Growing, shrinking, copying -/

theorem ProcOk.resize {lo sz : Nat} (ok : ProcOk holes mem p) (table : p.pagetable ≠ 0) (low : lo = 0 ∨ holes ∧ lo = 1)
    (range : pages sz ≤ TOP) (maps : Maps Good mem' p.pagetable (Mapped lo (pages sz) kernelPages)) :
    ProcOk holes mem' { p with sz := sz } where
  shape := fun _ => by
    rcases low with rfl | ⟨allowed, rfl⟩
    · exact ⟨0, .inl rfl, range, maps⟩
    · rcases Nat.eq_zero_or_pos sz with rfl | some
      -- nothing is left below the size, and so no hole
      · exact ⟨0, .inl rfl, range, maps.congr fun j _ => or_congr (by rw [show pages 0 = 0 from rfl]; omega) Iff.rfl⟩
      · exact ⟨1, .inr ⟨allowed, rfl, some⟩, range, maps⟩
  bare := fun none => absurd none table
  unused := ok.unused
  live := ok.live

theorem spaceOf_some (table : p.pagetable ≠ 0) (q : Nat) : spaceOf mem p q = space mem p.pagetable (pages p.sz) q :=
  if_neg table

/-- `growproc` for any `n` and with any outcome. -/
theorem growproc_spec (n : Int) (lenient : holes → ∀ e, HolePanic e → E e) (ok : ProcOk holes s.mem p)
    (table : p.pagetable ≠ 0) (fits : img.Fits s (spaceOf s.mem p)) :
    wp (growproc img n p) s (fun r s' => ∃ sz, r.2 = { p with sz := sz } ∧ ProcOk holes s'.mem r.2 ∧
      img.Keeps s (spaceOf s.mem p) s' (spaceOf s'.mem r.2)) E := by
  obtain ⟨lo, low, range, maps⟩ := ok.shape table
  have low' : lo = 0 ∨ holes ∧ lo = 1 := low.imp_right fun h => ⟨h.1, h.2.1⟩
  have own : ∀ m q, spaceOf m p q = space m p.pagetable (pages p.sz) q := fun m => spaceOf_some table
  have fits' := fits.mono fun q => Nat.le_of_eq (own s.mem q).symm
  have above : lo ≤ 1 ∧ lo ≤ pages p.sz := by
    rcases low with rfl | ⟨_, rfl, some⟩
    · exact ⟨by decide, Nat.zero_le _⟩
    · exact ⟨Nat.le_refl 1, by simp only [pages, PGSIZE]; omega⟩
  have small : p.sz < 2 ^ 31 := by
    have room := maps.room (Nat.le_trans range (by decide)) fits'
    simp only [pages, PGSIZE] at room
    omega
  have exact32 : ∀ {k : Nat}, k < 2 ^ 32 → u32 (k : Int) = k := fun fits => by
    unfold u32
    omega
  have bounded : ∀ k : Int, u32 k < 2 ^ 32 := fun k => by
    unfold u32
    omega
  have done : ∀ {t : Pool UInt8} {sz : Nat}, pages sz ≤ TOP →
    Maps Good t.mem p.pagetable (Mapped lo (pages sz) kernelPages) →
      img.Keeps s (space s.mem p.pagetable (pages p.sz)) t (space t.mem p.pagetable (pages sz)) →
      ∃ sz', ({ p with sz := sz } : Proc) = { p with sz := sz' } ∧ ProcOk holes t.mem { p with sz := sz } ∧
        img.Keeps s (spaceOf s.mem p) t (spaceOf t.mem { p with sz := sz }) :=
    fun range maps keeps => ⟨_, rfl, ok.resize table low' range maps, keeps.congr (own _) (spaceOf_some table)⟩
  unfold growproc
  simp only [exact32 (show p.sz < 2 ^ 32 by omega)]
  by_cases grow : 0 < n
  · rw [if_pos grow]
    refine wp_bind (wp_imp (uvmalloc_spec kernelPages_top above.1 above.2 range maps fits')
      fun r t outcome => ?_)
    rcases outcome with ⟨rfl, maps, keeps⟩ | ⟨rfl, range', maps, keeps⟩
    · exact wp_pure (done range maps keeps)
    · rw [exact32 (Nat.max_lt.mpr ⟨by omega, bounded _⟩)]
      split
      · next zero =>
          have both : max p.sz (u32 (p.sz + n)) = p.sz := by omega
          rw [both] at maps keeps
          exact wp_pure (done range maps keeps)
      · exact wp_pure (done range' maps keeps)
  · rw [if_neg grow]
    by_cases shrink : n < 0
    · rw [if_pos shrink]
      refine wp_bind (wp_imp (uvmdealloc_spec kernelPages_top (fun _ _ good => good.1) maps fits' range
        fun _ hole => ?_)
        fun r t post => ?_)
      · rcases low with rfl | ⟨allowed, _⟩
        · exact absurd hole (Nat.not_lt_zero _)
        · exact ⟨lenient allowed _ (by decide), lenient allowed _ (by decide)⟩
      · obtain ⟨same, maps, keeps⟩ := post
        subst same
        rw [exact32 (Nat.lt_of_le_of_lt (Nat.min_le_left _ _) (by omega))]
        exact wp_pure (done (Nat.le_trans (pages_mono (Nat.min_le_left _ _)) range) maps keeps)
    · rw [if_neg shrink]
      exact wp_pure (done range maps (.refl _ _))

/-- `fork`: the child has a copy of everything, or it is gone. -/
theorem forkAt_spec (lenient : holes → ∀ e, HolePanic e → E e) (ok : ProcOk holes s.mem p)
    (table : p.pagetable ≠ 0) (fresh : Fresh s.mem np)
    (fits : img.Fits s (fun q => owns s.mem np q + spaceOf s.mem p q)) :
    wp (forkAt img p np) s (fun r s' =>
      (r = (false, np.freed) ∧ img.Keeps s (owns s.mem np) s' (fun _ => 0)) ∨
      (r = (true, { np with sz := p.sz }) ∧ ProcOk holes s'.mem r.2 ∧
        img.Keeps s (owns s.mem np) s' (owns s'.mem r.2))) E := by
  obtain ⟨lo, low, range, maps⟩ := ok.shape table
  have own : ∀ m q, owns m np q = space m np.pagetable 0 q + one np.trapframe q := fresh.owns
  refine wp_bind (wp_imp (uvmcopy_spec kernelPages_top (fun _ _ good => good.1) range ?_ maps fresh.maps
    (fits.mono fun q => ?_)) fun r t outcome => ?_)
  · intro hole
    rcases low with rfl | ⟨allowed, _⟩
    · exact absurd hole (Nat.lt_irrefl 0)
    · exact ⟨lenient allowed _ (by decide), lenient allowed _ (by decide)⟩
  · rw [own, spaceOf_some table]
    unfold space
    omega
  rcases outcome with ⟨rfl, maps', keeps⟩ | ⟨rfl, maps', keeps⟩
  · rw [if_pos (by decide)]
    have still : Fresh t.mem np := ⟨fresh.state, fresh.sz, fresh.frame, fresh.table, maps'⟩
    have kept : img.Keeps s (owns s.mem np) t (owns t.mem np) := keeps.within _ (own s.mem) (own t.mem)
    refine wp_bind (wp_imp (freeproc_spec lenient still.ok ((fits.mono fun q => Nat.le_add_right _ _).keeps kept))
      fun np' u ⟨same, freed⟩ => wp_pure (.inl ⟨?_, kept.trans freed⟩))
    rw [same]
  · rw [if_neg (by decide)]
    refine wp_bind (wp_modify (wp_bind (wp_modify (wp_pure (.inr ⟨rfl, ?_⟩)))))
    have sized : ∀ q, owns t.mem { np with sz := p.sz } q =
      space t.mem np.pagetable (pages p.sz) q + one np.trapframe q := fun q => by
      rw [@owns_some t.mem { np with sz := p.sz } fresh.frame fresh.table q, Nat.add_comm]
    have kept : img.Keeps s (owns s.mem np) t (owns t.mem { np with sz := p.sz }) := keeps.within _ (own s.mem) sized
    have fits₁ := (fits.mono fun q => Nat.le_add_right _ _).keeps kept
    have copied : ProcOk holes t.mem { np with sz := p.sz } := fresh.ok.resize fresh.table (.inl rfl) range maps'
    obtain ⟨ok₁, keeps₁⟩ := write_frame (fun j => t.mem (p.trapframe + j)) copied fits₁ fresh.frame
      (show 0 + TF_SIZE ≤ PGSIZE by decide)
    obtain ⟨ok₂, keeps₂⟩ :=
      write_frame (leByte 0) ok₁ (fits₁.keeps keeps₁) fresh.frame (show TF_A0 + 8 ≤ PGSIZE by decide)
    exact ⟨ok₂, kept.trans (keeps₁.trans keeps₂)⟩

end Xv6.Kernel.Vm
