/-
# Kernel.ExecImage -- the memory that exec builds

After the segments (`Kernel.ExecLoad`) `exec` makes a guard page and a stack page, pushes
the argument strings, each below the one before (`Placed`), and below them the array of
their addresses.  `exec_image` puts the parts together, for the arguments that `sys_exec`
has fetched.
-/
import Xv6.Kernel.Ownership

namespace Xv6.Kernel.Vm

set_option autoImplicit false

open Xv6.Theory Xv6.Theory.Bytes Xv6.Theory.Prog Xv6.Theory.Steps

variable {img : Image} {s t u : Pool UInt8} {E : Panic → Prop} {root sz : Nat} {ip : List UInt8}

/-! ## The argument strings -/

variable {mem : Mem} {arg k sp : Nat} {f : Nat → Nat} {argv : List Nat} {bytes : Nat → Option UInt8} {p : Proc}

theorem scan_stops :
    ∀ {n p k : Nat}, k < n → mem (p + k) = 0 → (∀ j < k, mem (p + j) ≠ 0) → (scan mem n p).1.length = k + 1 := by
  intro n
  induction n with
  | zero =>
    intro p k no
    exact absurd no (Nat.not_lt_zero k)
  | succ n ih =>
    intro p k less zero before
    rw [scan]
    cases k with
    | zero =>
      rw [if_pos (show mem p = 0 from zero)]
      rfl
    | succ k =>
      have shift : ∀ j, p + 1 + j = p + (j + 1) := fun j => by omega
      have rest := @ih (p + 1) k (by omega) (by rw [shift]; exact zero) fun j below =>
        by rw [shift]; exact before (j + 1) (by omega)
      rw [if_neg (show mem p ≠ 0 from before 0 (Nat.succ_pos k))]
      exact congrArg (· + 1) rest

theorem StringAt.strlen {len : Nat} (is : StringAt mem arg len) (below : arg + PGSIZE ≤ PHYSTOP) :
    strlen mem arg = len := by
  have inside := is.inside
  rw [Vm.strlen, scan_stops (by omega) is.nul is.bytes, Nat.add_sub_cancel]

theorem page_below {c : Nat} (page : img.IsPage c) : c + PGSIZE ≤ PHYSTOP := by
  have aligned := page.1
  have high := page.2.2
  simp only [PHYSTOP, KERNBASE, PGSIZE] at *
  omega

/-- Each argument is a string in a page of its own, and all are owned beside `f`. -/
structure Arguments (img : Image) (s : Pool UInt8) (f : Nat → Nat) (argv : List Nat) : Prop where
  few : argv.length < MAXARG
  strings : ∀ arg ∈ argv, StringAt s.mem arg (strlen s.mem arg)
  fits : img.Fits s fun q => f q + argv.count q

/-- Allocating pages leaves the arguments alone. -/
theorem Arguments.untouched {f' : Nat → Nat} (args : Arguments img s f argv) (keeps : img.Keeps s (fun _ => 0) t f')
    (member : arg ∈ argv) (small : k < PGSIZE) : t.mem (arg + k) = s.mem (arg + k) := by
  have mine : 0 < argv.count arg := List.count_pos_iff.mpr member
  have page := tree_pages args.fits arg (Nat.lt_of_lt_of_le mine (Nat.le_add_left _ _))
  refine Pool.Keeps.untouched (g := fun q => argv.count q) keeps (args.fits.mono fun q => by omega) ?_
  show 0 < argv.count (PGROUNDDOWN (arg + k))
  rw [rounddown_add page.1 small]
  exact mine

theorem Arguments.strlen_same {f' : Nat → Nat} (args : Arguments img s f argv) (keeps : img.Keeps s (fun _ => 0) t f')
    (member : arg ∈ argv) : strlen t.mem arg = strlen s.mem arg := by
  have page := tree_pages args.fits arg (Nat.lt_of_lt_of_le (List.count_pos_iff.mpr member) (Nat.le_add_left _ _))
  exact ((args.strings arg member).congr fun k small => args.untouched keeps member small).strlen (page_below page)

/-! ## The stack -/

theorem push_below {n : Nat} (enough : n ≤ sp) (small : sp < 2 ^ 64) : push sp n + n ≤ sp ∧ push sp n % 16 = 0 := by
  unfold push
  dsimp only
  rw [sub64, sub64, u64, u64]
  omega

/-- The strings of `argv` lie at `ptrs`, each below the one before, from `top` down to `sp`. -/
def Placed (mem : Mem) (bytes : Nat → Option UInt8) : Nat → List Nat → List Nat → Nat → Prop
  | top, [], ptrs, sp => ptrs = [] ∧ sp = top
  | top, arg :: argv, ptrs, sp => ∃ p rest, ptrs = p :: rest ∧ p + strlen mem arg + 1 ≤ top ∧
      (∀ k ≤ strlen mem arg, bytes (p + k) = some (mem (arg + k))) ∧ Placed mem bytes p argv rest sp

theorem Placed.le :
    ∀ {argv ptrs : List Nat} {top : Nat}, Placed mem bytes top argv ptrs sp → sp ≤ top := by
  intro argv
  induction argv with
  | nil =>
    rintro ptrs top ⟨_, rfl⟩
    exact Nat.le_refl _
  | cons arg argv ih =>
    rintro ptrs top ⟨p, rest, _, below, _, later⟩
    have := ih later
    omega

theorem Placed.length :
    ∀ {argv ptrs : List Nat} {top : Nat}, Placed mem bytes top argv ptrs sp → ptrs.length = argv.length := by
  intro argv
  induction argv with
  | nil =>
    rintro ptrs top ⟨rfl, _⟩
    rfl
  | cons arg argv ih =>
    rintro ptrs top ⟨p, rest, rfl, _, _, later⟩
    rw [List.length_cons, List.length_cons, ih later]

/-- Only the bytes from `sp` to `top` matter. -/
theorem Placed.congr {bytes' : Nat → Option UInt8} : ∀ {argv ptrs : List Nat} {top : Nat},
    (∀ va, sp ≤ va → va < top → bytes' va = bytes va) → Placed mem bytes top argv ptrs sp →
    Placed mem bytes' top argv ptrs sp := by
  intro argv
  induction argv with
  | nil =>
    intro ptrs top _ placed
    exact placed
  | cons arg argv ih =>
    rintro ptrs top same ⟨p, rest, is, below, string, later⟩
    have lower := later.le
    refine ⟨p, rest, is, below, fun k le => ?_, ih (fun va low high => same va low (by omega)) later⟩
    rw [same _ (by omega) (by omega)]
    exact string k le

/-- The strings have been pushed, from `sp` down to `sp'`. -/
structure Pushed (img : Image) (mem : Mem) (root hi sp : Nat) (argv ptrs : List Nat) (sp' : Nat)
    (t u : Pool UInt8) : Prop where
  space : AddressSpace img root 0 hi kernelPages u
  keeps : img.Keeps t (Vm.space t.mem root hi) u (Vm.space u.mem root hi)
  placed : Placed mem (userByte u.mem root) sp argv ptrs sp'
  others : ∀ va, va < sp' ∨ sp ≤ va → userByte u.mem root va = userByte t.mem root va

theorem pushFrom_pushes {hi base : Nat} {all : List Nat} (args : Arguments img s f all) (low : PGSIZE ≤ base) :
    ∀ {argv : List Nat} {sp : Nat} {ustack : List Nat} {t : Pool UInt8}, (∀ arg ∈ argv, arg ∈ all) →
    base ≤ sp → sp < 2 ^ 64 →
    AddressSpace img root 0 hi kernelPages t → img.Keeps s (fun _ => 0) t (space t.mem root hi) →
    wp (pushFrom root base argv sp ustack) t (fun r u => ∀ sp' us, r = some (sp', us) → base ≤ sp' ∧
      ∃ ptrs, us = ustack ++ ptrs ∧ Pushed img s.mem root hi sp argv ptrs sp' t u) (fun _ => True) := by
  intro argv
  induction argv with
  | nil =>
    intro sp ustack t _ above _ here _
    refine wp_pure fun sp' us is => ?_
    cases is
    exact ⟨above, [], (List.append_nil _).symm, here, .refl _ _, ⟨rfl, rfl⟩, fun _ _ => rfl⟩
  | cons arg argv ih =>
    intro sp ustack t mem above small here start
    have member := mem arg List.mem_cons_self
    have string := args.strings arg member
    have failed : ∀ {v : Pool UInt8}, wp (pure none : Kern (Option (Nat × List Nat))) v (fun r u => ∀ sp' us,
      r = some (sp', us) → base ≤ sp' ∧
        ∃ ptrs, us = ustack ++ ptrs ∧ Pushed img s.mem root hi sp (arg :: argv) ptrs sp' t u) (fun _ => True) :=
      wp_pure fun _ _ no => by cases no
    rw [pushFrom]
    by_cases full : MAXARG ≤ ustack.length
    · rw [if_pos full]
      exact failed
    rw [if_neg full]
    refine wp_bind (wp_get ?_)
    dsimp only
    rw [args.strlen_same start member]
    obtain ⟨len, is⟩ : ∃ len, len = strlen s.mem arg := ⟨_, rfl⟩
    rw [← is] at string ⊢
    have inside := string.inside
    obtain ⟨below, -⟩ := @push_below sp (len + 1) (by omega) small
    generalize push sp (len + 1) = p at below ⊢
    by_cases under : p < base
    · rw [if_pos under]
      exact failed
    rw [if_neg under]
    refine wp_bind (wp_imp (copyout_copies here) fun r u copied => ?_)
    split
    · exact failed
    · next fine =>
        have copy := copied (by omega)
        rw [storeUstack, if_neg full]
        refine wp_bind (wp_pure (wp_imp (ih (fun x later => mem x (List.mem_cons_of_mem _ later)) (by omega)
          (by omega) copy.out.space
          (start.trans copy.keeps)) fun q v pushed sp' us eq => ?_))
        obtain ⟨above', ptrs, is', space', keeps, placed, others⟩ := pushed sp' us eq
        have lower := placed.le
        refine ⟨above', p :: ptrs, by rw [is', List.append_assoc]; rfl, space', copy.keeps.trans keeps,
          ⟨p, ptrs, rfl, by omega, fun k le => ?_, placed⟩, fun va outside => ?_⟩
        · rw [← is] at le
          rw [others _ (.inr (Nat.le_add_right p k)), copy.out.bytes, if_pos (by omega), Nat.add_sub_cancel_left,
            args.untouched start member (by omega)]
        · rw [others va (by omega), copy.out.bytes, if_neg (by omega)]

/-! ## The commit -/

section Commit

variable {holes : Prop} {p : Proc}

/-- One register is set in the trapframe, and the others are not. -/
theorem poke_sets {a v : Nat} (ok : ProcOk holes t.mem p) (fits : img.Fits t (owns t.mem p)) (frame : p.trapframe ≠ 0)
    (inside : a + 8 ≤ PGSIZE) (small : v < 2 ^ 64) :
    wp (poke 8 (p.trapframe + a) v) t (fun _ u => ProcOk holes u.mem p ∧ img.Keeps t (owns t.mem p) u (owns u.mem p) ∧
      load 8 u.mem (p.trapframe + a) = v ∧
      ∀ b, b + 8 ≤ a ∨ a + 8 ≤ b → load 8 u.mem (p.trapframe + b) = load 8 t.mem (p.trapframe + b)) E := by
  obtain ⟨ok', keeps⟩ := write_frame (leByte v) ok fits frame inside
  exact wp_modify ⟨ok', keeps, load_store_of_lt small, fun b apart => load_store_disjoint (by omega)⟩

/-- The stack pointer, the second argument and the program counter of a process that returns to
user mode. -/
def Registers (mem : Mem) (trapframe sp entry : Nat) : Prop :=
  load 8 mem (trapframe + TF_SP) = sp ∧ load 8 mem (trapframe + TF_A1) = sp ∧ load 8 mem (trapframe + TF_EPC) = entry

/-- The end of `exec`: the registers are set, and of what the process owned the trapframe is
left. -/
theorem execCommit_commits {entry argc : Nat} {path : List UInt8} (ok : ProcOk holes t.mem p)
    (fits : img.Fits t (owns t.mem p))
    (table : p.pagetable ≠ 0) (frame : p.trapframe ≠ 0) (small : sp < 2 ^ 64) (small' : entry < 2 ^ 64) :
    wp (execCommit img root sz sp entry argc path p) t (fun r u => r.1 = argc ∧ r.2.pagetable = root ∧ r.2.sz = sz ∧
      r.2.trapframe = p.trapframe ∧ img.Keeps t (owns t.mem p) u (frameOf p) ∧ Registers u.mem p.trapframe sp entry)
      (fun _ => True) := by
  refine wp_bind (wp_imp (poke_sets ok fits frame (by decide) small) fun _ v₁ ⟨ok₁, keeps₁, word₁, _⟩ => ?_)
  have fits₁ := fits.keeps keeps₁
  refine wp_bind (wp_imp (poke_sets ok₁ fits₁ frame (by decide) small') fun _ v₂ ⟨ok₂, keeps₂, word₂, same₂⟩ => ?_)
  have fits₂ := fits₁.keeps keeps₂
  refine wp_bind (wp_imp (poke_sets ok₂ fits₂ frame (by decide) small) fun _ v ⟨ok₃, keeps₃, word₃, same₃⟩ => ?_)
  have fits₃ : img.Fits v (fun q => spaceOf v.mem p q + frameOf p q) := (fits₂.keeps keeps₃).mono fun q =>
    Nat.le_of_eq (Nat.add_comm ..)
  refine wp_bind (wp_imp (freeSpace_spec (fun _ _ _ => trivial) ok₃ table (fits₃.mono fun q => Nat.le_add_right _ _))
    fun _ u freed => ?_)
  refine wp_pure ⟨rfl, rfl, rfl, rfl, ((keeps₁.trans keeps₂).trans keeps₃).trans
    (freed.within (frameOf p) (fun q => Nat.add_comm ..) fun q => (Nat.zero_add _).symm), ?_⟩
  -- the trapframe is not part of the memory that was freed
  have page : img.IsPage p.trapframe := tree_pages fits _ (by rw [owns_some frame table, one_self]; omega)
  have kept : ∀ a, a + 8 ≤ PGSIZE → load 8 u.mem (p.trapframe + a) = load 8 v.mem (p.trapframe + a) := by
    refine fun a inside => load_congr 8 _ fun j below => freed.untouched fits₃ ?_
    show 0 < frameOf p (PGROUNDDOWN (p.trapframe + a + j))
    rw [Nat.add_assoc, rounddown_add page.1 (by omega), frameOf, if_neg frame, one_self]
    exact Nat.one_pos
  refine ⟨?_, ?_, ?_⟩
  · rw [kept _ (by decide), word₃]
  · rw [kept _ (by decide), same₃ _ (by decide), same₂ _ (by decide), word₁]
  · rw [kept _ (by decide), same₃ _ (by decide), word₂]

end Commit

/-! ## The new memory -/

/-- What user code sees when `exec` returns: the image `c` below `guard`, the guard page, and on
the stack the strings of `argv` and below them the array of their addresses. -/
structure NewImage (mem : Mem) (argv : List Nat) (c : Nat → UInt8) (guard sp : Nat)
    (bytes : Nat → Option UInt8) : Prop where
  low : ∀ va < guard, bytes va = some (c va)
  hidden : ∀ va, guard ≤ va → va < guard + PGSIZE → bytes va = none
  aligned : sp % 16 = 0
  above : guard + PGSIZE ≤ sp
  stack : ∃ ptrs sp', Placed mem bytes (guard + 2 * PGSIZE) argv ptrs sp' ∧ sp + 8 * (argv.length + 1) ≤ sp' ∧
    ∀ j < 8 * (argv.length + 1), bytes (sp + j) = some (leByte ((ptrs ++ [0]).getD (j / 8) 0) (j % 8))

/-- What `exec` leaves when it does not fail. -/
def Replacement (mem : Mem) (argv : List Nat) (c : Nat → UInt8) (guard root entry : Nat) (p : Proc) (r : Int × Proc)
    (u : Pool UInt8) : Prop :=
  r.1 = argv.length ∧ r.2.pagetable = root ∧ r.2.sz = guard + 2 * PGSIZE ∧ r.2.trapframe = p.trapframe ∧
  ∃ sp, Registers u.mem p.trapframe sp entry ∧ NewImage mem argv c guard sp (userByte u.mem root)

/-- The strings and then the array are pushed on a stack page above a hidden page. -/
theorem NewImage.build {ptrs : List Nat} {c : Nat → UInt8} {g sp' : Nat} {v w x : Pool UInt8}
    (seen : ∀ va < (g + 2) * PGSIZE, userByte v.mem root va = if va / PGSIZE = g then none else some (c va))
    (pushed : Pushed img mem root (g + 2) ((g + 2) * PGSIZE) argv ptrs sp' v w)
    (copy : Copy img root (g + 2) w sp (fun j => leByte ((ptrs ++ [0]).getD (j / 8) 0) (j % 8))
      (8 * (argv.length + 1)) x)
    (aligned : sp % 16 = 0) (above : g * PGSIZE + PGSIZE ≤ sp) (below : sp + 8 * (argv.length + 1) ≤ sp') :
    NewImage mem argv c (g * PGSIZE) sp (userByte x.mem root) := by
  have lower := pushed.placed.le
  have under : ∀ va < g * PGSIZE + PGSIZE, userByte x.mem root va = if va / PGSIZE = g then none else some (c va) := by
    intro va less
    have inside : va < (g + 2) * PGSIZE := Nat.lt_of_lt_of_le less (by simp only [PGSIZE]; omega)
    rw [copy.out.bytes, if_neg (by omega), pushed.others va (by omega), seen va inside]
  refine ⟨fun va less => ?_, fun va low high => ?_, aligned, above, ptrs, sp', ?_, below, fun j less => ?_⟩
  · rw [under va (Nat.lt_of_lt_of_le less (Nat.le_add_right _ _)), if_neg]
    simp only [PGSIZE] at less ⊢
    omega
  · rw [under va high, if_pos]
    simp only [PGSIZE] at low high ⊢
    omega
  · rw [← Nat.add_mul]
    refine pushed.placed.congr fun va low _ => ?_
    rw [copy.out.bytes, if_neg (by omega)]
  · rw [copy.out.bytes, if_pos (by omega), Nat.add_sub_cancel_left]

theorem execBad_fails {X : Int × Proc → Pool UInt8 → Prop} :
    wp (execBad img root sz p) t (fun r u => 0 ≤ r.1 → X r u) (fun _ => True) :=
  wp_bind (wp_imp (wp_true _ _) fun _ _ _ => wp_pure fun no => absurd no (show ¬ (0 : Int) ≤ -1 by decide))

theorem execStack_builds {holes : Prop} {c : Nat → UInt8} {entry : Nat} {path : List UInt8}
    (ok : ProcOk holes s.mem p) (args : Arguments img s (owns s.mem p) argv) (table : p.pagetable ≠ 0)
    (frame : p.trapframe ≠ 0) (small : entry < 2 ^ 64) (holds : Holds img root sz c t)
    (start : img.Keeps s (fun _ => 0) t (space t.mem root (pages sz))) :
    wp (execStack img root sz entry path argv p) t (fun r u => 0 ≤ r.1 →
      Replacement s.mem argv c (pages sz * PGSIZE) root entry p r u) (fun _ => True) := by
  have fits : img.Fits s (owns s.mem p) := args.fits.mono fun q => Nat.le_add_right _ _
  refine wp_stackPages holds (fun _ _ _ => execBad_fails) fun v here₂ keeps seen => ?_
  have start₂ := start.trans keeps
  have room := holds.room
  have base : sub64 ((pages sz + 2) * PGSIZE) PGSIZE = pages sz * PGSIZE + PGSIZE := by
    rw [sub64, u64]
    simp only [PGSIZE]
    omega
  have top : (pages sz + 2) * PGSIZE < 2 ^ 64 := by
    simp only [PGSIZE]
    omega
  dsimp only
  rw [base]
  refine wp_bind (wp_imp (pushFrom_pushes args (Nat.le_add_left PGSIZE _) (fun _ member => member) ?_ top here₂ start₂)
    fun r w pushes => ?_)
  · rw [Nat.add_mul]
    omega
  rcases r with _ | ⟨sp', us⟩
  · exact execBad_fails
  obtain ⟨above, ptrs, is', pushed⟩ := pushes sp' us rfl
  obtain rfl : us = ptrs := is'
  have count := pushed.placed.length
  have few := args.few
  dsimp only
  rw [storeUstack, if_neg (by omega), count]
  refine wp_bind (wp_pure ?_)
  have lower := pushed.placed.le
  obtain ⟨under, aligned⟩ :=
    @push_below sp' ((argv.length + 1) * 8) (by simp only [MAXARG, PGSIZE] at few above; omega) (by omega)
  generalize push sp' ((argv.length + 1) * 8) = sp at under aligned ⊢
  split
  · exact execBad_fails
  next inside =>
    refine wp_bind (wp_imp (copyout_copies pushed.space) fun r x copied => ?_)
    split
    · exact execBad_fails
    next fine =>
      have copy := copied (by omega)
      rw [Nat.mul_comm] at copy
      have start₃ := (start₂.trans pushed.keeps).trans copy.keeps
      obtain ⟨ok', fits', -⟩ := aside ok fits start₃
      have image := NewImage.build seen pushed copy aligned (by omega) (by omega)
      refine wp_imp (execCommit_commits ok' (fits'.mono fun q => Nat.le_add_left _ _) table frame (by omega) small) ?_
      rintro r y ⟨argc, sameTable, sameSize, sameFrame, keeps, word⟩ _
      obtain ⟨-, -, bytes⟩ := copy.out.space.framed (fits'.mono fun q => Nat.le_of_eq (Nat.add_comm ..)) keeps
      refine ⟨argc, sameTable, by rw [sameSize, Nat.add_mul], sameFrame, sp, word, ?_⟩
      rw [funext bytes]
      exact image

/-! ## The arguments that sys_exec builds -/

/-- The arguments of `exec` when `sys_exec` calls it. -/
theorem fetchFrom_arguments {holes : Prop} {uargv : Nat} (ok : ProcOk holes s.mem p)
    (fits : img.Fits s (owns s.mem p)) (fetched : fetchFrom p uargv MAXARG 0 s = .ok ((argv, true), t)) :
    Arguments img t (owns t.mem p) argv ∧ ProcOk holes t.mem p := by
  obtain ⟨kept, fine⟩ := wp_ok (fetchFrom_spec (E := fun _ => True) fits) fetched
  obtain ⟨few, strings⟩ := fine rfl
  obtain ⟨ok', fits', -⟩ := aside ok fits kept
  refine ⟨⟨few, fun arg member => ?_, fits'.mono fun q => Nat.le_of_eq (Nat.add_comm ..)⟩, ok'⟩
  obtain ⟨len, string⟩ := strings arg member
  have page := tree_pages fits' arg (Nat.lt_of_lt_of_le (List.count_pos_iff.mpr member) (Nat.le_add_right _ _))
  rw [string.strlen (page_below page)]
  exact string

/-! ## exec -/

/-- The segment of header `i` is one that is loaded. -/
def Segment (ip : List UInt8) (elf : ElfHdr) (i : Nat) (ph : ProgHdr) : Prop :=
  i < elf.phnum ∧ readProgHdr ip (elf.phoff + 56 * i) = some ph ∧ ph.type = ELF_PROG_LOAD

/-- `va` is in the segment. -/
def ProgHdr.Occupied (ph : ProgHdr) (va : Nat) : Prop := ph.vaddr ≤ va ∧ va < ph.vaddr + ph.memsz

/-- The memory and the registers of a program that `exec` has just loaded: `guard` is the address
of the guard page, `sp` the stack pointer and `ptrs` the addresses of the argument strings, which
were at `argv` in the memory `mem`. -/
structure ExecImage (ip : List UInt8) (elf : ElfHdr) (mem : Mem) (argv : List Nat) (r : Int × Proc)
    (u : Pool UInt8) (guard sp : Nat) (ptrs : List Nat) : Prop where
  argc : r.1 = argv.length
  size : r.2.sz = guard + 2 * PGSIZE
  filled : ∀ i ph, Segment ip elf i ph → ∀ k < ph.filesz,
    ph.vaddr + k < guard ∧ userByte u.mem r.2.pagetable (ph.vaddr + k) = (ip)[ph.off + k]?
  zeros : ∀ va < guard, (∀ i ph, Segment ip elf i ph → ¬ ph.Filled va) → userByte u.mem r.2.pagetable va = some 0
  hidden : ∀ va, guard ≤ va → va < guard + PGSIZE → userByte u.mem r.2.pagetable va = none
  aligned : sp % 16 = 0
  stack : guard + PGSIZE ≤ sp ∧ sp < r.2.sz
  registers : Registers u.mem r.2.trapframe sp elf.entry
  count : ptrs.length = argv.length
  pointers : ∀ i ≤ argv.length, ∀ k < 8, userByte u.mem r.2.pagetable (sp + 8 * i + k) =
    some (leByte ((ptrs ++ [0]).getD i 0) k)
  strings : ∀ i < argv.length, ∀ k ≤ strlen mem (argv.getD i 0),
    userByte u.mem r.2.pagetable (ptrs.getD i 0 + k) = some (mem (argv.getD i 0 + k))
  inside : ∀ i < argv.length, sp + 8 * (argv.length + 1) ≤ ptrs.getD i 0 ∧
    ptrs.getD i 0 + strlen mem (argv.getD i 0) + 1 ≤ r.2.sz
  apart : ∀ i j, i < j → j < argv.length → ptrs.getD j 0 + strlen mem (argv.getD j 0) + 1 ≤ ptrs.getD i 0

theorem Placed.strings : ∀ {argv ptrs : List Nat} {top i : Nat},
    Placed mem bytes top argv ptrs sp → i < argv.length → sp ≤ ptrs.getD i 0 ∧
    ptrs.getD i 0 + strlen mem (argv.getD i 0) + 1 ≤ top ∧
    ∀ k ≤ strlen mem (argv.getD i 0), bytes (ptrs.getD i 0 + k) = some (mem (argv.getD i 0 + k)) := by
  intro argv
  induction argv with
  | nil =>
    intro ptrs top i _ no
    exact absurd no (Nat.not_lt_zero i)
  | cons arg argv ih =>
    rintro ptrs top i ⟨p, rest, rfl, below, string, later⟩ less
    have lower := later.le
    cases i with
    | zero => exact ⟨lower, below, string⟩
    | succ i =>
      obtain ⟨above, under, strings⟩ := ih later (Nat.lt_of_succ_lt_succ less)
      refine ⟨above, ?_, strings⟩
      simp only [List.getD_cons_succ]
      omega

theorem Placed.apart : ∀ {argv ptrs : List Nat} {top i j : Nat},
    Placed mem bytes top argv ptrs sp → i < j → j < argv.length →
    ptrs.getD j 0 + strlen mem (argv.getD j 0) + 1 ≤ ptrs.getD i 0 := by
  intro argv
  induction argv with
  | nil =>
    intro ptrs top i j _ _ no
    exact absurd no (Nat.not_lt_zero j)
  | cons arg argv ih =>
    rintro ptrs top i j ⟨p, rest, rfl, below, string, later⟩ less bound
    obtain ⟨j, rfl⟩ := Nat.exists_eq_succ_of_ne_zero (Nat.ne_of_gt (Nat.lt_of_le_of_lt (Nat.zero_le i) less))
    cases i with
    | zero => exact (later.strings (Nat.lt_of_succ_lt_succ bound)).2.1
    | succ i => exact ih later (Nat.lt_of_succ_lt_succ less) (Nat.lt_of_succ_lt_succ bound)

theorem readElfHdr_words {elf : ElfHdr} (read : readElfHdr ip = some elf) :
    elf.entry < 2 ^ 64 ∧ elf.phnum < 2 ^ 16 := by
  unfold readElfHdr at read
  dsimp only at read
  split at read
  · cases read
  · rw [← Option.some.inj read]
    refine ⟨?_, ?_⟩
    · show field _ 8 24 < _
      rw [field]
      exact Nat.lt_of_lt_of_le (load_lt _ 8 24) (by decide)
    · show field _ 2 56 < _
      rw [field]
      exact Nat.lt_of_lt_of_le (load_lt _ 2 56) (by decide)

/-- The parts of the new memory, as the claim about the whole. -/
theorem Replacement.execImage {elf : ElfHdr} {r : Int × Proc} {sz' : Nat}
    (disjoint : ∀ i j ph ph', i < j → Segment ip elf i ph → Segment ip elf j ph' →
      ∀ va, ¬ (ph.Occupied va ∧ ph'.Occupied va))
    (each : ∀ ph ∈ segments ip elf.phnum elf.phoff, InMemory ip sz' ph)
    (built : Replacement mem argv ((segments ip elf.phnum elf.phoff).foldl (overlay ip) fun _ => 0)
      (pages sz' * PGSIZE) root elf.entry p r u) :
    ∃ guard sp ptrs, ExecImage ip elf mem argv r u guard sp ptrs := by
  obtain ⟨argc, rfl, size, frame, sp, word, low, hidden, aligned, above, ptrs, sp', placed, under, array⟩ := built
  have lower := placed.le
  have filled : ∀ {ph va}, ph ∈ segments ip elf.phnum elf.phoff → ph.Filled va → ph.Occupied va := by
    intro ph va member inside
    have part := (each ph member).part
    exact ⟨inside.1, by have := inside.2; omega⟩
  have apart : ∀ va, (segments ip elf.phnum elf.phoff).Pairwise fun a b => ¬ (a.Occupied va ∧ b.Occupied va) := by
    refine fun va => List.pairwise_filterMap.mpr (List.pairwise_lt_range.imp_of_mem
      fun {i j} mem mem' less ph is ph' is' => ?_)
    exact disjoint i j ph ph' less ⟨List.mem_range.mp mem, segmentAt_eq_some.mp is⟩ ⟨List.mem_range.mp mem',
      segmentAt_eq_some.mp is'⟩ va
  refine ⟨pages sz' * PGSIZE, sp, ptrs, argc, size, ?_, ?_, hidden, aligned, ⟨above, by omega⟩,
    by rw [frame]; exact word, placed.length,
    ?_, fun i less => (placed.strings less).2.2, ?_, fun i j => placed.apart⟩
  · rintro i ph ⟨less, is, load⟩ k below
    have member := mem_segments.mpr ⟨i, less, is, load⟩
    obtain ⟨part, inside, inFile⟩ := each ph member
    have bound : ph.vaddr + k < pages sz' * PGSIZE := Nat.lt_of_lt_of_le (by omega : ph.vaddr + k < sz') (by
      simp only [pages, PGSIZE]
      omega)
    have covered : ph.Filled (ph.vaddr + k) := ⟨Nat.le_add_right _ _, by omega⟩
    have inFile' : ph.off + k < ip.length := by
      have := inFile (by omega)
      omega
    refine ⟨bound, ?_⟩
    rw [low _ bound, overlay_inside ((apart _).imp_of_mem fun one two no both =>
      no ⟨filled one both.1, filled two both.2⟩) member covered,
      Nat.add_sub_cancel_left, List.getElem?_eq_getElem inFile', List.getD_eq_getElem?_getD,
      List.getElem?_eq_getElem inFile',
      Option.getD_some]
  · intro va below outside
    rw [low va below, overlay_outside]
    intro ph member inside
    obtain ⟨i, segment⟩ := mem_segments.mp member
    exact outside i ph segment inside
  · intro i le k small
    have word := array (8 * i + k) (by omega)
    rwa [← Nat.add_assoc, show (8 * i + k) / 8 = i by omega, show (8 * i + k) % 8 = k by omega] at word
  · intro i less
    obtain ⟨high, below, _⟩ := placed.strings less
    exact ⟨by omega, by omega⟩

/-- **exec builds the right image**: for every file with disjoint segments, every process and the
arguments `sys_exec` has fetched. -/
theorem exec_image {holes : Prop} {p : Proc} {uargv : Nat} {argv : List Nat} {namei : List UInt8 → Option (List UInt8)}
    {path : List UInt8} {elf : ElfHdr} (ok : ProcOk holes s.mem p) (frame : p.trapframe ≠ 0) (table : p.pagetable ≠ 0)
    (fits : img.Fits s (owns s.mem p))
    (fetched : fetchFrom p uargv MAXARG 0 s = .ok ((argv, true), t)) (found : namei path = some ip)
    (header : readElfHdr ip = some elf)
    (phoff : elf.phoff < 2 ^ 31) (offsets : ∀ i ph, Segment ip elf i ph → ph.off < 2 ^ 31)
    (disjoint : ∀ i j ph ph', i < j → Segment ip elf i ph → Segment ip elf j ph' →
      ∀ va, ¬ (ph.Occupied va ∧ ph'.Occupied va)) :
    wp (exec img namei path argv p) t (fun r u => 0 ≤ r.1 →
      ∃ guard sp ptrs, ExecImage ip elf t.mem argv r u guard sp ptrs)
      (fun e => holes ∧ HolePanic e) := by
  obtain ⟨args, ok'⟩ := fetchFrom_arguments ok fits fetched
  have fits' : img.Fits t (owns t.mem p) := args.fits.mono fun q => Nat.le_add_right _ _
  have words := readElfHdr_words header
  -- which panics there can be is known; the contents follow from the parts
  suffices contents : wp (exec img namei path argv p) t (fun r u => 0 ≤ r.1 →
    ∃ guard sp ptrs, ExecImage ip elf t.mem argv r u guard sp ptrs)
      (fun _ => True) from
    wp_mono (wp_and contents (exec_spec ok' fits' table (fun allowed e hole => (⟨allowed, hole⟩ : holes ∧
      HolePanic e)) frame args.few))
      (fun r u both => both.1) fun e both => both.2
  have failed : ∀ {v : Pool UInt8}, wp (pure (-1, p) : Kern (Int × Proc)) v
      (fun r u => 0 ≤ r.1 → ∃ guard sp ptrs, ExecImage ip elf t.mem argv r u guard sp ptrs) (fun _ => True) :=
    wp_pure fun no => absurd no (show ¬ (0 : Int) ≤ -1 by decide)
  unfold exec
  rw [found]
  dsimp only
  rw [header]
  dsimp only
  split
  · exact failed
  have page : img.IsPage p.trapframe := tree_pages fits' _ (by rw [owns_some frame table, one_self]; omega)
  refine wp_bind (wp_imp (procPagetable_spec fits' (Nat.lt_trans page.2.2 (by decide))) fun r v outcome => ?_)
  rcases outcome with ⟨rfl, _⟩ | ⟨root, rfl, _, _, maps, start⟩
  · exact failed
  have empty := Holds.empty ⟨kernelPages_top, maps, (fits'.mono fun q => Nat.zero_le _).keeps start⟩
  have exact32 : u32 (elf.phoff : Int) = elf.phoff := by
    unfold u32
    omega
  dsimp only
  rw [exact32]
  refine wp_bind (wp_imp (loadFrom_spec empty) ?_)
  rintro ⟨sz, fine⟩ w ⟨-, step, loaded⟩
  cases fine with
  | false => exact execBad_fails
  | true =>
    have loaded := loaded rfl (by omega) fun ph member => by
      obtain ⟨i, segment⟩ := mem_segments.mp member
      exact offsets i ph segment
    refine wp_imp (execStack_builds ok' args table frame words.1 loaded.holds (start.trans step))
      fun r u built fine => ?_
    exact (built fine).execImage disjoint loaded.each

/-- An ELF file with one segment: four bytes of the file and twelve zeros, at address 0. -/
def oneSegment : List UInt8 :=
  [127, 69, 76, 70] ++ List.replicate 28 0 ++ [64, 0, 0, 0, 0, 0, 0, 0] ++ List.replicate 16 0 ++
    [1, 0] ++ List.replicate 6 0 ++
  [1, 0, 0, 0, 0, 0, 0, 0, 120, 0, 0, 0, 0, 0, 0, 0] ++ List.replicate 16 0 ++
    [4, 0, 0, 0, 0, 0, 0, 0, 16, 0, 0, 0, 0, 0, 0, 0] ++
  List.replicate 8 0 ++ [1, 2, 3, 4]

/-- The first process executes the file with the argument vector that is in its memory, which has
one string. -/
theorem exec_image_sample : ∃ (m : Machine) (argv : List Nat) (t : Pool UInt8) (elf : ElfHdr),
    Runs (step twentyPages) Roomy (boot twentyPages fun _ => 0) m ∧
    fetchFrom (m.proc 0) 43 MAXARG 0 m.km = .ok ((argv, true), t) ∧
    argv.length = 1 ∧ (∃ ph, Segment oneSegment elf 0 ph ∧ ph.filesz = 4 ∧ ph.memsz = 16) ∧
    Returns (exec twentyPages (fun _ => some oneSegment) [47, 97, 0] argv (m.proc 0)) t fun r u => 0 ≤ r.1 →
      ∃ guard sp ptrs, ExecImage oneSegment elf t.mem argv r u guard sp ptrs := by
  obtain ⟨m, run, inv, running, result⟩ := roomy_reaches [.userinit, .run 0] (fun m => (m.proc 0).state = .running ∧
    ((fetchFrom (m.proc 0) 43 MAXARG 0 m.km).toOption.map fun x => (x.1.1.length, x.1.2)) = some (1, true))
    (by decide +kernel)
  have live := inv.live (live_of_running running)
  have fields : (readElfHdr oneSegment).map (fun elf => (elf.phoff, elf.phnum)) = some (64, 1) := by decide +kernel
  obtain ⟨elf, header, words⟩ := Option.map_eq_some_iff.mp fields
  obtain ⟨phoff, phnum⟩ := Prod.mk.inj words
  have fields' : (readProgHdr oneSegment 64).map (fun ph => (ph.type, ph.off, ph.filesz, ph.memsz)) =
    some (1, 120, 4, 16) := by decide +kernel
  obtain ⟨ph, read, words'⟩ := Option.map_eq_some_iff.mp fields'
  simp only [Prod.mk.injEq] at words'
  obtain ⟨type, off, filesz, memsz⟩ := words'
  have only : ∀ i ph', Segment oneSegment elf i ph' → i = 0 ∧ ph' = ph := by
    rintro i ph' ⟨less, is, _⟩
    obtain rfl : i = 0 := by omega
    rw [phoff] at is
    exact ⟨rfl, Option.some.inj (is.symm.trans read)⟩
  cases ran : fetchFrom (m.proc 0) 43 MAXARG 0 m.km with
  | error e =>
    rw [ran] at result
    cases result
  | ok x =>
    obtain ⟨⟨argv, fine⟩, t⟩ := x
    rw [ran] at result
    simp only [Except.toOption, Option.map_some, Option.some.injEq, Prod.mk.injEq] at result
    obtain ⟨one', rfl⟩ := result
    refine ⟨m, argv, t, elf, run, ran, one', ⟨ph, ⟨by omega, by rw [phoff]; exact read, type⟩, filesz, memsz⟩, ?_⟩
    refine wp_mono (exec_image (inv.procs 0) live.1 live.2 (inv.owned 0) ran rfl header (by omega)
      (fun i ph' here => ?_)
      fun i j a b less here there => ?_) (fun r u image => image) fun e no => no.1
    · rw [(only i ph' here).2, off]
      decide
    · have first := (only i a here).1
      have second := (only j b there).1
      omega

end Xv6.Kernel.Vm
