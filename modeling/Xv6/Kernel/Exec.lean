/-
# Kernel.Exec -- replacing the memory of a process

`exec.c` and `sys_exec`.  A new address space is built beside the old one, from the
segments of a file (`Kernel.ExecLoad`) and the argument strings; the old one is freed at
the very end.
Every failure on the way frees what was built.

The file system enters as a function from paths to the contents of the file
`namei` finds, if any.
-/
import Xv6.Kernel.ExecLoad

namespace Xv6.Kernel.Vm

set_option autoImplicit false

open Xv6.Theory Xv6.Theory.Bytes Xv6.Theory.Prog

/-! ## The code -/

abbrev MAXARG : Nat := 32
abbrev MAXPATH : Nat := 128
abbrev ELF_MAGIC : Nat := 0x464C457F

/-- `struct elfhdr` -/
structure ElfHdr where
  magic : Nat
  entry : Nat
  phoff : Nat
  phnum : Nat

def readElfHdr (ip : List UInt8) : Option ElfHdr :=
  let elf := readi ip 0 64
  if elf.length ≠ 64 then none
  else some { magic := field elf 4 0, entry := field elf 8 24, phoff := field elf 8 32, phnum := field elf 2 56 }

/-- `strlen`, which ends at the latest with physical memory. -/
def strlen (mem : Mem) (s : Nat) : Nat := (scan mem (PHYSTOP - s) s).1.length - 1

/-- `uint64` subtraction. -/
@[irreducible] def sub64 (a b : Nat) : Nat := u64 (a + 2 ^ 64 - b)

/-- `sp -= n; sp -= sp % 16` -/
def push (sp n : Nat) : Nat :=
  let sp := sub64 sp n
  sub64 sp (sp % 16)

/-- `ustack[argc] = v`, after the entries stored before. -/
def storeUstack (ustack : List Nat) (v : Nat) : Kern (List Nat) :=
  if MAXARG ≤ ustack.length then throw .outOfBounds else pure (ustack ++ [v])

/-- The loop of `exec` over the arguments: the stack pointer and `ustack`. -/
def pushFrom (pagetable stackbase : Nat) : List Nat → Nat → List Nat → Kern (Option (Nat × List Nat))
  | [], sp, ustack => pure (some (sp, ustack))
  | arg :: argv, sp, ustack =>
    if MAXARG ≤ ustack.length then pure none
    else do
      let mem := (← get).mem
      let sp := push sp (strlen mem arg + 1)
      if sp < stackbase then pure none
      else do
        let r ← copyout pagetable sp (fun j => mem (arg + j)) (strlen mem arg + 1)
        if r < 0 then pure none
        else do
          let ustack ← storeUstack ustack sp
          pushFrom pagetable stackbase argv sp ustack

/-- The label `bad` of `exec`, with a page table. -/
def execBad (img : Image) (pagetable sz : Nat) (p : Proc) : Kern (Int × Proc) := do
  procFreepagetable img pagetable sz
  pure (-1, p)

/-- The name of the file in a path: what follows the last `/`. -/
def lastName (path : List UInt8) : List UInt8 := ((path.takeWhile (· ≠ 0)).reverse.takeWhile (· ≠ 47)).reverse

/-- The end of `exec`: no way back. -/
def execCommit (img : Image) (pagetable sz sp entry argc : Nat) (path : List UInt8) (p : Proc) : Kern (Int × Proc) := do
  poke 8 (p.trapframe + TF_A1) sp
  poke 8 (p.trapframe + TF_EPC) entry
  poke 8 (p.trapframe + TF_SP) sp
  procFreepagetable img p.pagetable p.sz
  pure (argc, { p with name := safestrcpy p.name (lastName path) 16, pagetable := pagetable, sz := sz })

/-- `exec` from the stack pages on, with `sz` bytes loaded. -/
def execStack (img : Image) (pagetable sz entry : Nat) (path : List UInt8) (argv : List Nat)
    (p : Proc) : Kern (Int × Proc) := do
  let sz := PGROUNDUP sz
  let sz1 ← uvmalloc img pagetable sz (u64 (sz + 2 * PGSIZE))
  if sz1 = 0 then execBad img pagetable sz p
  else do
    let sz := sz1
    uvmclear pagetable (sub64 sz (2 * PGSIZE))
    let stackbase := sub64 sz PGSIZE
    match ← pushFrom pagetable stackbase argv sz [] with
    | none => execBad img pagetable sz p
    | some (sp, ustack) => do
        let argc := ustack.length
        let ustack ← storeUstack ustack 0
        let sp := push sp ((argc + 1) * 8)
        if sp < stackbase then execBad img pagetable sz p
        else do
          let r ← copyout pagetable sp (fun j => leByte (ustack.getD (j / 8) 0) (j % 8)) ((argc + 1) * 8)
          if r < 0 then execBad img pagetable sz p
          else execCommit img pagetable sz sp entry argc path p

/-- `exec`, on the arguments at the addresses `argv`. -/
def exec (img : Image) (namei : List UInt8 → Option (List UInt8)) (path : List UInt8) (argv : List Nat) (p : Proc) :
    Kern (Int × Proc) :=
  match namei path with
  | none => pure (-1, p)
  | some ip =>
    match readElfHdr ip with
    | none => pure (-1, p)
    | some elf =>
      if elf.magic ≠ ELF_MAGIC then pure (-1, p)
      else do
        match ← procPagetable img p.trapframe with
        | none => pure (-1, p)
        | some pagetable => do
            let (sz, loaded) ← loadFrom img ip pagetable elf.phnum (u32 elf.phoff) 0
            if loaded then execStack img pagetable sz elf.entry path argv p
            else execBad img pagetable sz p

/-- `fetchaddr`: the status and the word. -/
def fetchaddr (p : Proc) (addr : Nat) : Kern (Int × Nat) :=
  if p.sz ≤ addr ∨ p.sz < u64 (addr + 8) then pure (-1, 0)
  else do
    let (status, bytes) ← copyin p.pagetable addr 8
    pure (status, field bytes 8 0)

/-- The loop of `sys_exec` from argument `i` on: the pages of the arguments, and whether all went
well. -/
def fetchFrom (p : Proc) (uargv : Nat) : Nat → Nat → Kern (List Nat × Bool)
  | 0, _ => pure ([], false)
  | turns + 1, i => do
      let (status, uarg) ← fetchaddr p (u64 (uargv + 8 * i))
      if status < 0 then pure ([], false)
      else if uarg = 0 then pure ([], true)
      else do
        match ← kalloc with
        | none => pure ([], false)
        | some arg => do
            let (status, bytes) ← copyinstr p.pagetable uarg PGSIZE
            modify fun s => { s with mem := blit s.mem arg bytes.length fun j => bytes.getD j 0 }
            if status < 0 then pure ([arg], false)
            else do
              let (argv, ok) ← fetchFrom p uargv turns (i + 1)
              pure (arg :: argv, ok)

def freeArgs (img : Image) : List Nat → Kern Unit
  | [] => pure ()
  | arg :: argv => do
      kfree img arg
      freeArgs img argv

/-- `sys_exec` with its two arguments. -/
def sysExec (img : Image) (namei : List UInt8 → Option (List UInt8)) (upath uargv : Nat)
    (p : Proc) : Kern (Int × Proc) := do
  let (status, path) ← copyinstr p.pagetable upath MAXPATH
  if status < 0 then pure (-1, p)
  else do
    let (argv, ok) ← fetchFrom p uargv MAXARG 0
    if ok then do
      let (ret, p) ← exec img namei path argv p
      freeArgs img argv
      pure (ret, p)
    else do
      freeArgs img argv
      pure (-1, p)

variable {img : Image} {s t : Pool UInt8} {mem : Mem} {E : Panic → Prop} {holes : Prop} {p : Proc}
    {root : Nat} {ip : List UInt8}
variable {sz turns : Nat} {argv : List Nat}

/-! ## The stack -/

/-- The two pages above the program: the lower one is hidden. -/
theorem wp_stackPages {α : Type} {bad : Kern α} {rest : Nat → Kern α} {c : Nat → UInt8} {Q : α → Pool UInt8 → Prop}
    (holds : Holds img root sz c t) (failed : ∀ u, AddressSpace img root 0 (pages (PGROUNDUP sz)) kernelPages u →
      img.Keeps t (space t.mem root (pages sz)) u (space u.mem root (pages (PGROUNDUP sz))) → wp bad u Q E)
    (done : ∀ u, AddressSpace img root 0 (pages sz + 2) kernelPages u →
      img.Keeps t (space t.mem root (pages sz)) u (space u.mem root (pages sz + 2)) →
      (∀ va < (pages sz + 2) * PGSIZE, userByte u.mem root va = if va / PGSIZE = pages sz then none else some (c va)) →
      wp (rest ((pages sz + 2) * PGSIZE)) u Q E) :
    wp (do
      let sz1 ← uvmalloc img root (PGROUNDUP sz) (u64 (PGROUNDUP sz + 2 * PGSIZE))
      if sz1 = 0 then bad
      else do
        uvmclear root (sub64 sz1 (2 * PGSIZE))
        rest sz1) t Q E := by
  have room := holds.room
  have rounded : PGROUNDUP sz = pages sz * PGSIZE := by
    refine roundup_pages ?_
    simp only [pages, PGSIZE] at room
    omega
  have samePages : pages (pages sz * PGSIZE) = pages sz := pages_mul _
  have holds' : Holds img root (pages sz * PGSIZE) c t := by
    refine ⟨?_, ?_, ?_⟩ <;> rw [samePages]
    · exact holds.space
    · exact holds.bytes
    · exact holds.rest
  have size : u64 (pages sz * PGSIZE + 2 * PGSIZE) = (pages sz + 2) * PGSIZE := by
    rw [u64, ← Nat.add_mul]
    simp only [PGSIZE]
    omega
  rw [rounded] at failed ⊢
  rw [size]
  refine wp_bind (wp_imp holds'.uvmalloc ?_)
  rintro sz1 u ⟨holds₁, step, is⟩
  rw [Step, samePages] at step
  by_cases zero : sz1 = 0
  · rw [if_pos zero] at holds₁ step ⊢
    exact failed u holds₁.space step
  rw [if_neg zero] at holds₁ step ⊢
  obtain rfl : sz1 = (pages sz + 2) * PGSIZE := by
    rw [is zero]
    exact Nat.max_eq_right (Nat.mul_le_mul_right _ (Nat.le_add_right _ 2))
  have guard : sub64 ((pages sz + 2) * PGSIZE) (2 * PGSIZE) = pages sz * PGSIZE := by
    rw [sub64, u64]
    simp only [PGSIZE]
    omega
  have two : pages ((pages sz + 2) * PGSIZE) = pages sz + 2 := pages_mul _
  have here := holds₁.space
  rw [two] at here step
  rw [guard]
  refine wp_bind (wp_imp (uvmclear_hides here (Nat.lt_add_of_pos_right (by decide))) fun _ v post => ?_)
  obtain ⟨here₂, keeps, seen⟩ := post
  refine done v here₂ (step.trans keeps) fun va less => ?_
  rw [seen va less, holds₁.bytes va (by rw [two]; exact less)]

/-- The argument strings go into the new stack page, and as many pointers into `ustack`. -/
theorem pushFrom_spec {stackbase sp hi : Nat} {ustack : List Nat} {s : Pool UInt8}
    (here : AddressSpace img root 0 hi kernelPages s) :
    wp (pushFrom root stackbase argv sp ustack) s (fun r s' => AddressSpace img root 0 hi kernelPages s' ∧
      img.Keeps s (space s.mem root hi) s' (space s'.mem root hi) ∧
      ∀ sp' ustack', r = some (sp', ustack') → ustack'.length = ustack.length + argv.length) E := by
  induction argv generalizing sp ustack s with
  | nil =>
    refine wp_pure ⟨here, .refl _ _, ?_⟩
    intro sp' ustack' same
    cases same
    rfl
  | cons arg argv ih =>
    rw [pushFrom]
    have none' : ∀ {t : Pool UInt8}, AddressSpace img root 0 hi kernelPages t →
      img.Keeps s (space s.mem root hi) t (space t.mem root hi) →
        wp (pure none) t (fun r s' => AddressSpace img root 0 hi kernelPages s' ∧
          img.Keeps s (space s.mem root hi) s' (space s'.mem root hi) ∧
          ∀ (sp' : Nat) (ustack' : List Nat), r = some (sp', ustack') →
          ustack'.length = ustack.length + (arg :: argv).length) E :=
      fun here keeps => wp_pure ⟨here, keeps, by simp⟩
    split
    · exact none' here (.refl _ _)
    case isFalse room =>
      refine wp_bind (wp_get ?_)
      dsimp only
      split
      · exact none' here (.refl _ _)
      · refine wp_bind (wp_imp (copyout_spec here) ?_)
        rintro r t ⟨here', keeps⟩
        split
        · exact none' here' keeps
        · rw [storeUstack, if_neg room]
          refine wp_bind (wp_pure (wp_imp (ih here') ?_))
          rintro r u ⟨done, rest, length⟩
          refine ⟨done, keeps.trans rest, fun sp' ustack' same => ?_⟩
          rw [length sp' ustack' same, List.length_append, List.length_singleton, List.length_cons]
          omega

/-! ## Success and failure -/

/-- What `exec` does to the process and its pages. -/
def Replaced (img : Image) (holes : Prop) (s : Pool UInt8) (own : Nat → Nat) (p : Proc) (r : Int × Proc)
    (s' : Pool UInt8) : Prop :=
  ∃ name pagetable sz, r.2 = { p with name := name, pagetable := pagetable, sz := sz } ∧ pagetable ≠ 0 ∧
    ProcOk holes s'.mem r.2 ∧
    img.Keeps s own s' (owns s'.mem r.2)

/-- A failure changes nothing: the process is as before, the pages that are free are those
that were, and no byte of any other page has changed. -/
def Undone (img : Image) (s : Pool UInt8) (p : Proc) (r : Int × Proc) (s' : Pool UInt8) : Prop :=
  r.1 < 0 → r = (-1, p) ∧ img.Keeps s (fun _ => 0) s' (fun _ => 0)

section Exec

variable {sz : Nat} (ok : ProcOk holes s.mem p) (fits : img.Fits s (owns s.mem p))

include ok fits

/-- A program that allocates pages leaves the process alone. -/
theorem aside {u : Pool UInt8} {f : Nat → Nat} (start : img.Keeps s (fun _ => 0) u f) :
    ProcOk holes u.mem p ∧ img.Fits u (fun q => f q + owns u.mem p q) ∧
      img.Keeps s (owns s.mem p) u (fun q => f q + owns u.mem p q) := by
  obtain ⟨same, kept⟩ := spaceOf_frame (p := p) (fits.mono fun q => by unfold owns; omega) start
  have whole : img.Keeps s (owns s.mem p) u (fun q => f q + owns u.mem p q) :=
    start.within (owns s.mem p) (fun q => (Nat.zero_add _).symm) fun q => by rw [owns, owns, same]
  exact ⟨kept ok, fits.keeps whole, whole⟩

variable (table : p.pagetable ≠ 0)

include table

/-- Returning -1 with nothing allocated. -/
theorem unchanged {u : Pool UInt8} (start : img.Keeps s (fun _ => 0) u (fun _ => 0)) :
    Replaced img holes s (owns s.mem p) p (-1, p) u ∧ Undone img s p (-1, p) u := by
  obtain ⟨ok', -, before⟩ := aside ok fits start
  exact ⟨⟨p.name, p.pagetable, p.sz, rfl, table, ok', before.congr (fun _ => rfl) fun q => (Nat.zero_add _).symm⟩,
    fun _ => ⟨rfl, start⟩⟩

/-- Giving up: the new address space is freed and the process is as before. -/
theorem execBad_spec (here : AddressSpace img root 0 (pages sz) kernelPages t)
    (start : img.Keeps s (fun _ => 0) t (space t.mem root (pages sz))) :
    wp (execBad img root sz p) t (fun r s' => Replaced img holes s (owns s.mem p) p r s' ∧ Undone img s p r s') E := by
  refine wp_bind (wp_imp
    (procFreepagetable_spec here.below_top here.maps here.fits fun no => absurd no (Nat.lt_irrefl 0)) ?_)
  exact fun _ u freed => wp_pure (unchanged ok fits table (start.trans freed))

variable (lenient : holes → ∀ e, HolePanic e → E e) (frame : p.trapframe ≠ 0)

include lenient frame

variable {path : List UInt8}

/-- The commit: the process has the new address space, and the old one is freed. -/
theorem execCommit_spec {sp entry argc : Nat} (new : root ≠ 0) (here : AddressSpace img root 0 (pages sz) kernelPages t)
    (start : img.Keeps s (fun _ => 0) t (space t.mem root (pages sz))) :
    wp (execCommit img root sz sp entry argc path p) t
      (fun r s' => Replaced img holes s (owns s.mem p) p r s' ∧ Undone img s p r s') E := by
  obtain ⟨ok, fits, before⟩ := aside ok fits start
  -- the process after the call
  obtain ⟨p', same⟩ : ∃ p', p' =
    { p with name := safestrcpy p.name (lastName path) 16, pagetable := root, sz := sz } := ⟨_, rfl⟩
  have frame' : p'.trapframe = p.trapframe := by rw [same]
  have ok' : ProcOk holes t.mem p' := by
    rw [same]
    exact ⟨fun _ => ⟨0, .inl rfl, here.below_top, here.maps⟩, fun no => absurd no new, fun unused =>
      absurd (ok.unused unused).2 table,
      fun some live => ⟨frame, new⟩⟩
  have swap : ∀ q, space t.mem root (pages sz) q + owns t.mem p q = owns t.mem p' q + spaceOf t.mem p q := fun q => by
    rw [same]
    simp only [owns, frameOf, spaceOf, if_neg new]
    omega
  have fits₀ := fits.mono fun q => Nat.le_of_eq (swap q).symm
  have own' : img.Fits t (owns t.mem p') := fits₀.mono fun q => Nat.le_add_right _ _
  have framed : p'.trapframe ≠ 0 := by rw [frame']; exact frame
  unfold execCommit
  rw [← frame']
  refine wp_bind (wp_imp (poke_spec ok' own' framed (by decide)) fun _ u₁ post => ?_)
  obtain ⟨_, ok₁, keeps₁⟩ := post
  refine wp_bind (wp_imp (poke_spec ok₁ (own'.keeps keeps₁) framed (by decide)) fun _ u₂ post => ?_)
  obtain ⟨_, ok₂, keeps₂⟩ := post
  refine wp_bind (wp_imp (poke_spec ok₂ ((own'.keeps keeps₁).keeps keeps₂) framed (by decide)) fun _ u post => ?_)
  obtain ⟨_, ok₃, keeps₃⟩ := post
  have keeps := (keeps₁.trans keeps₂).trans keeps₃
  obtain ⟨sameOld, keptOld⟩ := @spaceOf_frame _ _ _ holes _ _ _ fits₀ keeps
  have fits₁ : img.Fits u (fun q => spaceOf u.mem p q + owns u.mem p' q) :=
    (fits₀.keeps (keeps.frame _)).mono fun q => by
    rw [sameOld, Nat.add_comm]
  refine wp_bind (wp_imp (freeSpace_spec lenient (keptOld ok) table (fits₁.mono fun q => Nat.le_add_right _ _))
    fun _ v freed => wp_pure ⟨⟨_, root, sz, by rw [frame'], new, ?_⟩,
      fun no => absurd no (Int.not_lt.mpr (Int.natCast_nonneg argc))⟩)
  obtain ⟨sameNew, keptNew⟩ := @spaceOf_frame _ _ _ holes p' _ _ (fits₁.mono fun q => by unfold owns; omega) freed
  rw [frame', ← same]
  refine ⟨keptNew ok₃, before.trans
    ((keeps.within _ swap fun q => ?_).trans (freed.within (owns u.mem p') (fun _ => rfl) fun q => ?_))⟩
  · rw [sameOld, Nat.add_comm]
  · rw [owns, owns, sameNew, Nat.zero_add]

/-- The stack pages, the arguments and the end of `exec`. -/
theorem execStack_spec {c : Nat → UInt8} {entry : Nat} (new : root ≠ 0) (few : argv.length < MAXARG)
    (holds : Holds img root sz c t) (start : img.Keeps s (fun _ => 0) t (space t.mem root (pages sz))) :
    wp (execStack img root sz entry path argv p) t
      (fun r s' => Replaced img holes s (owns s.mem p) p r s' ∧ Undone img s p r s') E := by
  refine wp_stackPages holds (fun u here keeps => execBad_spec ok fits table here (start.trans keeps))
    fun u here keeps _ => ?_
  have start₁ := start.trans keeps
  rw [← pages_mul (pages sz + 2)] at here start₁
  generalize (pages sz + 2) * PGSIZE = sz1 at here start₁ ⊢
  refine wp_bind (wp_imp (pushFrom_spec here) ?_)
  rintro r v ⟨here₂, pushed, length⟩
  have start₂ := start₁.trans pushed
  rcases r with _ | ⟨sp, ustack⟩
  · exact execBad_spec ok fits table here₂ start₂
  · have room : ustack.length < MAXARG := by
      rw [length sp ustack rfl, List.length_nil, Nat.zero_add]
      exact few
    dsimp only
    rw [storeUstack, if_neg (Nat.not_le.mpr room)]
    refine wp_bind (wp_pure ?_)
    split
    · exact execBad_spec ok fits table here₂ start₂
    · refine wp_bind (wp_imp (copyout_spec here₂) ?_)
      rintro r w ⟨here₃, copied⟩
      have start₃ := start₂.trans copied
      split
      · exact execBad_spec ok fits table here₃ start₃
      · exact execCommit_spec ok fits table lenient frame new here₃ start₃

/-- `exec` with any file and any outcome. -/
theorem exec_spec {namei : List UInt8 → Option (List UInt8)} (few : argv.length < MAXARG) :
    wp (exec img namei path argv p) s
      (fun r s' => Replaced img holes s (owns s.mem p) p r s' ∧ Undone img s p r s') E := by
  have same := unchanged ok fits table (.refl s _)
  unfold exec
  cases namei path with
  | none => exact wp_pure same
  | some ip =>
    dsimp only
    cases readElfHdr ip with
    | none => exact wp_pure same
    | some elf =>
      dsimp only
      split
      · exact wp_pure same
      · have page : img.IsPage p.trapframe := tree_pages fits _ (by rw [owns_some frame table, one_self]; omega)
        refine wp_bind (wp_imp (procPagetable_spec fits (Nat.lt_trans page.2.2 (by decide))) fun r t outcome => ?_)
        rcases outcome with ⟨rfl, _, keeps⟩ | ⟨root, rfl, new, _, maps, keeps⟩
        · exact wp_pure (unchanged ok fits table keeps)
        · have own := (aside ok fits keeps).2.1.mono fun q => Nat.le_add_right _ _
          refine wp_bind (wp_imp (loadFrom_spec (.empty ⟨kernelPages_top, maps, own⟩)) ?_)
          rintro ⟨sz, _ | _⟩ u ⟨⟨c, holds⟩, loaded, _⟩
          · exact execBad_spec ok fits table holds.space (keeps.trans loaded)
          · exact execStack_spec ok fits table lenient frame new few holds (keeps.trans loaded)

end Exec

/-! ## The system call -/

theorem count_cons_one (a : Nat) (l : List Nat) (q : Nat) : (a :: l).count q = l.count q + one a q := by
  rw [List.count_cons, one]
  by_cases same : a = q
  · simp [same]
  · simp [same, Ne.symm same]

/-- A string of `len` bytes and its NUL, in one page. -/
structure StringAt (mem : Mem) (arg len : Nat) : Prop where
  inside : len < PGSIZE
  nul : mem (arg + len) = 0
  bytes : ∀ j < len, mem (arg + j) ≠ 0

theorem stringAt_of_nul {arg k : Nat} (inside : k < PGSIZE) (nul : mem (arg + k) = 0) :
    ∃ len, StringAt mem arg len := by
  have ends : ∃ k, mem (arg + k) = 0 := ⟨k, nul⟩
  exact ⟨Nat.find ends, Nat.lt_of_le_of_lt (Nat.find_le nul) inside, Nat.find_spec ends,
    fun j less => Nat.find_min ends less⟩

theorem StringAt.congr {mem' : Mem} {arg len : Nat} (is : StringAt mem arg len)
    (same : ∀ k < PGSIZE, mem' (arg + k) = mem (arg + k)) :
    StringAt mem' arg len :=
  ⟨is.inside, by rw [same _ is.inside, is.nul], fun j below =>
    by rw [same j (Nat.lt_trans below is.inside)]; exact is.bytes j below⟩

/-- A string that `copyinstr` has copied has at most `max` bytes, with its NUL. -/
theorem copyinstr_string {srcva max : Nat} : wp (copyinstr root srcva max) t (fun r u => u = t ∧ r.2.length ≤ max ∧
    (0 ≤ r.1 → ∃ k < r.2.length, r.2.getD k 0 = 0)) E := by
  refine wp_imp wp_copyinstr fun r u ⟨same, is⟩ => ⟨same, is ▸ fetched_length max srcva, fun fine => ?_⟩
  rcases @fetched_status (userByte t.mem root) max srcva with ⟨_, k, below, ends⟩ | ⟨failed, _⟩
  · rw [is, fetched_ends below ends]
    refine ⟨k, by simp, ?_⟩
    simp [List.getD, ends.nul]
  · rw [is, failed] at fine
    exact absurd fine (by decide)

/-- The argument pages are what `sys_exec` has allocated, and each holds a string; the argument
after the last is 0. -/
theorem fetchFrom_spec {uargv i : Nat} {s : Pool UInt8} {f : Nat → Nat} (fits : img.Fits s f) :
    wp (fetchFrom p uargv turns i) s (fun r s' => img.Keeps s (fun _ => 0) s' (fun q => r.1.count q) ∧
      (r.2 = true → r.1.length < turns ∧ ∀ arg ∈ r.1, ∃ len, StringAt s'.mem arg len)) E := by
  induction turns generalizing i s f with
  | zero => exact wp_pure ⟨.refl _ _, fun no => by cases no⟩
  | succ turns ih =>
    rw [fetchFrom]
    refine wp_bind (?_ : wp (fetchaddr p (u64 (uargv + 8 * i))) s _ E)
    unfold fetchaddr
    by_cases out : p.sz ≤ u64 (uargv + 8 * i) ∨ p.sz < u64 (u64 (uargv + 8 * i) + 8)
    · rw [if_pos out]
      exact wp_pure (wp_pure ⟨.refl _ _, fun no => by cases no⟩)
    rw [if_neg out]
    refine wp_bind (wp_imp copyin_same fun r t same => wp_pure ?_)
    subst same
    dsimp only
    split
    · exact wp_pure ⟨.refl _ _, fun no => by cases no⟩
    split
    · exact wp_pure ⟨.refl _ _, fun _ => ⟨Nat.succ_pos turns, fun _ no => absurd no List.not_mem_nil⟩⟩
    refine wp_bind (wp_imp (kalloc_spec fits) fun r u outcome => ?_)
    rcases outcome with ⟨rfl, _, rfl⟩ | ⟨arg, rfl, _, page, keeps⟩
    · exact wp_pure ⟨.refl _ _, fun no => by cases no⟩
    refine wp_bind (wp_imp copyinstr_string fun r v ⟨same, short, nul⟩ => wp_bind (wp_modify ?_))
    subst same
    have fits₁ : img.Fits v (one arg) := (fits.mono fun q => Nat.zero_le _).keeps keeps
    have fill := keeps_fill (fun j => r.2.getD j 0) page short fits₁
    have fits₂ := fits₁.keeps fill
    have written := keeps.trans fill
    have string : ∀ k < r.2.length, r.2.getD k 0 = 0 →
      (blit v.mem arg r.2.length fun j => r.2.getD j 0) (arg + k) = 0 :=
      fun k below zero => by rw [blit_in (Nat.le_add_right arg k) (by omega), Nat.add_sub_cancel_left, zero]
    generalize (blit v.mem arg r.2.length fun j => r.2.getD j 0) = m at written string fits₂ ⊢
    split
    · exact wp_pure ⟨written.congr (fun _ => rfl) fun q => (count_cons_one arg [] q).trans (Nat.zero_add _),
        fun no => by cases no⟩
    next fine =>
      obtain ⟨k, inside, zero⟩ := nul (by omega)
      obtain ⟨len, is⟩ := stringAt_of_nul (by omega) (string k inside zero)
      refine wp_bind (wp_imp (ih fits₂) fun r w ⟨rest, post⟩ => wp_pure
        ⟨written.trans (rest.within (one arg) (fun q => (Nat.zero_add _).symm) (count_cons_one arg r.1)),
          fun good => ?_⟩)
      obtain ⟨few, strings⟩ := post good
      refine ⟨Nat.succ_lt_succ few, fun a member => ?_⟩
      rcases List.mem_cons.mp member with rfl | later
      · -- the page of this argument is not touched by the later turns
        refine ⟨len, is.congr fun k small => rest.untouched (g := one a) (fits₂.mono fun q =>
          Nat.le_of_eq (Nat.zero_add _)) ?_⟩
        show 0 < one a (PGROUNDDOWN (a + k))
        rw [rounddown_add page.1 small, one_self]
        exact Nat.one_pos
      · exact strings a later

theorem freeArgs_spec {s : Pool UInt8} (fits : img.Fits s (fun q => argv.count q)) :
    wp (freeArgs img argv) s (fun _ s' => img.Keeps s (fun q => argv.count q) s' (fun _ => 0)) E := by
  induction argv generalizing s with
  | nil => exact wp_pure (.refl _ _)
  | cons arg argv ih =>
    have both := fits.mono fun q => Nat.le_of_eq (count_cons_one arg argv q).symm
    refine wp_bind (wp_imp (kfree_spec (both.mono fun q => Nat.le_add_left _ _)) fun _ t ⟨_, freed⟩ => ?_)
    have kept := freed.within (fun q => argv.count q) (fun q => (count_cons_one arg argv q).trans (Nat.add_comm _ _))
      fun q => (Nat.zero_add _).symm
    exact wp_imp (ih (fits.keeps kept)) fun _ u rest => kept.trans rest

/-- `sys_exec`: the process has its old memory or a new one, and no other page is used. -/
theorem sysExec_spec {namei : List UInt8 → Option (List UInt8)} {upath uargv : Nat}
    (lenient : holes → ∀ e, HolePanic e → E e) (ok : ProcOk holes s.mem p)
    (frame : p.trapframe ≠ 0) (table : p.pagetable ≠ 0) (fits : img.Fits s (owns s.mem p)) :
    wp (sysExec img namei upath uargv p) s
      (fun r s' => Replaced img holes s (owns s.mem p) p r s' ∧ Undone img s p r s') E := by
  refine wp_bind (wp_imp wp_copyinstr fun path t post => ?_)
  obtain ⟨same, _⟩ := post
  subst same
  dsimp only
  split
  · exact wp_pure (unchanged ok fits table (.refl t _))
  refine wp_bind (wp_imp (fetchFrom_spec fits) fun r u post => ?_)
  obtain ⟨fetched, few⟩ := post
  rcases r with ⟨argv, fine⟩
  obtain ⟨ok₁, fits₁, before⟩ := aside ok fits fetched
  have fits₁' := fits₁.mono (g := owns u.mem p) fun q => Nat.le_add_left _ _
  -- freeing the argument pages leaves the process alone
  have finish : ∀ {r : Int × Proc} {v : Pool UInt8}, Replaced img holes u (owns u.mem p) p r v → Undone img u p r v →
      wp (freeArgs img argv >>= fun _ => pure (r.1, r.2)) v
        (fun r s' => Replaced img holes t (owns t.mem p) p r s' ∧ Undone img t p r s') E := by
    rintro r v ⟨name, pt, sz, same, new, ok', keeps⟩ undone
    have kept : img.Keeps u (fun q => argv.count q + owns u.mem p q) v (fun q => argv.count q + owns v.mem r.2 q) :=
      keeps.within (fun q => argv.count q) (fun q => Nat.add_comm _ _) fun q => Nat.add_comm _ _
    have fits₂ := fits₁.keeps kept
    refine wp_bind (wp_imp (freeArgs_spec (fits₂.mono fun q => Nat.le_add_right _ _)) fun _ w freed => wp_pure ⟨?_, ?_⟩)
    · obtain ⟨sameNew, keptNew⟩ := @spaceOf_frame _ _ _ holes r.2 _ _ (fits₂.mono fun q => by unfold owns; omega) freed
      refine ⟨name, pt, sz, same, new, keptNew ok', (before.trans kept).trans
        (freed.within (owns v.mem r.2) (fun _ => rfl) fun q => ?_)⟩
      rw [owns, owns, sameNew, Nat.zero_add]
    · intro failed
      obtain ⟨same, nothing⟩ := undone failed
      refine ⟨same, (fetched.trans (nothing.within (fun q => argv.count q) (fun q => (Nat.zero_add _).symm) fun q =>
        (Nat.zero_add _).symm)).trans freed⟩
  cases fine with
  | true =>
    exact wp_bind (wp_imp (exec_spec ok₁ fits₁' table lenient frame (few rfl).1) fun r v post => finish post.1 post.2)
  | false =>
    have same := unchanged ok₁ fits₁' table (.refl u _)
    exact finish (r := (-1, p)) same.1 same.2

end Xv6.Kernel.Vm
