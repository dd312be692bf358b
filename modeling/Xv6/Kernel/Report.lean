/-
# Kernel.Report -- what getprocs and fstat copy to user memory

Both calls fill a struct on the kernel stack member by member and copy the whole of it.
The bytes that no member covers keep what the stack held before: four bytes in front of
the size of a `struct stat`, and four at the end of a `struct pstat`.  Two runs that differ
in the stack do the same when those of these bytes agree that are copied, and only then.
-/
import Xv6.Kernel.Pstree
import Xv6.Kernel.Machine
import Xv6.Theory.Layout

namespace Xv6.Kernel.Vm

set_option autoImplicit false

open Xv6.Theory Xv6.Theory.Bytes Xv6.Theory.Prog Xv6.Theory.Layout
open Xv6.Kernel.Sched (Row Pstat pstat)

/-! ## The code -/

/-- The bits of an `int`. -/
def int32 (n : Int) : Nat := (n % 2 ^ 32).toNat

/-- `enum procstate`. -/
def ProcState.code : ProcState → Nat
  | .unused => 0
  | .used => 1
  | .sleeping => 2
  | .runnable => 3
  | .running => 4
  | .zombie => 5

/-- The assignments of `procinfo` to its local `struct pstat`. -/
def pstatMembers (r : Pstat) : List Member := [
  ⟨4, 4, leByte (int32 r.pid)⟩,
  ⟨4, 4, leByte r.state.code⟩,
  ⟨8, 8, leByte r.size⟩,
  ⟨4, 4, leByte (int32 r.ppid)⟩,
  ⟨16, 1, fun j => r.name.getD j 0⟩]

abbrev PSTATSIZE : Nat := 40

/-- The loop of `procinfo`; `stack` is where its local struct lies. -/
def procinfoFrom (table : Fin NPROC → Row) (pagetable : Nat) : List (Fin NPROC) → Nat → Mem → Int → Kern Int
  | [], _, _, nprocs => pure nprocs
  | i :: rest, addr, stack, nprocs =>
    if (table i).state = .unused then procinfoFrom table pagetable rest addr stack nprocs
    else do
      let procinfo := assign 0 (pstatMembers (pstat table i)) stack
      if (← copyout pagetable addr procinfo PSTATSIZE) < 0 then pure (-1)
      else procinfoFrom table pagetable rest (u64 (addr + PSTATSIZE)) procinfo (nprocs + 1)

def procinfo (table : Fin NPROC → Row) (pagetable addr : Nat) (stack : Mem) : Kern Int :=
  procinfoFrom table pagetable (List.finRange NPROC) addr stack 0

/-- What `stati` reads of an inode. -/
structure StatInode where
  dev : Nat
  inum : Nat
  type : Nat
  nlink : Nat
  size : Nat

/-- The assignments of `stati` to a `struct stat`. -/
def statMembers (ip : StatInode) : List Member := [
  ⟨4, 4, leByte ip.dev⟩,
  ⟨4, 4, leByte ip.inum⟩,
  ⟨2, 2, leByte ip.type⟩,
  ⟨2, 2, leByte ip.nlink⟩,
  ⟨8, 8, leByte ip.size⟩]

abbrev STATSIZE : Nat := 24

def stati (ip : StatInode) (st : Mem) : Mem := assign 0 (statMembers ip) st

def filestat (type : FileType) (ip : StatInode) (pagetable addr : Nat) (stack : Mem) : Kern Int :=
  if type = .inode ∨ type = .device then do
    let st := stati ip stack
    if (← copyout pagetable addr st STATSIZE) < 0 then pure (-1) else pure 0
  else pure (-1)

/-! ## Padding -/

variable {j : Nat} {table : Fin NPROC → Row} {stack : Mem}

theorem pstat_covered {r : Pstat} : Covered 0 (pstatMembers r) j ↔ j < 36 := by
  simp [Covered, pstatMembers, Member.next, Member.offset, alignUp]
  omega

theorem stat_covered {ip : StatInode} : Covered 0 (statMembers ip) j ↔ j < 12 ∨ 16 ≤ j ∧ j < 24 := by
  simp [Covered, statMembers, Member.next, Member.offset, alignUp]
  omega

/-! ## What is copied -/

variable {pagetable addr : Nat} {s : Pool UInt8} {E : Panic → Prop}

/-- User code can reach the bytes at `addr` up to byte `j`. -/
def ReachedTo (s : Pool UInt8) (pagetable addr j : Nat) : Prop := ∀ i ≤ j, frame s.mem pagetable (addr + i) ≠ none

/-- A call copies `len` bytes of `src` to `addr` and answers `ok`, or those before the first byte
that cannot be reached and answers -1. -/
def Copies (pagetable addr : Nat) (src : Mem) (len : Nat) (ok : Int) (s : Pool UInt8) (r : Int)
    (s' : Pool UInt8) : Prop :=
  ∃ k ≤ len, (k < len → frame s.mem pagetable (addr + k) = none) ∧ Sent pagetable addr src k s s' ∧
    r = if k = len then ok else -1

/-- The structs that `procinfo` copies, one after the other. -/
def records (table : Fin NPROC → Row) : List (Fin NPROC) → Mem → Mem
  | [], stack => stack
  | i :: rest, stack =>
    if (table i).state = .unused then records table rest stack
    else
      let procinfo := assign 0 (pstatMembers (pstat table i)) stack
      fun j => if j < PSTATSIZE then procinfo j else records table rest procinfo (j - PSTATSIZE)

def inUse (table : Fin NPROC → Row) (slots : List (Fin NPROC)) : Nat := slots.countP fun i => (table i).state ≠ .unused

theorem inUse_cons {i : Fin NPROC} {rest : List (Fin NPROC)} :
    inUse table (i :: rest) = inUse table rest + if (table i).state = .unused then 0 else 1 := by
  by_cases unused : (table i).state = .unused <;> simp [inUse, unused]

/-- All of `procinfo` is one copy, of its records in a row. -/
theorem wp_procinfoFrom {slots : List (Fin NPROC)} {nprocs : Int} (separate : Separate s.mem pagetable) :
    wp (procinfoFrom table pagetable slots addr stack nprocs) s
      (Copies pagetable addr (records table slots stack) (PSTATSIZE * inUse table slots)
        (nprocs + inUse table slots) s) E := by
  induction slots generalizing addr stack nprocs s with
  | nil => exact wp_pure ⟨0, Nat.le_refl 0, fun no => absurd no (Nat.lt_irrefl 0), .refl addr stack s, by simp [inUse]⟩
  | cons i rest ih =>
    rw [procinfoFrom, inUse_cons]
    by_cases unused : (table i).state = .unused
    · simp only [records, if_pos unused, Nat.add_zero]
      exact ih separate
    simp only [if_neg unused, Nat.mul_succ]
    refine wp_bind (wp_copyout_sent separate fun k t sent le stops => ?_)
    replace sent : Sent pagetable addr (records table (i :: rest) stack) k s t := sent.congr fun j below => by
      rw [records, if_neg unused]
      exact (if_pos (by omega)).symm
    by_cases whole : k = PSTATSIZE
    · subst whole
      have inside := ((Option.ne_none_iff_exists'.1 (sent.mapped 39 (by decide))).elim fun _ found =>
        (frame_eq_some.1 found).1)
      have next : u64 (addr + PSTATSIZE) = addr + PSTATSIZE := by
        simp only [u64, PSTATSIZE, MAXVA] at *
        omega
      obtain ⟨frames, separate'⟩ := sent.kept separate
      rw [if_pos rfl, if_neg (by decide), next]
      refine wp_imp (ih separate') ?_
      rintro r s' ⟨k', le', stops', rest', is⟩
      refine ⟨PSTATSIZE + k', by omega, fun less => ?_, sent.trans separate ?_, ?_⟩
      · rw [← Nat.add_assoc, ← frames]
        exact stops' (by omega)
      · simpa [records, unused] using rest'
      · rw [is]
        have iff : k' = PSTATSIZE * inUse table rest ↔
          PSTATSIZE + k' = PSTATSIZE * inUse table rest + PSTATSIZE := by omega
        simp only [iff]
        push_cast
        rw [add_assoc, add_comm 1]
    · rw [if_neg whole, if_pos (by decide)]
      exact wp_pure ⟨k, by omega, fun _ => stops (by omega), sent, (if_neg (by omega)).symm⟩

theorem wp_filestat {type : FileType} {ip : StatInode} (kind : type = .inode ∨ type = .device)
    (separate : Separate s.mem pagetable) :
    wp (filestat type ip pagetable addr stack) s (Copies pagetable addr (stati ip stack) STATSIZE 0 s) E := by
  rw [filestat, if_pos kind]
  refine wp_bind (wp_copyout_sent separate fun k t sent le stops => ?_)
  by_cases whole : k = STATSIZE
  · rw [if_pos whole, if_neg (by decide)]
    exact wp_pure ⟨k, le, stops, sent, (if_pos whole).symm⟩
  · rw [if_neg whole, if_pos (by decide)]
    exact wp_pure ⟨k, le, stops, sent, (if_neg whole).symm⟩

/-! ## Two runs -/

/-- Two calls that copy as much do the same exactly when the bytes they copy are the same. -/
theorem Copies.eq_iff {call call' : Kern Int} {src src' : Mem} {len : Nat} {ok : Int}
    (first : Returns call s (Copies pagetable addr src len ok s))
    (second : Returns call' s (Copies pagetable addr src' len ok s)) :
    call s = call' s ↔ ∀ j < len, ReachedTo s pagetable addr j → src j = src' j := by
  obtain ⟨_, t, ran, k, le, stops, sent, rfl⟩ := first.run
  obtain ⟨_, t', ran', k', le', stops', sent', rfl⟩ := second.run
  obtain rfl : k = k' := by
    rcases Nat.lt_trichotomy k k' with less | is | more
    · exact absurd (stops (by omega)) (sent'.mapped k less)
    · exact is
    · exact absurd (stops' (by omega)) (sent.mapped k' more)
  rw [ran, ran']
  constructor
  · intro same j below reached
    have less : j < k := by
      by_contra low
      exact reached k (by omega) (stops (by omega))
    obtain ⟨pa, found⟩ := Option.ne_none_iff_exists'.1 (sent.mapped j less)
    have at' : phys s.mem pagetable (addr + j) = some (pa + (addr + j) % PGSIZE) := by rw [phys, found, Option.map_some]
    obtain rfl : t = t' := congrArg Prod.snd (Except.ok.inj same)
    rw [← sent.bytes j less _ at', ← sent'.bytes j less _ at']
  · intro same
    have mem : t.mem = t'.mem := funext fun x => by
      by_cases some' : ∃ j < k, phys s.mem pagetable (addr + j) = some x
      · obtain ⟨j, below, at'⟩ := some'
        rw [sent.bytes j below x at', sent'.bytes j below x at']
        exact same j (by omega) fun i le => sent.mapped i (by omega)
      · have none' : ∀ j < k, phys s.mem pagetable (addr + j) ≠ some x := fun j below at' => some' ⟨j, below, at'⟩
        rw [sent.others x none', sent'.others x none']
    have pool : t = t' := by
      cases t
      cases t'
      exact congrArg₂ Pool.mk mem (sent.free.trans sent'.free.symm)
    rw [pool]

theorem records_eq_iff {slots : List (Fin NPROC)} {stack' : Mem}
    (below : j < PSTATSIZE * inUse table slots) : records table slots stack j = records table slots stack' j ↔
      (36 ≤ j % PSTATSIZE → stack (j % PSTATSIZE) = stack' (j % PSTATSIZE)) := by
  induction slots generalizing stack stack' j with
  | nil => exact absurd below (Nat.not_lt_zero j)
  | cons i rest ih =>
    rw [inUse_cons] at below
    rw [records, records]
    by_cases unused : (table i).state = .unused
    · simp only [if_pos unused] at below ⊢
      exact ih below
    simp only [if_neg unused, Nat.mul_succ] at below ⊢
    by_cases first : j < PSTATSIZE
    · rw [if_pos first, if_pos first, assign_eq_iff, pstat_covered, Nat.not_lt, Nat.mod_eq_of_lt first]
    · have shift : (j - PSTATSIZE) % PSTATSIZE = j % PSTATSIZE := by
        simp only [PSTATSIZE] at *
        omega
      rw [if_neg first, if_neg first, ih (by omega), shift]
      -- a record keeps the padding that the one before it left
      refine imp_congr_right fun padding => ?_
      rw [assign_padding (by rw [pstat_covered]; omega), assign_padding (by rw [pstat_covered]; omega)]

/-- **Reports.**  On a page table that maps no page twice and none of its own pages, `procinfo` and
`filestat` do the same with two kernel stacks, in what they return and in all of memory, if and
only if the stacks agree on every padding byte that is copied.  For `procinfo` these are the bytes
36 to 39 of its struct, if a process is in use and user code can reach the first record that far;
for `filestat` the bytes 12 to 15, if the file is an inode or a device and user code can reach the
struct that far. -/
theorem reports_leak_padding (stack stack' : Mem) (s : Pool UInt8) (pagetable addr : Nat)
    (separate : Separate s.mem pagetable) :
    (∀ table, procinfo table pagetable addr stack s = procinfo table pagetable addr stack' s ↔
      ∀ j, 36 ≤ j → j < PSTATSIZE → (∃ i, (table i).state ≠ .unused) → ReachedTo s pagetable addr j →
      stack j = stack' j) ∧
    (∀ type ip, filestat type ip pagetable addr stack s = filestat type ip pagetable addr stack' s ↔
      ∀ j, 12 ≤ j → j < 16 → type = .inode ∨ type = .device → ReachedTo s pagetable addr j → stack j = stack' j) := by
  refine ⟨fun table => ?_, fun type ip => ?_⟩
  · refine (Copies.eq_iff (wp_procinfoFrom separate) (wp_procinfoFrom separate)).trans ?_
    have some' : 0 < inUse table (List.finRange NPROC) ↔ ∃ i, (table i).state ≠ .unused := by
      simp [inUse, List.countP_pos_iff]
    rw [← some']
    constructor
    · intro same j low high used reached
      have below : j < PSTATSIZE * inUse table (List.finRange NPROC) := by
        simp only [PSTATSIZE] at *
        omega
      have padding := (records_eq_iff below).1 (same j below reached)
      rw [Nat.mod_eq_of_lt high] at padding
      exact padding low
    · intro agree j below reached
      refine (records_eq_iff below).2 fun low =>
        agree _ low (Nat.mod_lt _ (by decide)) (Nat.pos_of_mul_pos_left (Nat.zero_lt_of_lt below)) fun i le => ?_
      exact reached i (Nat.le_trans le (Nat.mod_le _ _))
  · by_cases kind : type = .inode ∨ type = .device
    · refine (Copies.eq_iff (wp_filestat kind separate) (wp_filestat kind separate)).trans ?_
      simp only [stati, assign_eq_iff, stat_covered, STATSIZE]
      constructor
      · exact fun same j low high _ reached => same j (by omega) reached (by omega)
      · exact fun agree j below reached padding => agree j (by omega) (by omega) kind reached
    · rw [filestat, filestat, if_neg kind, if_neg kind]
      exact iff_of_true rfl fun j _ _ kind' => absurd kind' kind

def onlyInit (i : Fin NPROC) : Row where
  state := if i = 0 then .running else .unused
  pid := if i = 0 then 1 else 0
  sz := 4096
  parent := none
  name := [105, 110, 105, 116, 0]

/-- A table that maps one page for the user, at address 0. -/
abbrev onePage : Pool UInt8 := tower (userPte 16384)

theorem reports_leak_padding_sample : Separate onePage.mem 4096 ∧
    procinfo onlyInit 4096 0 (fun _ => 7) onePage ≠ procinfo onlyInit 4096 0 (fun _ => 0) onePage ∧
    procinfo onlyInit 4096 4056 (fun j => if j < 36 then 9 else 0) onePage =
    procinfo onlyInit 4096 4056 (fun _ => 0) onePage ∧
    filestat .inode ⟨1, 1, 1, 1, 1024⟩ 4096 0 (fun _ => 7) onePage ≠ filestat .inode ⟨1, 1, 1, 1,
      1024⟩ 4096 0 (fun _ => 0) onePage ∧
    filestat .inode ⟨1, 1, 1, 1, 1024⟩ 4096 4096 (fun _ => 7) onePage = filestat .inode ⟨1, 1, 1, 1,
      1024⟩ 4096 4096 (fun _ => 0) onePage := by
  have separate : Separate onePage.mem 4096 :=
    (tower_distinct (by decide) (by decide)).separate (tower_noTablePage (by decide) (by decide) (by decide))
      (by decide)
  have reached : ∀ j < 4096, ReachedTo onePage 4096 0 j := fun j below i le => by
    rw [Nat.zero_add, frame_same_page _ _ (show i / PGSIZE = 0 / PGSIZE
      from Nat.div_eq_of_lt (Nat.lt_of_le_of_lt le below))]
    decide +kernel
  refine ⟨separate, fun same => ?_, ?_, fun same => ?_, ?_⟩
  · have leaks := ((reports_leak_padding _ _ onePage 4096 0 separate).1 onlyInit).1 same 36 (by decide) (by decide) ⟨0,
      by decide⟩ (reached 36 (by decide))
    exact absurd leaks (by decide)
  · exact ((reports_leak_padding _ _ onePage 4096 4056 separate).1 onlyInit).2 fun j low _ _ _ =>
      if_neg (Nat.not_lt.mpr low)
  · have leaks := ((reports_leak_padding _ _ onePage 4096 0 separate).2 .inode _).1 same 12 (by decide) (by decide)
      (.inl rfl) (reached 12 (by decide))
    exact absurd leaks (by decide)
  · refine ((reports_leak_padding _ _ onePage 4096 4096 separate).2 .inode _).2 fun j _ _ _ reached => ?_
    exact absurd (by decide +kernel : frame onePage.mem 4096 4096 = none) (reached 0 (Nat.zero_le j))

/-- What a call returns and the byte of user memory at `va` after it. -/
def sees (call : Kern Int) (va : Nat) : Option (Int × UInt8) :=
  match call onePage with
  | .ok (r, s) => some (r, s.mem (16384 + va))
  | .error _ => none

/-- Bytes of the kernel stack reach user memory. -/
theorem stack_bytes_reach_user :
    sees (filestat .inode ⟨1, 1, 1, 1, 1024⟩ 4096 0 fun _ => 0) 12 = some (0, 0) ∧
    sees (filestat .inode ⟨1, 1, 1, 1, 1024⟩ 4096 0 fun _ => 7) 12 = some (0, 7) ∧
    sees (procinfo onlyInit 4096 0 fun _ => 0) 36 = some (1, 0) ∧
    sees (procinfo onlyInit 4096 0 fun _ => 7) 36 = some (1, 7) := by
  decide +kernel

end Xv6.Kernel.Vm
