/-
# Kernel.Machine -- processes, files and pipes together

The process table of `proc.c`, the file table of `file.c`, the pipes of `pipe.c` and
the system calls that allocate or free pages, over physical memory.  `step` runs one
system call of a running process, one boot-time allocation, one store of user code or
one decision of the scheduler; a call that has to wait puts its process to sleep and
is made again later.

Left out is what holds no page: inodes, working directories and the contents of
pipes.  Of file system transactions there is only where they begin and end.
-/
import Xv6.Kernel.Exec
import Xv6.Theory.Steps

namespace Xv6.Kernel.Vm

set_option autoImplicit false

open Xv6.Theory Xv6.Theory.Bytes Xv6.Theory.Prog Xv6.Theory.Steps

/-! ## State -/

inductive FileType where
  | none | pipe | inode | device
deriving DecidableEq, Repr

/-- `struct file` -/
structure File where
  type : FileType := .none
  ref : Nat := 0
  readable : Bool := false
  writable : Bool := false
  pipe : Nat := 0
deriving DecidableEq, Repr

/-- The kernel's state.  `boot` records the pages allocated at boot and never freed,
`inOp` whether the running call is between `begin_op` and `end_op`, and `nested`
whether `begin_op` was ever called there. -/
structure Machine where
  km : Pool UInt8
  proc : Fin NPROC → Proc := fun _ => {}
  file : Fin NFILE → File := fun _ => {}
  initproc : Option (Fin NPROC) := none
  nextpid : Int := 1
  boot : List Nat := []
  inOp : Bool := false
  nested : Bool := false

abbrev Sys := Prog Panic Machine

/-- A program on physical memory. -/
def onMem {α : Type} (m : Kern α) : Sys α := zoom Machine.km (fun km s => { s with km := km }) m

/-- A program on physical memory that changes the process `i`. -/
def onProc {α : Type} (i : Fin NPROC) (f : Proc → Kern (α × Proc)) : Sys α := do
  let s ← get
  let (a, p) ← onMem (f (s.proc i))
  modify fun s => { s with proc := Function.update s.proc i p }
  pure a

def setProc (i : Fin NPROC) (f : Proc → Proc) : Sys Unit :=
  modify fun s => { s with proc := Function.update s.proc i (f (s.proc i)) }

def setFile (f : Fin NFILE) (g : File → File) : Sys Unit :=
  modify fun s => { s with file := Function.update s.file f (g (s.file f)) }

def Proc.setFd (p : Proc) (fd : Fin NOFILE) (f : Option (Fin NFILE)) : Proc :=
  { p with ofile := Function.update p.ofile fd f }

def setFd (i : Fin NPROC) (fd : Fin NOFILE) (f : Option (Fin NFILE)) : Sys Unit := setProc i fun p => p.setFd fd f

def beginOp : Sys Unit := modify fun s => { s with nested := s.nested || s.inOp, inOp := true }

def endOp : Sys Unit := modify fun s => { s with inOp := false }

/-- The first index that satisfies a test. -/
def first {n : Nat} (test : Fin n → Bool) : Option (Fin n) := (List.finRange n).find? test

/-! ## Pipes and files -/

/-- Offsets in `struct pipe`. -/
abbrev PI_NREAD : Nat := 536
abbrev PI_NWRITE : Nat := 540
abbrev PI_READOPEN : Nat := 544
abbrev PI_WRITEOPEN : Nat := 548

def pipeclose (img : Image) (pi : Nat) (writable : Bool) : Kern Unit := do
  poke 4 (pi + if writable then PI_WRITEOPEN else PI_READOPEN) 0
  let readopen ← peek 4 (pi + PI_READOPEN)
  let writeopen ← peek 4 (pi + PI_WRITEOPEN)
  when (readopen = 0 ∧ writeopen = 0) (kfree img pi)

def filealloc : Sys (Option (Fin NFILE)) := do
  let s ← get
  match first fun f => (s.file f).ref = 0 with
  | none => pure none
  | some f => do
      setFile f fun file => { file with ref := 1 }
      pure (some f)

def filedup (f : Fin NFILE) : Sys Unit := do
  if ((← get).file f).ref < 1 then throw .filedup
  else setFile f fun file => { file with ref := file.ref + 1 }

def fileclose (img : Image) (f : Fin NFILE) : Sys Unit := do
  let ff := (← get).file f
  if ff.ref < 1 then throw .fileclose
  else if 0 < ff.ref - 1 then setFile f fun file => { file with ref := file.ref - 1 }
  else do
    setFile f fun file => { file with ref := 0, type := .none }
    if ff.type = .pipe then onMem (pipeclose img ff.pipe ff.writable)
    else when (ff.type = .inode ∨ ff.type = .device) (do
      beginOp
      -- iput(ff.ip)
      endOp)

/-- The new pipe structure, once its page is there. -/
def pipeinit (pi : Nat) : Kern Unit := do
  poke 4 (pi + PI_READOPEN) 1
  poke 4 (pi + PI_WRITEOPEN) 1
  poke 4 (pi + PI_NWRITE) 0
  poke 4 (pi + PI_NREAD) 0

def pipealloc (img : Image) : Sys (Option (Fin NFILE × Fin NFILE)) := do
  match ← filealloc with
  | none => pure none
  | some f0 => do
      match ← filealloc with
      | none => do
          fileclose img f0
          pure none
      | some f1 => do
          match ← onMem kalloc with
          | none => do
              fileclose img f0
              fileclose img f1
              pure none
          | some pi => do
              onMem (pipeinit pi)
              setFile f0 fun file => { file with type := .pipe, readable := true, writable := false, pipe := pi }
              setFile f1 fun file => { file with type := .pipe, readable := false, writable := true, pipe := pi }
              pure (some (f0, f1))

def fdalloc (i : Fin NPROC) (f : Fin NFILE) : Sys (Option (Fin NOFILE)) := do
  let s ← get
  match first fun fd => ((s.proc i).ofile fd).isNone with
  | none => pure none
  | some fd => do
      setFd i fd (some f)
      pure (some fd)

/-! ## Processes -/

def allocproc (img : Image) : Sys (Option (Fin NPROC)) := do
  let s ← get
  match first fun i => (s.proc i).state = .unused with
  | none => pure none
  | some i => do
      -- allocpid
      modify fun s => { s with nextpid := wrap (s.nextpid + 1) }
      if ← onProc i (allocprocAt img s.nextpid) then pure (some i) else pure none

/-- Without a process the assignment to `p->sz` traps. -/
def userinit (img : Image) : Sys Unit := do
  match ← allocproc img with
  | none => throw .kerneltrap
  | some i => do
      modify fun s => { s with initproc := some i }
      let lost ← onProc i userinitAt
      modify fun s => { s with boot := lost.toList ++ s.boot }

/-- The loop of `fork` over the open files of the parent `i`. -/
def dupFrom (i np : Fin NPROC) : List (Fin NOFILE) → Sys Unit
  | [] => pure ()
  | fd :: rest => do
      match ((← get).proc i).ofile fd with
      | none => dupFrom i np rest
      | some f => do
          filedup f
          setFd np fd (some f)
          dupFrom i np rest

def fork (img : Image) (i : Fin NPROC) : Sys Int := do
  match ← allocproc img with
  | none => pure (-1)
  | some np => do
      let p := (← get).proc i
      if ← onProc np (forkAt img p) then do
        dupFrom i np (List.finRange NOFILE)
        setProc np fun q => { q with name := safestrcpy q.name p.name 16, parent := some i, state := .runnable }
        pure ((← get).proc np).pid
      else pure (-1)

/-- The loop of `exit` over the open files. -/
def closeFrom (img : Image) (i : Fin NPROC) : List (Fin NOFILE) → Sys Unit
  | [] => pure ()
  | fd :: rest => do
      match ((← get).proc i).ofile fd with
      | none => closeFrom img i rest
      | some f => do
          fileclose img f
          setFd i fd none
          closeFrom img i rest

def reparent (i : Fin NPROC) : Sys Unit :=
  modify fun s => { s with
    proc := fun j => if (s.proc j).parent = some i then { s.proc j with parent := s.initproc } else s.proc j }

def exit (img : Image) (i : Fin NPROC) (status : Int) : Sys Unit := do
  if (← get).initproc = some i then throw .initExiting
  else do
    closeFrom img i (List.finRange NOFILE)
    beginOp
    -- iput(p->cwd)
    endOp
    reparent i
    setProc i fun p => { p with xstate := status, state := .zombie }

/-- The exit status goes to the parent, if it asked for it. -/
def statusOut (pagetable addr : Nat) (xstate : Int) : Kern Int :=
  if addr ≠ 0 then copyout pagetable addr (leByte (u32 xstate)) 4 else pure 0

/-- `freeproc` on a zombie. -/
def reap (img : Image) (np : Proc) : Kern (Unit × Proc) := do
  let np ← freeproc img np
  pure ((), np)

/-- The answer of `wait`, or none if the process has to sleep first. -/
def wait (img : Image) (i : Fin NPROC) (addr : Nat) : Sys (Option Int) := do
  let s ← get
  match first fun j => (s.proc j).parent = some i ∧ (s.proc j).state = .zombie with
  | some j => do
      let r ← onMem (statusOut (s.proc i).pagetable addr (s.proc j).xstate)
      if r < 0 then pure (some (-1))
      else do
        onProc j (reap img)
        pure (some (s.proc j).pid)
  | none =>
    if (first fun j => (s.proc j).parent = some i).isNone ∨ (s.proc i).killed then pure (some (-1))
    else do
      setProc i fun p => { p with state := .sleeping }
      pure none

def kill (pid : Int) : Sys Int := do
  let s ← get
  match first fun j => (s.proc j).pid = pid with
  | none => pure (-1)
  | some j => do
      setProc j fun p => { p with killed := true, state := if p.state = .sleeping then .runnable else p.state }
      pure 0

/-! ## System calls -/

/-- An integer argument as a file descriptor of the process. -/
def argfd (p : Proc) (fd : Int) : Option (Fin NOFILE × Fin NFILE) :=
  if h : 0 ≤ fd ∧ fd.toNat < NOFILE then (p.ofile ⟨fd.toNat, h.2⟩).map fun f => (⟨fd.toNat, h.2⟩, f) else none

def sysDup (i : Fin NPROC) (fd : Int) : Sys Int := do
  let s ← get
  match argfd (s.proc i) fd with
  | none => pure (-1)
  | some (_, f) => do
      match ← fdalloc i f with
      | none => pure (-1)
      | some fd => do
          filedup f
          pure fd.val

def sysClose (img : Image) (i : Fin NPROC) (fd : Int) : Sys Int := do
  let s ← get
  match argfd (s.proc i) fd with
  | none => pure (-1)
  | some (fd, f) => do
      setFd i fd none
      fileclose img f
      pure 0

/-- `sys_open`: `found` says whether the path led to an inode that may be opened this
way, and `device` whether that is a device. -/
def sysOpen (img : Image) (i : Fin NPROC) (found device readable writable : Bool) : Sys Int := do
  beginOp
  if found then
    match ← filealloc with
    | none => do
        endOp
        pure (-1)
    | some f => do
        match ← fdalloc i f with
        | none => do
            fileclose img f
            endOp
            pure (-1)
        | some fd => do
            setFile f fun file => { file with
              type := if device then .device else .inode, readable := readable, writable := writable }
            endOp
            pure fd.val
  else do
    endOp
    pure (-1)

/-- The two descriptors of a new pipe go to the caller. -/
def fdsOut (pagetable fdarray fd0 fd1 : Nat) : Kern Int := do
  let r ← copyout pagetable fdarray (leByte fd0) 4
  if r < 0 then pure (-1)
  else copyout pagetable (u64 (fdarray + 4)) (leByte fd1) 4

def sysPipe (img : Image) (i : Fin NPROC) (fdarray : Nat) : Sys Int := do
  match ← pipealloc img with
  | none => pure (-1)
  | some (rf, wf) => do
      match ← fdalloc i rf with
      | none => do
          fileclose img rf
          fileclose img wf
          pure (-1)
      | some fd0 => do
          match ← fdalloc i wf with
          | none => do
              setFd i fd0 none
              fileclose img rf
              fileclose img wf
              pure (-1)
          | some fd1 => do
              let s ← get
              let r ← onMem (fdsOut (s.proc i).pagetable fdarray fd0 fd1)
              if r < 0 then do
                setFd i fd0 none
                setFd i fd1 none
                fileclose img rf
                fileclose img wf
                pure (-1)
              else pure 0

def sysSbrk (img : Image) (i : Fin NPROC) (n : Int) : Sys Int := do
  let s ← get
  let r ← onProc i (growproc img n)
  if r < 0 then pure (-1) else pure (s.proc i).sz

/-- A system call with its arguments. -/
inductive Call where
  | fork
  | exit (status : Int)
  | wait (addr : Nat)
  | pipe (fdarray : Nat)
  | kill (pid : Int)
  | exec (namei : List UInt8 → Option (List UInt8)) (upath uargv : Nat)
  | dup (fd : Int)
  | sbrk (n : Int)
  | openFile (found device readable writable : Bool)
  | close (fd : Int)

/-- `p->trapframe->a0 = ...` -/
def setReturn (i : Fin NPROC) (r : Int) : Sys Unit := do
  let s ← get
  onMem (poke 8 ((s.proc i).trapframe + TF_A0) (r % 2 ^ 64).toNat)

def syscall (img : Image) (i : Fin NPROC) : Call → Sys Unit
  | .fork => fork img i >>= setReturn i
  | .exit status => exit img i status
  | .wait addr => do
      match ← wait img i addr with
      | some r => setReturn i r
      | none => pure ()
  | .pipe fdarray => sysPipe img i fdarray >>= setReturn i
  | .kill pid => kill pid >>= setReturn i
  | .exec namei upath uargv => onProc i (sysExec img namei upath uargv) >>= setReturn i
  | .dup fd => sysDup i fd >>= setReturn i
  | .sbrk n => sysSbrk img i n >>= setReturn i
  | .openFile found device readable writable => sysOpen img i found device readable writable >>= setReturn i
  | .close fd => sysClose img i fd >>= setReturn i

/-! ## Steps -/

inductive Act where
  | userinit
  | kalloc
  | kfree (pa : Nat)
  | call (i : Fin NPROC) (c : Call)
  | store (i : Fin NPROC) (va : Nat) (bytes : List UInt8)
  | trap (i : Fin NPROC) (regs : List UInt8)
  | run (i : Fin NPROC)
  | yield (i : Fin NPROC)
  | wakeup (i : Fin NPROC)

/-- Allocate a page at boot. -/
def bootKalloc : Sys Unit := do
  match ← onMem kalloc with
  | none => pure ()
  | some pa => modify fun s => { s with boot := pa :: s.boot }

/-- Give a page back that was allocated at boot. -/
def bootKfree (img : Image) (pa : Nat) : Sys Unit := do
  onMem (kfree img pa)
  modify fun s => { s with boot := s.boot.erase pa }

/-- User code writes where its page table lets it. -/
def userStore (i : Fin NPROC) (va : Nat) (bytes : List UInt8) : Sys Unit := do
  let s ← get
  let _ ← onMem (copyout (s.proc i).pagetable va (fun j => bytes.getD j 0) bytes.length)
  pure ()

/-- `uservec` saves the registers. -/
def saveRegs (i : Fin NPROC) (regs : List UInt8) : Sys Unit := do
  let s ← get
  onMem (modify fun km => { km with
    mem := blit km.mem (s.proc i).trapframe (min regs.length TF_SIZE) fun j => regs.getD j 0 })

def setState (i : Fin NPROC) (state : ProcState) : Sys Unit := setProc i fun p => { p with state := state }

/-- When an action can happen: `userinit` once, `kfree` on a page that was allocated,
and calls of processes that run. -/
def enabled (s : Machine) : Act → Bool
  | .userinit => s.initproc.isNone
  | .kalloc => true
  | .kfree pa => s.boot.contains pa
  | .call i _ | .store i _ _ | .trap i _ | .yield i => (s.proc i).state = .running
  | .run i => (s.proc i).state = .runnable
  | .wakeup i => (s.proc i).state = .sleeping

def perform (img : Image) : Act → Sys Unit
  | .userinit => userinit img
  | .kalloc => bootKalloc
  | .kfree pa => bootKfree img pa
  | .call i c => syscall img i c
  | .store i va bytes => userStore i va bytes
  | .trap i regs => saveRegs i regs
  | .run i => setState i .running
  | .yield i | .wakeup i => setState i .runnable

def step (img : Image) (s : Machine) (a : Act) : Outcome Panic Machine :=
  if enabled s a then
    match perform img a s with
    | .ok (_, s') => .next s'
    | .error e => .panic e
  else .blocked

end Xv6.Kernel.Vm
