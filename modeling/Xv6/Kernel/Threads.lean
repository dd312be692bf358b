/-
# Kernel.Threads -- processes, CPUs and spinlocks, one instruction at a time

The part of proc.c in which CPUs meet: `scheduler`, `sched`, `yield`, `sleep`,
`wakeup`, `kill`, `fork`, `exit` and `wait`.  A CPU executes on its scheduler's stack or
on the kernel stack of a process.  What a stack holds is a `Stack`: the task that its
thread is in, with a program counter, and the calls above it (`wakeup`, and what
interrupts bring).  `code` gives the next instruction as an `Effect` and the stack
after it; taking and giving back a lock, every write to the process table and both
directions of `swtch` are instructions of their own.

A `waker` takes the lock of a condition, makes it true and calls `wakeup`; a `sleeper`
sleeps until the condition is true.  Both stand for every such pair in the kernel.

`birth`, `forker`, `births` and `history` are records for the specification: nothing
that the code does depends on them.
-/
import Xv6.Kernel.Proc
import Xv6.Theory.Cores
import Xv6.Theory.Steps

namespace Xv6.Kernel.Sched

set_option autoImplicit false

open Xv6.Theory.Spin Xv6.Theory.Steps
open Xv6.Kernel.Vm (NPROC ProcState wrap)

/-! ## Control -/

/-- Spinlocks: `p->lock`, `wait_lock`, and the lock of the condition. -/
inductive Lock where
  | proc (i : Fin NPROC) | wait | cond
deriving DecidableEq

/-- Sleep channels: a process, for `wait`, and the condition. -/
inductive Chan where
  | proc (i : Fin NPROC) | cond
deriving DecidableEq

inductive YieldPc where
  | lock | state | swtch | release
deriving DecidableEq

/-- A loop over the process table that takes each lock in turn. -/
inductive ScanPc where
  | look (k : Nat) | locked (i : Fin NPROC) | done (i : Fin NPROC)
deriving DecidableEq

inductive WakerPc where
  | lock | set | wake | unlock
deriving DecidableEq

/-- A call that is active above the task of a thread. -/
inductive Frame where
  | yield (pc : YieldPc)
  | wakeup (chan : Option Chan) (pc : ScanPc)
  | waker (pc : WakerPc)
deriving DecidableEq

inductive SleepPc where
  | lock | unlock | chan | state | swtch | tidy | release | relock
deriving DecidableEq

inductive ForkPc where
  | look (k : Nat) | locked (i : Fin NPROC) | skip (i : Fin NPROC)
  | copy (i : Fin NPROC) | failed (i : Fin NPROC) | unlock (i : Fin NPROC)
  | lockWait (i : Fin NPROC) | parent (i : Fin NPROC) | unlockWait (i : Fin NPROC)
  | lock (i : Fin NPROC) | ready (i : Fin NPROC) | done (i : Fin NPROC)
deriving DecidableEq

inductive ExitPc where
  | lockWait | reparent (k : Nat) | notify | lock | zombie | unlockWait | swtch | dead
deriving DecidableEq

inductive WaitPc where
  | lockWait | look (k : Nat) (kids : Bool) | locked (i : Fin NPROC) | keep (i : Fin NPROC)
  | finish (i : Fin NPROC) | unlockWait | sleep (pc : SleepPc)
deriving DecidableEq

inductive KillPc where
  | look (k : Nat) | locked (i : Fin NPROC) | skip (i : Fin NPROC) | found (i : Fin NPROC)
deriving DecidableEq

inductive SleeperPc where
  | lock | test | sleep (pc : SleepPc) | unlock
deriving DecidableEq

inductive SchedPc where
  | look (k : Nat) | locked (i : Fin NPROC) | swtch (i : Fin NPROC) | back (i : Fin NPROC) | done (i : Fin NPROC)
deriving DecidableEq

/-- What a thread is in: `user` is user mode, or kernel code that does none of this. -/
inductive Task where
  | user
  | forkret
  | fork (pc : ForkPc)
  | exit (status : Int) (pc : ExitPc)
  | wait (addr : Bool) (pc : WaitPc)
  | kill (pid : Int) (since : Nat) (pc : KillPc)
  | sleeper (pc : SleeperPc)
  | scheduler (pc : SchedPc)
deriving DecidableEq

structure Stack where
  calls : List Frame
  base : Task
deriving DecidableEq

/-- A scheduler's own thread, and the kernel thread of a process. -/
inductive Thread (κ : Type) where
  | scheduler (c : κ)
  | proc (i : Fin NPROC)
deriving DecidableEq

/-! ## State -/

/-- The shared fields of `struct proc`. -/
structure Entry where
  state : ProcState := .unused
  chan : Option Chan := none
  killed : Bool := false
  xstate : Int := 0
  pid : Int := 0
  parent : Option (Fin NPROC) := none
  birth : Nat := 0
  forker : Nat := 0

/-- What happened, by the birth numbers of the processes. -/
inductive Event where
  | alloc (birth : Nat) (pid : Int) (forker : Nat)
  | exit (birth : Nat) (status : Int)
  | wait (parent birth : Nat) (pid status : Int)
  | kill (pid : Int) (target : Option Nat)
deriving DecidableEq

structure State (κ : Type) where
  cores : Cores κ (Thread κ) Lock Stack
  slot : Fin NPROC → Entry
  proc : κ → Option (Fin NPROC)
  cond : Bool
  nextpid : Int
  births : Nat
  history : List Event

inductive Panic where
  | acquire | release | schedLock | schedLocks | schedRunning | zombieExit | initExiting | nullProc
deriving DecidableEq

/-- The first process, the one `userinit` finds a slot for. -/
def initproc : Fin NPROC := 0

/-! ## Code -/

/-- What one instruction does, besides moving its thread on. -/
inductive Effect where
  | nop
  | acquire (l : Lock)
  | release (l : Lock)
  | alloc (p i : Fin NPROC)
  | free (i : Fin NPROC)
  | reap (p i : Fin NPROC)
  | setParent (i q : Fin NPROC)
  | setState (i : Fin NPROC) (state : ProcState)
  | setChan (i : Fin NPROC) (chan : Option Chan)
  | zombie (p : Fin NPROC) (status : Int)
  | kill (i : Fin NPROC) (pid : Int)
  | missed (pid : Int)
  | makeTrue
  | choose (i : Fin NPROC)
  | swtch (i : Fin NPROC)
  | clearProc
  | sched (p : Fin NPROC)
  | fault (e : Panic)
deriving DecidableEq

def slotAt (k : Nat) : Option (Fin NPROC) := if h : k < NPROC then some ⟨k, h⟩ else none

def frameCode (slot : Fin NPROC → Entry) (me : Option (Fin NPROC)) : Frame → Effect × List Frame
  | .yield pc =>
    match me with
    | none => (.fault .nullProc, [])
    | some p =>
      match pc with
      | .lock => (.acquire (.proc p), [.yield .state])
      | .state => (.setState p .runnable, [.yield .swtch])
      | .swtch => (.sched p, [.yield .release])
      | .release => (.release (.proc p), [])
  | .wakeup chan (.look k) =>
    match slotAt k with
    | none => (.nop, [])
    | some i => if some i = me then (.nop, [.wakeup chan (.look (k + 1))]) else (.acquire (.proc i),
      [.wakeup chan (.locked i)])
  | .wakeup chan (.locked i) =>
    if (slot i).state = .sleeping ∧ (slot i).chan = chan then (.setState i .runnable, [.wakeup chan (.done i)])
    else (.nop, [.wakeup chan (.done i)])
  | .wakeup chan (.done i) => (.release (.proc i), [.wakeup chan (.look (i + 1))])
  | .waker .lock => (.acquire .cond, [.waker .set])
  | .waker .set => (.makeTrue, [.waker .wake])
  | .waker .wake => (.nop, [.wakeup (some .cond) (.look 0), .waker .unlock])
  | .waker .unlock => (.release .cond, [])

/-- `sleep(chan, lk)`; it returns after the last instruction. -/
def sleepCode (p : Fin NPROC) (chan : Chan) (lk : Lock) : SleepPc → Effect × Option SleepPc
  | .lock => (.acquire (.proc p), some .unlock)
  | .unlock => (.release lk, some .chan)
  | .chan => (.setChan p (some chan), some .state)
  | .state => (.setState p .sleeping, some .swtch)
  | .swtch => (.sched p, some .tidy)
  | .tidy => (.setChan p none, some .release)
  | .release => (.release (.proc p), some .relock)
  | .relock => (.acquire lk, none)

/-- `fork`; `ok` says whether there was memory for the child. -/
def forkCode (slot : Fin NPROC → Entry) (p : Fin NPROC) (ok : Bool) : ForkPc → Effect × Task
  | .look k =>
    match slotAt k with
    | none => (.nop, .user)
    | some i => (.acquire (.proc i), .fork (.locked i))
  | .locked i => if (slot i).state = .unused then (.alloc p i, .fork (.copy i)) else (.nop, .fork (.skip i))
  | .skip i => (.release (.proc i), .fork (.look (i + 1)))
  | .copy i => if ok then (.nop, .fork (.unlock i)) else (.free i, .fork (.failed i))
  | .failed i => (.release (.proc i), .user)
  | .unlock i => (.release (.proc i), .fork (.lockWait i))
  | .lockWait i => (.acquire .wait, .fork (.parent i))
  | .parent i => (.setParent i p, .fork (.unlockWait i))
  | .unlockWait i => (.release .wait, .fork (.lock i))
  | .lock i => (.acquire (.proc i), .fork (.ready i))
  | .ready i => (.setState i .runnable, .fork (.done i))
  | .done i => (.release (.proc i), .user)

/-- `exit(status)`, from where it takes `wait_lock`; `reparent` is its loop. -/
def exitCode (slot : Fin NPROC → Entry) (p : Fin NPROC) (status : Int) : ExitPc → Effect × List Frame × Task
  | .lockWait => (.acquire .wait, [], .exit status (.reparent 0))
  | .reparent k =>
    match slotAt k with
    | none => (.nop, [], .exit status .notify)
    | some i =>
      if (slot i).parent = some p then
        (.setParent i initproc, [.wakeup (some (.proc initproc)) (.look 0)], .exit status (.reparent (k + 1)))
      else (.nop, [], .exit status (.reparent (k + 1)))
  | .notify => (.nop, [.wakeup ((slot p).parent.map .proc) (.look 0)], .exit status .lock)
  | .lock => (.acquire (.proc p), [], .exit status .zombie)
  | .zombie => (.zombie p status, [], .exit status .unlockWait)
  | .unlockWait => (.release .wait, [], .exit status .swtch)
  | .swtch => (.sched p, [], .exit status .dead)
  | .dead => (.fault .zombieExit, [], .exit status .dead)

/-- `wait(addr)`; `ok` says whether the status could be copied to the user. -/
def waitCode (slot : Fin NPROC → Entry) (p : Fin NPROC) (ok addr : Bool) : WaitPc → Effect × Task
  | .lockWait => (.acquire .wait, .wait addr (.look 0 false))
  | .look k kids =>
    match slotAt k with
    | none => if kids = false ∨ (slot p).killed then (.nop, .wait addr .unlockWait)
      else (.nop, .wait addr (.sleep .lock))
    | some i => if (slot i).parent = some p then (.acquire (.proc i), .wait addr (.locked i))
      else (.nop, .wait addr (.look (k + 1) kids))
  | .locked i =>
    if (slot i).state = .zombie then
      if addr && !ok then (.nop, .wait addr (.finish i)) else (.reap p i, .wait addr (.finish i))
    else (.nop, .wait addr (.keep i))
  | .keep i => (.release (.proc i), .wait addr (.look (i + 1) true))
  | .finish i => (.release (.proc i), .wait addr .unlockWait)
  | .unlockWait => (.release .wait, .user)
  | .sleep pc =>
    ((sleepCode p (.proc p) .wait pc).1,
     ((sleepCode p (.proc p) .wait pc).2.map fun pc' => .wait addr (.sleep pc')).getD (.wait addr (.look 0 false)))

def killCode (slot : Fin NPROC → Entry) (pid : Int) (since : Nat) : KillPc → Effect × Task
  | .look k =>
    match slotAt k with
    | none => (.missed pid, .user)
    | some i => (.acquire (.proc i), .kill pid since (.locked i))
  | .locked i => if (slot i).pid = pid then (.kill i pid, .kill pid since (.found i))
    else (.nop, .kill pid since (.skip i))
  | .skip i => (.release (.proc i), .kill pid since (.look (i + 1)))
  | .found i => (.release (.proc i), .user)

/-- `acquire(lk); while(!cond) sleep(chan, lk); release(lk)`. -/
def sleeperCode (cond : Bool) (p : Fin NPROC) : SleeperPc → Effect × Task
  | .lock => (.acquire .cond, .sleeper .test)
  | .test => if cond then (.nop, .sleeper .unlock) else (.nop, .sleeper (.sleep .lock))
  | .sleep pc =>
    ((sleepCode p .cond .cond pc).1,
      ((sleepCode p .cond .cond pc).2.map fun pc' => .sleeper (.sleep pc')).getD (.sleeper .test))
  | .unlock => (.release .cond, .user)

def schedulerCode (slot : Fin NPROC → Entry) : SchedPc → Effect × Task
  | .look k =>
    match slotAt k with
    | none => (.nop, .scheduler (.look 0))
    | some i => (.acquire (.proc i), .scheduler (.locked i))
  | .locked i => if (slot i).state = .runnable then (.choose i, .scheduler (.swtch i)) else (.nop, .scheduler (.done i))
  | .swtch i => (.swtch i, .scheduler (.back i))
  | .back i => (.clearProc, .scheduler (.done i))
  | .done i => (.release (.proc i), .scheduler (.look (i + 1)))

/-- The code of a task that has called `myproc()`. -/
def procCode (slot : Fin NPROC → Entry) (cond ok : Bool) (p : Fin NPROC) : Task → Effect × List Frame × Task
  | .user => (.nop, [], .user)
  | .forkret => (.release (.proc p), [], .user)
  | .fork pc => ((forkCode slot p ok pc).1, [], (forkCode slot p ok pc).2)
  | .exit status pc => exitCode slot p status pc
  | .wait addr pc => ((waitCode slot p ok addr pc).1, [], (waitCode slot p ok addr pc).2)
  | .kill pid since pc => ((killCode slot pid since pc).1, [], (killCode slot pid since pc).2)
  | .sleeper pc => ((sleeperCode cond p pc).1, [], (sleeperCode cond p pc).2)
  | .scheduler pc => ((schedulerCode slot pc).1, [], (schedulerCode slot pc).2)

def taskCode (slot : Fin NPROC → Entry) (cond ok : Bool) (me : Option (Fin NPROC)) : Task → Effect × List Frame × Task
  | .scheduler pc => ((schedulerCode slot pc).1, [], (schedulerCode slot pc).2)
  | task =>
    match me with
    | none => (.fault .nullProc, [], task)
    | some p => procCode slot cond ok p task

/-- The next instruction of a thread, and its stack after it. -/
def code (slot : Fin NPROC → Entry) (cond ok : Bool) (me : Option (Fin NPROC)) (stack : Stack) : Effect × Stack :=
  match stack.calls with
  | [] => ((taskCode slot cond ok me stack.base).1,
    ⟨(taskCode slot cond ok me stack.base).2.1, (taskCode slot cond ok me stack.base).2.2⟩)
  | f :: rest => ((frameCode slot me f).1, ⟨(frameCode slot me f).2 ++ rest, stack.base⟩)

/-! ## Steps -/

/-- `freeproc(p)`. -/
def Entry.freeproc (e : Entry) : Entry :=
  { e with state := .unused, chan := none, killed := false, xstate := 0, pid := 0, parent := none }

namespace State

variable {κ : Type} [DecidableEq κ]

def goto (s : State κ) (c : κ) (k : Stack) : State κ := { s with cores := s.cores.goto c k }

def setSlot (s : State κ) (i : Fin NPROC) (e : Entry) : State κ := { s with slot := Function.update s.slot i e }

def note (s : State κ) (e : Event) : State κ := { s with history := e :: s.history }

/-- The instruction of CPU `c`, whose stack is then `k`. -/
def apply (s : State κ) (c : κ) (k : Stack) : Effect → Outcome Panic (State κ)
  | .nop => .next (s.goto c k)
  | .acquire l =>
    match s.cores.lock l with
    | none => .next { s with cores := (s.cores.goto c k).acquire c l }
    | some c' => if c' = c then .panic .acquire else .blocked
  | .release l =>
    if s.cores.lock l = some c then .next { s with cores := (s.cores.goto c k).release c l } else .panic .release
  | .alloc p i => .next { s with
      cores := (s.cores.goto c k).place (.proc i) ⟨[], .forkret⟩
      slot := Function.update s.slot i
        { s.slot i with pid := s.nextpid, state := .used, birth := s.births, forker := (s.slot p).birth }
      nextpid := wrap (s.nextpid + 1)
      births := s.births + 1
      history := .alloc s.births s.nextpid (s.slot p).birth :: s.history }
  | .free i => .next ((s.goto c k).setSlot i (s.slot i).freeproc)
  | .reap p i => .next (((s.goto c k).setSlot i (s.slot i).freeproc).note
      (.wait (s.slot p).birth (s.slot i).birth (s.slot i).pid (s.slot i).xstate))
  | .setParent i q => .next ((s.goto c k).setSlot i { s.slot i with parent := some q })
  | .setState i state => .next ((s.goto c k).setSlot i { s.slot i with state := state })
  | .setChan i chan => .next ((s.goto c k).setSlot i { s.slot i with chan := chan })
  | .zombie p status => .next (((s.goto c k).setSlot p { s.slot p with xstate := status, state := .zombie }).note
      (.exit (s.slot p).birth status))
  | .kill i pid => .next (((s.goto c k).setSlot i { s.slot i with
      killed := true
      state := if (s.slot i).state = .sleeping then .runnable else (s.slot i).state }).note
      (.kill pid (some (s.slot i).birth)))
  | .missed pid => .next ((s.goto c k).note (.kill pid none))
  | .makeTrue => .next { s.goto c k with cond := true }
  | .choose i => .next { (s.goto c k).setSlot i
    { s.slot i with state := .running } with proc := Function.update s.proc c (some i) }
  | .swtch i => .next { s with cores := (s.cores.goto c k).switch c (.proc i) }
  | .clearProc => .next { s.goto c k with proc := Function.update s.proc c none }
  | .sched p =>
    if s.cores.lock (.proc p) ≠ some c then .panic .schedLock
    else if s.cores.noff c ≠ 1 then .panic .schedLocks
    else if (s.slot p).state = .running then .panic .schedRunning
    else .next { s with cores := (s.cores.goto c k).switch c (.scheduler c) }
  | .fault e => .panic e

end State

inductive Syscall where
  | fork | exit (status : Int) | wait (addr : Bool) | kill (pid : Int) | sleeper
deriving DecidableEq

def Syscall.isExit : Syscall → Bool
  | .exit _ => true
  | _ => false

def Syscall.task (births : Nat) : Syscall → Task
  | .fork => .fork (.look 0)
  | .exit status => .exit status .lockWait
  | .wait addr => .wait addr .lockWait
  | .kill pid => .kill pid births (.look 0)
  | .sleeper => .sleeper .lock

/-- A CPU executes an instruction, whose outcome `ok` may decide; a process in user mode
makes a system call; a timer interrupt calls `yield`; an interrupt handler or the code of
the running thread calls the waker.  Interrupts are off while a CPU has a spinlock. -/
inductive Act (κ : Type) where
  | exec (c : κ) (ok : Bool)
  | call (c : κ) (what : Syscall)
  | timer (c : κ)
  | device (c : κ)
deriving DecidableEq

variable {κ : Type} [DecidableEq κ]

/-- A handler runs on the stack it interrupts. -/
def State.push (s : State κ) (c : κ) (f : Frame) :
    State κ := s.goto c ⟨f :: (s.cores.now c).calls, (s.cores.now c).base⟩

def step (s : State κ) : Act κ → Outcome Panic (State κ)
  | .exec c ok => s.apply c (code s.slot s.cond ok (s.proc c) (s.cores.now c)).2
    (code s.slot s.cond ok (s.proc c) (s.cores.now c)).1
  | .call c what =>
    match s.proc c with
    | none => .blocked
    | some p =>
      if s.cores.now c = ⟨[], .user⟩ then
        if what.isExit ∧ p = initproc then .panic .initExiting
        else .next (s.goto c ⟨[], what.task s.births⟩)
      else .blocked
  | .timer c =>
    match s.proc c with
    | none => .blocked
    | some p => if s.cores.noff c = 0 ∧ (s.slot p).state = .running then .next (s.push c (.yield .lock)) else .blocked
  | .device c => if s.cores.noff c = 0 then .next (s.push c (.waker .lock)) else .blocked

/-- After `userinit`: every CPU enters `scheduler`. -/
def boot (cond : Bool) : State κ where
  cores := {
    lock := fun _ => none
    noff := fun _ => 0
    on := fun c => .scheduler c
    ctl := fun
      | .scheduler _ => ⟨[], .scheduler (.look 0)⟩
      | .proc _ => ⟨[], .forkret⟩ }
  slot := fun i => if i = initproc then { state := .runnable, pid := 1 } else {}
  proc := fun _ => none
  cond := cond
  nextpid := 2
  births := 1
  history := [.alloc 0 1 0]

end Xv6.Kernel.Sched
